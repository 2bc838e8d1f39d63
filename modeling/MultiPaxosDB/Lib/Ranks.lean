/-
# MultiPaxosDB.Lib.Ranks — the element at a position of a sorted list.

What stands at position `k` of a sorted list is at least as great as `k + 1` of the elements and at most as great as all
but `k` of them.  Neither count depends on the order of the list, so both hold of the list that was sorted.
-/
import Mathlib.Data.List.Sort
import Mathlib.Order.Basic

namespace MultiPaxosDB.Lib

universe u

variable {α : Type u} [LinearOrder α] {l : List α} {k : Nat} {x : α}

/-- The elements up to position `k` are not above the one that stands there. -/
theorem lt_countP_le (hsorted : l.Pairwise (· ≤ ·)) (hk : l[k]? = some x) : k < l.countP fun y => decide (y ≤ x) := by
  obtain ⟨hlt, rfl⟩ := List.getElem?_eq_some_iff.mp hk
  have hbelow : (l.take (k + 1)).countP (fun y => decide (y ≤ l[k])) = k + 1 := by
    rw [List.countP_eq_length.mpr, List.length_take, Nat.min_eq_left hlt]
    intro y hy
    obtain ⟨i, hi, rfl⟩ := List.mem_iff_getElem.mp hy
    rw [List.length_take] at hi
    rw [List.getElem_take, decide_eq_true_eq]
    rcases Nat.lt_or_ge i k with hik | hik
    · exact List.pairwise_iff_getElem.mp hsorted i k (by omega) hlt hik
    · have : i = k := by omega
      subst this
      exact le_rfl
  have hsub := (List.take_sublist (k + 1) l).countP_le (p := fun y => decide (y ≤ l[k]))
  omega

/-- Those from position `k` on are not below it. -/
theorem le_countP_ge (hsorted : l.Pairwise (· ≤ ·)) (hk : l[k]? = some x) :
    l.length - k ≤ l.countP fun y => decide (x ≤ y) := by
  obtain ⟨hlt, rfl⟩ := List.getElem?_eq_some_iff.mp hk
  have habove : (l.drop k).countP (fun y => decide (l[k] ≤ y)) = l.length - k := by
    rw [List.countP_eq_length.mpr, List.length_drop]
    intro y hy
    obtain ⟨i, hi, rfl⟩ := List.mem_iff_getElem.mp hy
    rw [List.length_drop] at hi
    rw [List.getElem_drop, decide_eq_true_eq]
    rcases Nat.eq_zero_or_pos i with rfl | hpos
    · exact le_rfl
    · exact List.pairwise_iff_getElem.mp hsorted k (k + i) hlt (by omega) (by omega)
  have hsub := (List.drop_sublist k l).countP_le (p := fun y => decide (l[k] ≤ y))
  omega

/-- Positions are in the order of the elements. -/
theorem getElem?_le_getElem? (hsorted : l.Pairwise (· ≤ ·)) {j : Nat} {y : α} (hk : l[k]? = some x)
    (hj : l[j]? = some y) (hkj : k ≤ j) : x ≤ y := by
  obtain ⟨hlt, rfl⟩ := List.getElem?_eq_some_iff.mp hk
  obtain ⟨hlt', rfl⟩ := List.getElem?_eq_some_iff.mp hj
  rcases Nat.lt_or_ge k j with hlt | hge
  · exact List.pairwise_iff_getElem.mp hsorted k j _ hlt' hlt
  · have : k = j := by omega
    subst this
    exact le_rfl

end MultiPaxosDB.Lib
