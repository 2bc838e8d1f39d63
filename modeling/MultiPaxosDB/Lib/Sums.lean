/-
# MultiPaxosDB.Lib.Sums — sums over lists whose elements have distinct keys.

Some of the elements of a list are singled out by their keys: a sum over those is a sum over all, with
zero for the others.
-/
import Mathlib.Algebra.BigOperators.Group.List.Basic
import Mathlib.Data.List.Nodup

namespace MultiPaxosDB.Lib

universe u v w

variable {α : Type u} {κ : Type v} {M : Type w}

theorem sum_map_filter [AddMonoid M] (p : α → Prop) [DecidablePred p] (f : α → M) (l : List α) :
    ((l.filter fun x => decide (p x)).map f).sum = (l.map fun x => if p x then f x else 0).sum := by
  induction l with
  | nil => rfl
  | cons x l ih =>
    rw [List.map_cons, List.sum_cons, ← ih]
    by_cases hx : p x
    · rw [List.filter_cons_of_pos (by simpa using hx), if_pos hx, List.map_cons, List.sum_cons]
    · rw [List.filter_cons_of_neg (by simpa using hx), if_neg hx, zero_add]

theorem sum_map_of_subset_keys [DecidableEq κ] [AddCommMonoid M] (key : α → κ) {chosen all : List α}
    (hall : (all.map key).Nodup) (hchosen : (chosen.map key).Nodup) (hsub : ∀ x ∈ chosen, x ∈ all) (f : α → M) :
    (chosen.map f).sum = (all.map fun x => if key x ∈ chosen.map key then f x else 0).sum := by
  rw [← sum_map_filter]
  apply List.Perm.sum_eq
  apply List.Perm.map
  refine (List.perm_ext_iff_of_nodup hchosen.of_map (hall.of_map.filter _)).mpr ?_
  intro x
  rw [List.mem_filter, decide_eq_true_eq]
  constructor
  · intro hx
    exact ⟨hsub x hx, List.mem_map.mpr ⟨x, hx, rfl⟩⟩
  · rintro ⟨hx, hkey⟩
    obtain ⟨y, hy, heq⟩ := List.mem_map.mp hkey
    rw [← List.inj_on_of_nodup_map hall (hsub y hy) hx heq]
    exact hy

end MultiPaxosDB.Lib
