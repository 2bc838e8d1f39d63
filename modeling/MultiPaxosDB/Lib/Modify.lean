/-
# MultiPaxosDB.Lib.Modify — lists whose elements are updated in place.

A log of calls is a list that grows at the end and whose elements are marked in place with
`List.modify`.  Marking one element moves a count by what it does to that element, and drops it from the
elements that pass a test it no longer passes.
-/
import Mathlib.Data.List.Perm.Basic
import Mathlib.Tactic.Common

namespace MultiPaxosDB.Lib

universe u

variable {α : Type u}

theorem mem_modify {l : List α} {k : Nat} {f : α → α} {y : α} (h : y ∈ l.modify k f) :
    y ∈ l ∨ ∃ x, l[k]? = some x ∧ y = f x := by
  induction l generalizing k with
  | nil => simp at h
  | cons a l ih =>
    cases k with
    | zero =>
      rcases List.mem_cons.mp h with rfl | hmem
      · exact .inr ⟨a, rfl, rfl⟩
      · exact .inl (List.mem_cons_of_mem a hmem)
    | succ k =>
      rcases List.mem_cons.mp h with rfl | hmem
      · exact .inl List.mem_cons_self
      · rcases ih hmem with hold | ⟨x, hx, hy⟩
        · exact .inl (List.mem_cons_of_mem a hold)
        · exact .inr ⟨x, hx, hy⟩

/-- What stands in a marked list stood there before, perhaps unmarked. -/
theorem getElem?_of_modify {l : List α} {k k' : Nat} {f : α → α} {y : α}
    (h : (l.modify k' f)[k]? = some y) : ∃ x, l[k]? = some x ∧ y = if k' = k then f x else x := by
  rw [List.getElem?_modify, Option.map_eq_map, Option.map_eq_some_iff] at h
  obtain ⟨x, hx, rfl⟩ := h
  exact ⟨x, hx, rfl⟩

/-- Marking one element moves a count by what it does to that element. -/
theorem countP_modify (p : α → Bool) (f : α → α) {l : List α} {k : Nat} {x : α} (h : l[k]? = some x) :
    (l.modify k f).countP p + (if p x then 1 else 0) = l.countP p + if p (f x) then 1 else 0 := by
  induction l generalizing k with
  | nil => simp at h
  | cons a l ih =>
    cases k with
    | zero =>
      obtain rfl : a = x := by simpa using h
      rw [List.modify_zero_cons, List.countP_cons, List.countP_cons]
      omega
    | succ k =>
      have hrest := ih (k := k) (by simpa using h)
      rw [List.modify_succ_cons, List.countP_cons, List.countP_cons]
      omega

theorem countP_eraseIdx (p : α → Bool) {l : List α} {k : Nat} {x : α} (h : l[k]? = some x) :
    (l.eraseIdx k).countP p + (if p x then 1 else 0) = l.countP p := by
  obtain ⟨hlt, rfl⟩ := List.getElem?_eq_some_iff.mp h
  rw [← List.countP_cons]
  exact (List.getElem_cons_eraseIdx_perm hlt).countP_eq p

theorem map_modify_of_eq {β : Type u} {g : α → β} {f : α → α} (hf : ∀ x, g (f x) = g x) (l : List α)
    (k : Nat) : (l.modify k f).map g = l.map g := by
  refine List.ext_getElem? ?_
  intro j
  rw [List.getElem?_map, List.getElem?_map, List.getElem?_modify]
  cases l[j]? with
  | none => rfl
  | some x =>
    show some (g (if k = j then f x else x)) = some (g x)
    split
    · rw [hf x]
    · rfl

/-- Marking what the filter and the map do not see changes neither. -/
theorem map_filter_modify {β : Type u} {g : α → β} {p : α → Bool} {f : α → α} {l : List α} {k : Nat}
    (h : ∀ x, l[k]? = some x → p (f x) = p x ∧ g (f x) = g x) :
    ((l.modify k f).filter p).map g = (l.filter p).map g := by
  induction l generalizing k with
  | nil => simp
  | cons a l ih =>
    cases k with
    | zero =>
      obtain ⟨hp, hg⟩ := h a rfl
      rw [List.modify_zero_cons, List.filter_cons, List.filter_cons, hp]
      split
      · rw [List.map_cons, List.map_cons, hg]
      · rfl
    | succ k =>
      have hrest := ih (k := k) fun x hx => h x (by simpa using hx)
      rw [List.modify_succ_cons, List.filter_cons, List.filter_cons]
      split
      · rw [List.map_cons, List.map_cons, hrest]
      · exact hrest

/-- An element marked so that it no longer passes is dropped from those that do. -/
theorem exists_eraseIdx_filter_modify {p : α → Bool} {f : α → α} {l : List α} {k : Nat} {x : α}
    (h : l[k]? = some x) (hx : p x = true) (hfx : p (f x) = false) :
    ∃ j, (l.filter p)[j]? = some x ∧ (l.modify k f).filter p = (l.filter p).eraseIdx j := by
  induction l generalizing k with
  | nil => simp at h
  | cons a l ih =>
    cases k with
    | zero =>
      obtain rfl : a = x := by simpa using h
      refine ⟨0, ?_, ?_⟩
      · rw [List.filter_cons_of_pos hx, List.getElem?_cons_zero]
      · rw [List.modify_zero_cons, List.filter_cons_of_pos hx,
          List.filter_cons_of_neg (by rw [hfx]; exact Bool.false_ne_true), List.eraseIdx_cons_zero]
    | succ k =>
      obtain ⟨j, hj, hrest⟩ := ih (k := k) (by simpa using h)
      rw [List.modify_succ_cons]
      by_cases ha : p a = true
      · refine ⟨j + 1, ?_, ?_⟩
        · rw [List.filter_cons_of_pos ha, List.getElem?_cons_succ, hj]
        · rw [List.filter_cons_of_pos ha, List.filter_cons_of_pos ha, hrest, List.eraseIdx_cons_succ]
      · refine ⟨j, ?_, ?_⟩
        · rw [List.filter_cons_of_neg ha, hj]
        · rw [List.filter_cons_of_neg ha, List.filter_cons_of_neg ha, hrest]

/-- Where `q` is counted as often as the weaker `p`, the two hold of the same elements. -/
theorem forall_of_countP_le {p q : α → Bool} (hqp : ∀ x, q x = true → p x = true) {l : List α}
    (h : l.countP p ≤ l.countP q) : ∀ x ∈ l, p x = true → q x = true := by
  induction l with
  | nil => exact fun x hx => absurd hx List.not_mem_nil
  | cons a l ih =>
    have hle : l.countP q ≤ l.countP p := List.countP_mono_left fun x _ => hqp x
    rw [List.countP_cons, List.countP_cons] at h
    have hhead : p a = true → q a = true := by
      intro hp
      by_contra hq
      rw [if_pos hp, if_neg hq] at h
      omega
    have hrest : l.countP p ≤ l.countP q := by
      by_cases hp : p a = true
      · rw [if_pos hp, if_pos (hhead hp)] at h
        omega
      · rw [if_neg hp, if_neg fun hq => hp (hqp a hq)] at h
        omega
    intro x hx hp
    rcases List.mem_cons.mp hx with rfl | hmem
    · exact hhead hp
    · exact ih hrest x hmem hp

end MultiPaxosDB.Lib
