/-
# MultiPaxosDB.Lib.Greedy — choosing from a list, front to back.

A loop that walks a list and keeps an item when the items kept so far allow it makes a *greedy*
choice.  `Greedy ok xs K` says that the set of positions `K` is that choice: position `i` is in it
exactly when `ok` holds of the items kept before `i` and the item at `i`.  What the loop keeps and
what it turns away are then `pick (· ∈ K) xs` and `pick (· ∉ K) xs`, both in the order of the list.

A loop is shown to be greedy by one of two steps per item, `Greedy.keep` and `Greedy.skip`.
-/
import Mathlib.Data.Finset.Insert
import Mathlib.Data.List.Basic

namespace MultiPaxosDB.Lib

variable {α : Type} {xs : List α} {x : α}

/-- The items of `xs` at the positions that satisfy `p`, in order. -/
def pick (p : ℕ → Prop) [DecidablePred p] (xs : List α) : List α :=
  (xs.zipIdx.filter fun y => decide (p y.2)).map Prod.fst

section Pick

variable (p : ℕ → Prop) [DecidablePred p]

theorem pick_snoc (xs : List α) (x : α) :
    pick p (xs ++ [x]) = pick p xs ++ if p xs.length then [x] else [] := by
  simp only [pick, List.zipIdx_append, List.filter_append, List.map_append, List.zipIdx_singleton,
    Nat.zero_add]
  congr 1
  by_cases hp : p xs.length
  · simp [hp]
  · simp [hp]

theorem mem_pick : x ∈ pick p xs ↔ ∃ i, p i ∧ xs[i]? = some x := by
  simp only [pick, List.mem_map, List.mem_filter, List.mem_zipIdx_iff_getElem?, decide_eq_true_eq,
    Prod.exists, exists_and_right, exists_eq_right]
  constructor
  · rintro ⟨i, hx, hi⟩
    exact ⟨i, hi, hx⟩
  · rintro ⟨i, hi, hx⟩
    exact ⟨i, hx, hi⟩

theorem pick_sublist (xs : List α) : (pick p xs).Sublist xs := by
  have h : (xs.zipIdx.filter fun y => decide (p y.2)).map Prod.fst |>.Sublist (xs.zipIdx.map Prod.fst) :=
    List.filter_sublist.map Prod.fst
  rwa [List.zipIdx_map_fst] at h

end Pick

theorem pick_congr {p q : ℕ → Prop} [DecidablePred p] [DecidablePred q]
    (h : ∀ i < xs.length, p i ↔ q i) : pick p xs = pick q xs := by
  unfold pick
  congr 1
  refine List.filter_congr ?_
  rintro ⟨x, i⟩ hmem
  obtain ⟨hlt, -⟩ := List.getElem?_eq_some_iff.mp (List.mem_zipIdx_iff_getElem?.mp hmem)
  simp only [h i hlt]

/-- `K` is the greedy choice of positions from `xs`. -/
structure Greedy (ok : List α → α → Prop) (xs : List α) (K : Finset ℕ) : Prop where
  bound : ∀ i ∈ K, i < xs.length
  exact : ∀ i x, xs[i]? = some x → (i ∈ K ↔ ok (pick (· ∈ K) (xs.take i)) x)

namespace Greedy

variable {ok : List α → α → Prop} {K : Finset ℕ}

theorem nil : Greedy ok [] ∅ where
  bound := by intro i hi; exact absurd hi (Finset.notMem_empty i)
  exact := by intro i x hx; cases hx

/-- Positions beyond the end of the list choose nothing from it. -/
private theorem pick_take_insert (n i : ℕ) (hi : i ≤ n) (xs : List α) (K : Finset ℕ) :
    pick (· ∈ insert n K) (xs.take i) = pick (· ∈ K) (xs.take i) := by
  refine pick_congr ?_
  intro j hj
  have hlt : j < n := lt_of_lt_of_le (lt_of_lt_of_le hj (List.length_take_le i xs)) hi
  rw [Finset.mem_insert, or_iff_right (Nat.ne_of_lt hlt)]

theorem keep (h : Greedy ok xs K) (hok : ok (pick (· ∈ K) xs) x) :
    Greedy ok (xs ++ [x]) (insert xs.length K) where
  bound := by
    intro i hi
    rw [List.length_append, List.length_singleton]
    rcases Finset.mem_insert.mp hi with rfl | hi
    · exact Nat.lt_succ_self _
    · exact Nat.lt_succ_of_lt (h.bound i hi)
  exact := by
    intro i y hy
    have hlt : i < (xs ++ [x]).length := (List.getElem?_eq_some_iff.mp hy).1
    rw [List.length_append, List.length_singleton] at hlt
    rw [pick_take_insert _ _ (Nat.le_of_lt_succ hlt), Finset.mem_insert]
    by_cases heq : i = xs.length
    · subst heq
      rw [List.getElem?_append_right le_rfl, Nat.sub_self] at hy
      cases hy
      rw [List.take_left' rfl]
      exact ⟨fun _ => hok, fun _ => .inl rfl⟩
    · have hi : i < xs.length := by omega
      rw [or_iff_right heq, List.take_append_of_le_length hi.le]
      rw [List.getElem?_append_left hi] at hy
      exact h.exact i y hy

theorem skip (h : Greedy ok xs K) (hok : ¬ ok (pick (· ∈ K) xs) x) : Greedy ok (xs ++ [x]) K where
  bound := by
    intro i hi
    rw [List.length_append, List.length_singleton]
    exact Nat.lt_succ_of_lt (h.bound i hi)
  exact := by
    intro i y hy
    have hlt : i < (xs ++ [x]).length := (List.getElem?_eq_some_iff.mp hy).1
    rw [List.length_append, List.length_singleton] at hlt
    by_cases heq : i = xs.length
    · subst heq
      rw [List.getElem?_append_right le_rfl, Nat.sub_self] at hy
      cases hy
      rw [List.take_left' rfl]
      exact ⟨fun hi => absurd (h.bound _ hi) (lt_irrefl _), fun hx => absurd hx hok⟩
    · have hi : i < xs.length := by omega
      rw [List.take_append_of_le_length hi.le]
      rw [List.getElem?_append_left hi] at hy
      exact h.exact i y hy

/-- After a kept item the chosen items are those before, and it. -/
theorem pick_keep (xs : List α) (x : α) (K : Finset ℕ) :
    pick (· ∈ insert xs.length K) (xs ++ [x]) = pick (· ∈ K) xs ++ [x] ∧
      pick (· ∉ insert xs.length K) (xs ++ [x]) = pick (· ∉ K) xs := by
  have hbelow : ∀ i < xs.length, i ∈ insert xs.length K ↔ i ∈ K := by
    intro i hi
    rw [Finset.mem_insert, or_iff_right (Nat.ne_of_lt hi)]
  constructor
  · rw [pick_snoc, if_pos (Finset.mem_insert_self _ _), pick_congr hbelow]
  · rw [pick_snoc, if_neg (not_not_intro (Finset.mem_insert_self _ _)), List.append_nil]
    exact pick_congr fun i hi => not_congr (hbelow i hi)

/-- After an item that is turned away the chosen items are those before. -/
theorem pick_skip (h : Greedy ok xs K) :
    pick (· ∈ K) (xs ++ [x]) = pick (· ∈ K) xs ∧
      pick (· ∉ K) (xs ++ [x]) = pick (· ∉ K) xs ++ [x] := by
  have hend : xs.length ∉ K := fun hmem => absurd (h.bound _ hmem) (lt_irrefl _)
  constructor
  · rw [pick_snoc, if_neg hend, List.append_nil]
  · rw [pick_snoc, if_pos hend]

/-- The items kept before position `i`. -/
theorem mem_pick_take {i : ℕ} {y : α} :
    y ∈ pick (· ∈ K) (xs.take i) ↔ ∃ j < i, j ∈ K ∧ xs[j]? = some y := by
  rw [mem_pick]
  constructor
  · rintro ⟨j, hj, hy⟩
    rw [List.getElem?_take] at hy
    split at hy
    · exact ⟨j, ‹_›, hj, hy⟩
    · cases hy
  · rintro ⟨j, hlt, hj, hy⟩
    exact ⟨j, hj, by rw [List.getElem?_take, if_pos hlt]; exact hy⟩

end Greedy

end MultiPaxosDB.Lib
