/-
# MultiPaxosDB.Lib.PrefixChain — families of lists that are prefixes of one another.

Replicas that append to their own copy of one sequence agree as long as the copies are prefixes of one
another.  The two rules below say when a copy may grow: up to a prefix of another copy (a follower), or
beyond all of them if it is the longest (a leader).
-/
import Mathlib.Data.List.Infix
import Mathlib.Logic.Function.Basic

namespace MultiPaxosDB.Lib

universe u v

variable {ι : Type u} {α : Type v}

/-- Any two lists of the family, at indices in `S`, are prefix and extension of one another. -/
def PrefixChain (S : ι → Prop) (f : ι → List α) : Prop :=
  ∀ i j, S i → S j → f i <+: f j ∨ f j <+: f i

namespace PrefixChain

variable {S : ι → Prop} {f : ι → List α}

/-- Where both lists have an element, it is the same. -/
theorem getElem?_eq (h : PrefixChain S f) {i j : ι} (hi : S i) (hj : S j) {k : Nat} {x y : α}
    (hx : (f i)[k]? = some x) (hy : (f j)[k]? = some y) : x = y := by
  have hext : ∀ {xs ys : List α}, xs <+: ys → ∀ {a}, xs[k]? = some a → ys[k]? = some a := by
    rintro xs ys ⟨zs, rfl⟩ a ha
    rw [List.getElem?_append_left (List.getElem?_eq_some_iff.mp ha).1]
    exact ha
  rcases h i j hi hj with hij | hji
  · exact Option.some.inj ((hext hij hx).symm.trans hy)
  · exact Option.some.inj (hx.symm.trans (hext hji hy))

/-- Of two lists the one that is not longer is a prefix of the other. -/
theorem le_of_length (h : PrefixChain S f) {i j : ι} (hi : S i) (hj : S j)
    (hle : (f i).length ≤ (f j).length) : f i <+: f j := by
  rcases h i j hi hj with hij | hji
  · exact hij
  · rw [hji.eq_of_length_le hle]

variable [DecidableEq ι]

/-- One list is replaced; it remains to compare it with the others. -/
theorem update (h : PrefixChain S f) {i : ι} {xs : List α}
    (hxs : S i → ∀ j, S j → j ≠ i → xs <+: f j ∨ f j <+: xs) : PrefixChain S (Function.update f i xs) := by
  intro j k hj hk
  by_cases hji : j = i
  · subst hji
    rw [Function.update_self]
    by_cases hkj : k = j
    · rw [hkj, Function.update_self]
      exact .inl (List.prefix_refl _)
    · rw [Function.update_of_ne hkj]
      exact hxs hj k hk hkj
  · rw [Function.update_of_ne hji]
    by_cases hki : k = i
    · subst hki
      rw [Function.update_self]
      exact (hxs hk j hj hji).symm
    · rw [Function.update_of_ne hki]
      exact h j k hj hk

/-- **The follower's rule**: a list may become any prefix of a list of the family. -/
theorem update_follower (h : PrefixChain S f) {i j : ι} (hj : S i → S j) {xs : List α}
    (hxs : xs <+: f j) : PrefixChain S (Function.update f i xs) := by
  refine h.update ?_
  intro hi k hk _
  rcases h j k (hj hi) hk with hjk | hkj
  · exact .inl (hxs.trans hjk)
  · exact List.prefix_or_prefix_of_prefix hxs hkj

/-- **The leader's rule**: a list that is not shorter than the others may grow by anything. -/
theorem update_leader (h : PrefixChain S f) {i : ι}
    (hlong : S i → ∀ j, S j → j ≠ i → (f j).length ≤ (f i).length) {xs : List α} (hxs : f i <+: xs) :
    PrefixChain S (Function.update f i xs) := by
  refine h.update ?_
  intro hi j hj hji
  exact .inr ((h.le_of_length hj hi (hlong hi j hj hji)).trans hxs)

end PrefixChain

end MultiPaxosDB.Lib
