/-
# MultiPaxosDB.Lib.Bank — an atomic bank.

Accounts of any type, balances in any ordered group.  A payment is one step: it goes through if the source
holds the amount, and moves it to the target.  `replay` makes the payments of a list one after the other and
fails at the first that is not covered, so `replay ps b = some b'` says at once that the list is a possible
history of the bank and where it ends.

A history ends in the sum of its effects (`replay_eq_some`).  Covered payments between disjoint accounts can be
made in any order, in particular in this one (`exists_replay_of_apart`).  Where no amount is negative, no account
ever holds more than all of them held together (`replay_bounds`).
-/
import Mathlib.Algebra.BigOperators.Group.List.Basic
import Mathlib.Algebra.Group.Basic
import Mathlib.Algebra.BigOperators.Group.Finset.Piecewise
import Mathlib.Algebra.Order.BigOperators.Group.Finset
import Mathlib.Data.List.Pairwise
import Mathlib.Tactic.Common

namespace MultiPaxosDB.Lib

universe u v

structure Payment (α : Type u) (M : Type v) where
  source : α
  target : α
  amount : M

namespace Payment

variable {α : Type u} {M : Type v}

/-- The account is one of the two of the payment. -/
def Touches (p : Payment α M) (a : α) : Prop := a = p.source ∨ a = p.target

/-- The two payments have no account in common. -/
def Apart (p q : Payment α M) : Prop := ∀ a, p.Touches a → ¬ q.Touches a

variable [DecidableEq α] [AddCommGroup M]

/-- What a payment does to an account. -/
def effect (p : Payment α M) (a : α) : M :=
  (if p.target = a then p.amount else 0) - if p.source = a then p.amount else 0

theorem effect_of_not_touches {p : Payment α M} {a : α} (h : ¬ p.Touches a) : p.effect a = 0 := by
  rw [Touches, not_or] at h
  rw [effect, if_neg (Ne.symm h.2), if_neg (Ne.symm h.1), sub_zero]

variable [LE M] [DecidableLE M]

/-- The payments, one after the other; `none` if one of them is not covered when its turn comes. -/
def replay : List (Payment α M) → (α → M) → Option (α → M)
  | [], b => some b
  | p :: ps, b => if p.amount ≤ b p.source then replay ps fun a => b a + p.effect a else none

theorem replay_append (ps qs : List (Payment α M)) (b : α → M) :
    replay (ps ++ qs) b = (replay ps b).bind (replay qs) := by
  induction ps generalizing b with
  | nil => rfl
  | cons p ps ih =>
    simp only [List.cons_append, replay]
    split
    · exact ih _
    · rfl

/-- The bank after a history. -/
theorem replay_eq_some {ps : List (Payment α M)} {b b' : α → M} (h : replay ps b = some b') (a : α) :
    b' a = b a + (ps.map fun p => p.effect a).sum := by
  induction ps generalizing b with
  | nil =>
    cases h
    simp
  | cons p ps ih =>
    rw [replay] at h
    split at h
    · rw [ih h, List.map_cons, List.sum_cons, add_assoc]
    · cases h

/-- Payments that are covered at the start stay covered while others are made between other accounts. -/
theorem exists_replay_of_apart {ps : List (Payment α M)} {b : α → M} (hapart : ps.Pairwise Apart)
    (hcovered : ∀ p ∈ ps, p.amount ≤ b p.source) : ∃ b', replay ps b = some b' := by
  induction ps generalizing b with
  | nil => exact ⟨b, rfl⟩
  | cons p ps ih =>
    obtain ⟨hfirst, hrest⟩ := List.pairwise_cons.mp hapart
    rw [replay, if_pos (hcovered p List.mem_cons_self)]
    refine ih hrest ?_
    intro q hq
    have hnot : ¬ p.Touches q.source := fun htouch => hfirst q hq _ htouch (.inl rfl)
    rw [effect_of_not_touches hnot, add_zero]
    exact hcovered q (List.mem_cons_of_mem p hq)

end Payment

namespace Payment

variable {α : Type u} {M : Type v} [DecidableEq α] [AddCommGroup M]

/-- A payment between accounts of `A` moves nothing out of `A`. -/
theorem sum_effect (p : Payment α M) {A : Finset α} (hsource : p.source ∈ A) (htarget : p.target ∈ A) :
    ∑ a ∈ A, p.effect a = 0 := by
  simp only [effect, Finset.sum_sub_distrib, Finset.sum_ite_eq, hsource, htarget, if_true, sub_self]

variable [PartialOrder M] [IsOrderedAddMonoid M]

theorem effect_nonneg {p : Payment α M} (hamount : 0 ≤ p.amount) {b : α → M} (hcovered : p.amount ≤ b p.source)
    {a : α} (ha : 0 ≤ b a) : 0 ≤ b a + p.effect a := by
  unfold effect
  by_cases hs : p.source = a
  · subst hs
    rw [if_pos rfl, add_sub_left_comm]
    refine add_nonneg ?_ (sub_nonneg.mpr hcovered)
    split
    · exact hamount
    · exact le_rfl
  · rw [if_neg hs, sub_zero]
    refine add_nonneg ha ?_
    split
    · exact hamount
    · exact le_rfl

/-- Payments of amounts that are not negative, between accounts of `A`: what is in an account is a part of what was
in `A` at the start. -/
theorem replay_bounds [DecidableLE M] {A : Finset α} {ps : List (Payment α M)} {b b' : α → M} (h : replay ps b = some b')
    (hinside : ∀ p ∈ ps, p.source ∈ A ∧ p.target ∈ A) (hamounts : ∀ p ∈ ps, 0 ≤ p.amount)
    (hstart : ∀ a ∈ A, 0 ≤ b a) {a : α} (ha : a ∈ A) : 0 ≤ b' a ∧ b' a ≤ ∑ x ∈ A, b x := by
  induction ps generalizing b with
  | nil =>
    cases h
    exact ⟨hstart a ha, Finset.single_le_sum hstart ha⟩
  | cons p ps ih =>
    rw [replay] at h
    split at h
    · rename_i hcovered
      obtain ⟨hsource, htarget⟩ := hinside p List.mem_cons_self
      have hsum : ∑ x ∈ A, (b x + p.effect x) = ∑ x ∈ A, b x := by
        rw [Finset.sum_add_distrib, p.sum_effect hsource htarget, add_zero]
      rw [← hsum]
      refine ih h (fun q hq => hinside q (List.mem_cons_of_mem p hq))
        (fun q hq => hamounts q (List.mem_cons_of_mem p hq)) ?_
      intro x hx
      exact effect_nonneg (hamounts p List.mem_cons_self) hcovered (hstart x hx)
    · cases h

end Payment

end MultiPaxosDB.Lib
