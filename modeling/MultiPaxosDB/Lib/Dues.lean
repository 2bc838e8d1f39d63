/-
# MultiPaxosDB.Lib.Dues — what is still to be paid, account by account.

A finite set of dues: each due `r` has a payer and an amount.  `due O a` is what the account `a` still
has to pay for the dues of `O`.  The lemmas say how it moves when a due is added, paid or dropped, for
amounts that are not negative.
-/
import Mathlib.Algebra.BigOperators.Group.Finset.Basic
import Mathlib.Algebra.Order.BigOperators.Group.Finset
import Mathlib.Algebra.Order.Group.Int

namespace MultiPaxosDB.Lib

section Dues

variable {R A : Type} [DecidableEq A] (payer : R → A) (amount : R → Int)

/-- What `a` has to pay for the dues of `O`. -/
def due (O : Finset R) (a : A) : Int := ∑ r ∈ O with payer r = a, amount r

variable {payer amount} {O O' : Finset R} {r : R} {a : A}

theorem due_mono (hsub : O' ⊆ O) (hnonneg : ∀ r ∈ O, 0 ≤ amount r) :
    due payer amount O' a ≤ due payer amount O a := by
  refine Finset.sum_le_sum_of_subset_of_nonneg (Finset.filter_subset_filter _ hsub) ?_
  intro r hr _
  exact hnonneg r (Finset.mem_of_mem_filter r hr)

theorem due_nonneg (hnonneg : ∀ r ∈ O, 0 ≤ amount r) : 0 ≤ due payer amount O a := by
  refine Finset.sum_nonneg ?_
  intro r hr
  exact hnonneg r (Finset.mem_of_mem_filter r hr)

/-- An account that pays for none of the dues owes nothing. -/
theorem due_eq_zero (h : ∀ r ∈ O, payer r ≠ a) : due payer amount O a = 0 := by
  rw [due, Finset.filter_false_of_mem h, Finset.sum_empty]

variable [DecidableEq R]

/-- A due that is paid is taken off its payer. -/
theorem due_erase (hr : r ∈ O) : due payer amount (O.erase r) a =
    due payer amount O a - if payer r = a then amount r else 0 := by
  rw [due, due, Finset.filter_erase]
  split
  · rename_i hpayer
    rw [Finset.sum_erase_eq_sub (Finset.mem_filter.mpr ⟨hr, hpayer⟩)]
  · rename_i hpayer
    rw [Finset.erase_eq_of_notMem (by simp [hpayer]), sub_zero]

/-- A further due costs its payer at most its amount. -/
theorem due_insert_le (hr : 0 ≤ amount r) : due payer amount (insert r O) a ≤
    due payer amount O a + if payer r = a then amount r else 0 := by
  by_cases hmem : r ∈ O
  · rw [Finset.insert_eq_of_mem hmem]
    split
    · omega
    · omega
  · have hrest : (insert r O).erase r = O := Finset.erase_insert hmem
    have hpaid : due payer amount ((insert r O).erase r) a = due payer amount (insert r O) a -
        if payer r = a then amount r else 0 := due_erase (Finset.mem_insert_self r O)
    rw [hrest] at hpaid
    omega

end Dues

end MultiPaxosDB.Lib
