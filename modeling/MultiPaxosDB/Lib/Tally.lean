/-
# MultiPaxosDB.Lib.Tally — counting votes until a threshold is met.

Votes for and against are counted one at a time, and the count is over with the first vote that brings one side to
the threshold.  Whether it ends at all depends on the totals only, not on the order (`tally_eq_none_iff`).
-/
import Mathlib.Data.List.Count

namespace MultiPaxosDB.Lib

/-- What the two counts decide; the votes for come first. -/
def verdict (threshold yes no : Nat) : Option Bool :=
  if threshold ≤ yes then some true
  else if threshold ≤ no then some false
  else none

theorem verdict_eq_none_iff {threshold yes no : Nat} :
    verdict threshold yes no = none ↔ yes < threshold ∧ no < threshold := by
  unfold verdict
  split_ifs <;> simp <;> omega

/-- The counts after one more vote. -/
def countVote (vote : Bool) (yes no : Nat) : Nat × Nat := if vote then (yes + 1, no) else (yes, no + 1)

/-- The verdict of the first vote that has one. -/
def tally (threshold : Nat) : Nat → Nat → List Bool → Option Bool
  | _, _, [] => none
  | yes, no, vote :: votes =>
    let counts := countVote vote yes no
    (verdict threshold counts.1 counts.2).or (tally threshold counts.1 counts.2 votes)

/-- **A count is not over** exactly if neither total has met the threshold. -/
theorem tally_eq_none_iff {threshold : Nat} (votes : List Bool) :
    ∀ {yes no : Nat}, yes < threshold → no < threshold → (tally threshold yes no votes = none ↔
      yes + votes.count true < threshold ∧ no + votes.count false < threshold) := by
  induction votes with
  | nil =>
    intro yes no hyes hno
    simp [tally, hyes, hno]
  | cons vote votes ih =>
    intro yes no hyes hno
    rw [tally, Option.or_eq_none_iff, verdict_eq_none_iff]
    have hnext : ∀ {a b : Nat}, (a < threshold ∧ b < threshold) ∧ tally threshold a b votes = none ↔
        a + votes.count true < threshold ∧ b + votes.count false < threshold := by
      intro a b
      constructor
      · rintro ⟨⟨ha, hb⟩, hrest⟩
        exact (ih ha hb).mp hrest
      · rintro ⟨ha, hb⟩
        have ha' : a < threshold := by omega
        have hb' : b < threshold := by omega
        exact ⟨⟨ha', hb'⟩, (ih ha' hb').mpr ⟨ha, hb⟩⟩
    rw [hnext]
    cases vote with
    | true =>
      rw [List.count_cons_self, List.count_cons_of_ne (by decide)]
      simp only [countVote, if_true]
      omega
    | false =>
      rw [List.count_cons_self, List.count_cons_of_ne (by decide)]
      simp only [countVote, Bool.false_eq_true, if_false]
      omega

end MultiPaxosDB.Lib
