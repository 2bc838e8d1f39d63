/-
# MultiPaxosDB.Lib.Quorum — voting once per number.

Ballots carry a number.  If no voter votes for two ballots of one number, two ballots that were each
voted for by enough of one electorate — so many that the two groups cannot be disjoint — and have the
same number are the same ballot.
-/
import Mathlib.Data.Finset.Card

namespace MultiPaxosDB.Lib

variable {V B N : Type} [DecidableEq V]

/-- Every voter votes for at most one ballot of each number. -/
def VotesOnce (voted : V → B → Prop) (num : B → N) : Prop :=
  ∀ v b b', voted v b → voted v b' → num b = num b' → b = b'

/-- **Two quorums of one electorate choose one ballot of a number.** -/
theorem VotesOnce.eq_of_quorums {voted : V → B → Prop} {num : B → N} (h : VotesOnce voted num)
    (members q q' : Finset V) (hq : q ⊆ members) (hq' : q' ⊆ members)
    (hcard : members.card < q.card + q'.card) {b b' : B} (hb : ∀ v ∈ q, voted v b)
    (hb' : ∀ v ∈ q', voted v b') (hnum : num b = num b') : b = b' := by
  obtain ⟨v, hv⟩ := Finset.inter_nonempty_of_card_lt_card_add_card hq hq' hcard
  rw [Finset.mem_inter] at hv
  exact h v b b' (hb v hv.1) (hb' v hv.2) hnum

end MultiPaxosDB.Lib
