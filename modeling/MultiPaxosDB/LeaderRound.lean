/-
# MultiPaxosDB.LeaderRound — one round of a leader, from its start to `finishRound`.

A round moves only when a reply is counted.  `turn` says what a reply decides, if anything — a prepare quorum, an
accept quorum, or that the round has failed — and `handle_turned` what each of these does to the server; the two
results below see a round as a run of events between its start and the turn that ends it.

What a failed round leaves in the agreed sequence (`failed_round_iff`): `onPrepareQuorum` logs and counts a
cross-shard entry as soon as it is validated, and `onRoundAbort` takes nothing back.  So a round that fails in its
accept phase has added exactly the prepares it kept.

What a round leaves in `locks` (`round_end_releases`): the intra-shard entries are released at the end, provided
they are still in the batch.  A sync reply that comes in the accept phase sends the batch through validation once
more, where each entry meets the lock it took itself and is turned away with the lock still held
(`lock_left_after_second_validation`).
-/
import MultiPaxosDB.Calls
import MultiPaxosDB.History
import MultiPaxosDB.Lib.Brackets
import MultiPaxosDB.Recovery
import MultiPaxosDB.Validation

namespace MultiPaxosDB

open Lib

/-! ## The turns of a round -/

/-- What a counted reply decides: `onPrepareQuorum`, `onAcceptQuorum` or `onRoundAbort(prepare_phase)` runs. -/
inductive RoundTurn
  | prepareQuorum
  | acceptQuorum
  | abort (preparePhase : Bool)
deriving DecidableEq, Repr

namespace ServerImpl

/-- The comparison at the end of `handlePrepareReply`. -/
def prepareTurn (successes failures : Nat) : Option RoundTurn :=
  if majority ≤ successes then some .prepareQuorum
  else if majority ≤ failures then some (.abort true)
  else none

/-- The comparison at the end of `handleAcceptReply`. -/
def acceptTurn (successes failures : Nat) : Option RoundTurn :=
  if majority ≤ successes then some .acceptQuorum
  else if majority ≤ failures then some (.abort false)
  else none

/-- The reply sends the leader back: to a higher ballot number, or to a sync. -/
def sendsBack (s : ServerImpl) (response : PrepareRes) : Bool :=
  response.latestBallotNum.isSome || response.paxosIndex.any fun index => decide (index > s.ledger.paxosIndex)

/-- What an event decides about the round, if anything. -/
def turn (s : ServerImpl) : Event → Option RoundTurn
  | .prepareReply status request response =>
    if !s.awaitPrepareDecision then none
    else if status = .deadlineExceeded && s.answersPrepare request.ballot then
      prepareTurn s.prepareSuccesses (s.prepareFailures + 1)
    else if status = .ok && s.answersPrepare response.ballot then
      if s.sendsBack response then none
      else if response.ack then prepareTurn (s.prepareSuccesses + 1) s.prepareFailures
      else prepareTurn s.prepareSuccesses (s.prepareFailures + 1)
    else prepareTurn s.prepareSuccesses s.prepareFailures
  | .acceptReply status request response =>
    if !s.awaitAcceptDecision then none
    else if status = .deadlineExceeded && s.answersAccept request.ballot then
      acceptTurn s.acceptSuccesses (s.acceptFailures + 1)
    else if status = .ok && s.answersAccept response.ballot then
      if response.ack then acceptTurn (s.acceptSuccesses + 1) s.acceptFailures
      else acceptTurn s.acceptSuccesses (s.acceptFailures + 1)
    else acceptTurn s.acceptSuccesses s.acceptFailures
  | _ => none

end ServerImpl

/-- The reply to a prepare or an accept call. -/
def Event.isVote : Event → Bool
  | .prepareReply _ _ _ => true
  | .acceptReply _ _ _ => true
  | _ => false

namespace ServerImpl

/-- What the event does to the server, by what it decides about the round. -/
inductive Turned (s : ServerImpl) : Event → Option RoundTurn → ServerImpl → Prop
  | ignored {e} : e.isVote = true → Turned s e none s
  | retried {e} (a b : Nat) (latest : Int) : s.awaitPrepareDecision = true →
      Turned s e none (reissuePrepareForCurrent (persistBallotNum { s.setPrepareCounts a b with ballotNum := latest }))
  | lagging {e} (a b : Nat) (dst : Int) : s.awaitPrepareDecision = true →
      Turned s e none (sendSync { s.setPrepareCounts a b with inSync := true, awaitPrepareDecision := false } dst)
  | countedPrepare {e} (a b : Nat) : s.awaitPrepareDecision = true → Turned s e none (s.setPrepareCounts a b)
  | prepareQuorum {e} (a b : Nat) : s.awaitPrepareDecision = true →
      Turned s e (some .prepareQuorum) (s.setPrepareCounts a b).onPrepareQuorum
  | abortPrepare {e} (a b : Nat) : s.awaitPrepareDecision = true →
      Turned s e (some (.abort true)) ((s.setPrepareCounts a b).onRoundAbort true)
  | countedAccept {e} (a b : Nat) : s.awaitAcceptDecision = true → Turned s e none (s.setAcceptCounts a b)
  | acceptQuorum {e} (a b : Nat) : s.awaitAcceptDecision = true →
      Turned s e (some .acceptQuorum) (s.setAcceptCounts a b).onAcceptQuorum
  | abortAccept {e} (a b : Nat) : s.awaitAcceptDecision = true →
      Turned s e (some (.abort false)) ((s.setAcceptCounts a b).onRoundAbort false)
  | other {e u} : e.isVote = false → s.dispatch e = u → Turned s e none u

variable {s : ServerImpl} {e : Event}

theorem turned_decidePrepare (a b : Nat) (hawait : s.awaitPrepareDecision = true) :
    Turned s e (prepareTurn a b) (s.setPrepareCounts a b).decidePrepare := by
  unfold prepareTurn decidePrepare
  show Turned s e _ (if majority ≤ a then _ else if majority ≤ b then _ else _)
  by_cases ha : majority ≤ a
  · rw [if_pos ha, if_pos ha]
    exact .prepareQuorum a b hawait
  · rw [if_neg ha, if_neg ha]
    by_cases hb : majority ≤ b
    · rw [if_pos hb, if_pos hb]
      exact .abortPrepare a b hawait
    · rw [if_neg hb, if_neg hb]
      exact .countedPrepare a b hawait

theorem turned_decideAccept (a b : Nat) (hawait : s.awaitAcceptDecision = true) :
    Turned s e (acceptTurn a b) (s.setAcceptCounts a b).decideAccept := by
  unfold acceptTurn decideAccept
  show Turned s e _ (if majority ≤ a then _ else if majority ≤ b then _ else _)
  by_cases ha : majority ≤ a
  · rw [if_pos ha, if_pos ha]
    exact .acceptQuorum a b hawait
  · rw [if_neg ha, if_neg ha]
    by_cases hb : majority ≤ b
    · rw [if_pos hb, if_pos hb]
      exact .abortAccept a b hawait
    · rw [if_neg hb, if_neg hb]
      exact .countedAccept a b hawait

/-- An answer to the current ballot either sends the leader back or is put to the comparison. -/
theorem turned_countPrepare (response : PrepareRes) (a b : Nat) (hawait : s.awaitPrepareDecision = true)
    (hcounted : (if response.ack then { s with prepareSuccesses := s.prepareSuccesses + 1 }
      else { s with prepareFailures := s.prepareFailures + 1 }) = s.setPrepareCounts a b) :
    Turned s e (if s.sendsBack response then none else prepareTurn a b) (s.countPrepare response) := by
  unfold countPrepare sendsBack
  dsimp only
  rw [hcounted]
  cases hlatest : response.latestBallotNum with
  | some latest =>
    simp only [Option.isSome_some, Bool.true_or, if_true]
    exact .retried a b latest hawait
  | none =>
    cases hindex : response.paxosIndex with
    | none =>
      simp only [Option.isSome_none, Option.any_none, Bool.or_self, Bool.false_eq_true, if_false]
      exact turned_decidePrepare a b hawait
    | some index =>
      simp only [Option.isSome_none, Option.any_some, Bool.false_or, decide_eq_true_eq]
      have hledger : (s.setPrepareCounts a b).ledger = s.ledger := rfl
      rw [hledger]
      by_cases hgt : index > s.ledger.paxosIndex
      · rw [if_pos hgt, if_pos hgt]
        exact .lagging a b _ hawait
      · rw [if_neg hgt, if_neg hgt]
        exact turned_decidePrepare a b hawait

theorem dispatch_turned (s : ServerImpl) (e : Event) : Turned s e (s.turn e) (s.dispatch e) := by
  cases e with
  | prepareReply status request response =>
    simp only [turn, dispatch, handlePrepareReply]
    by_cases hawait : s.awaitPrepareDecision = true
    · have hgo : ¬ (!s.awaitPrepareDecision) = true := by simp [hawait]
      rw [if_neg hgo, if_neg hgo]
      by_cases hdeadline : (status = .deadlineExceeded && s.answersPrepare request.ballot) = true
      · rw [if_pos hdeadline, if_pos hdeadline]
        exact turned_decidePrepare s.prepareSuccesses (s.prepareFailures + 1) hawait
      · rw [if_neg hdeadline, if_neg hdeadline]
        by_cases hok : (status = .ok && s.answersPrepare response.ballot) = true
        · rw [if_pos hok, if_pos hok]
          cases hack : response.ack with
          | true => exact turned_countPrepare response _ _ hawait (by simp [hack, setPrepareCounts])
          | false => exact turned_countPrepare response _ _ hawait (by simp [hack, setPrepareCounts])
        · rw [if_neg hok, if_neg hok]
          exact turned_decidePrepare s.prepareSuccesses s.prepareFailures hawait
    · have hstop : (!s.awaitPrepareDecision) = true := by simp [hawait]
      rw [if_pos hstop, if_pos hstop]
      exact .ignored rfl
  | acceptReply status request response =>
    simp only [turn, dispatch, handleAcceptReply]
    by_cases hawait : s.awaitAcceptDecision = true
    · have hgo : ¬ (!s.awaitAcceptDecision) = true := by simp [hawait]
      rw [if_neg hgo, if_neg hgo]
      by_cases hdeadline : (status = .deadlineExceeded && s.answersAccept request.ballot) = true
      · rw [if_pos hdeadline, if_pos hdeadline]
        exact turned_decideAccept s.acceptSuccesses (s.acceptFailures + 1) hawait
      · rw [if_neg hdeadline, if_neg hdeadline]
        by_cases hok : (status = .ok && s.answersAccept response.ballot) = true
        · rw [if_pos hok, if_pos hok]
          by_cases hack : response.ack = true
          · rw [if_pos hack, if_pos hack]
            exact turned_decideAccept (s.acceptSuccesses + 1) s.acceptFailures hawait
          · rw [if_neg hack, if_neg hack]
            exact turned_decideAccept s.acceptSuccesses (s.acceptFailures + 1) hawait
        · rw [if_neg hok, if_neg hok]
          exact turned_decideAccept s.acceptSuccesses s.acceptFailures hawait
    · have hstop : (!s.awaitAcceptDecision) = true := by simp [hawait]
      rw [if_pos hstop, if_pos hstop]
      exact .ignored rfl
  | input _ | prepareCall _ | acceptCall _ | commitCall _ | syncCall _ | syncReply _ _ => exact .other rfl rfl

/-- **Every event does what it decides.** -/
theorem handle_turned (s : ServerImpl) (e : Event) : Turned { s with outbox := [] } e (s.turn e) (s.handle e) := by
  have hsame : ({ s with outbox := [] } : ServerImpl).turn e = s.turn e := by
    cases e <;> rfl
  rw [← hsame]
  exact dispatch_turned _ e

/-- What the validation of the batch would keep now. -/
def keptNow (s : ServerImpl) : List BatchEntry := (admitAll s.ledger s.promisedNum s.current).kept

/-- The event ends the round: with `onAcceptQuorum`, with `onRoundAbort`, or because no entry was kept. -/
def endsRound (s : ServerImpl) (e : Event) : Bool :=
  match s.turn e with
  | none => false
  | some .prepareQuorum => s.keptNow.isEmpty
  | some _ => true

end ServerImpl

/-! ## What a round adds to the agreed sequence -/

namespace Ledger

variable {l l' : Ledger}

/-- Where the agreed entries are what they were, so is `paxos_index`. -/
theorem Counted.paxosIndex_eq (h : l.Counted) (h' : l'.Counted) (hseq : agreed l'.log = agreed l.log) :
    l'.paxosIndex = l.paxosIndex := by
  have hindex := h'.index
  rw [hseq, ← h.index] at hindex
  omega

theorem crossRequests_eq_nil_iff {bs : List BatchEntry} : crossRequests bs = [] ↔ ∀ b ∈ bs, b.isCrossShard = false := by
  simp [crossRequests]

/-- The validation of a batch adds to the agreed entries the prepares that it keeps. -/
theorem agreed_log_admitAll (l : Ledger) (ballot : Ballot) (batch : List BatchEntry) :
    agreed (ServerImpl.admitAll l ballot batch).ledger.log = agreed l.log ++
      (crossRequests (ServerImpl.admitAll l ballot batch).kept).map fun r => WAL.preparedEntry r ballot := by
  obtain ⟨K, hK⟩ := ServerImpl.admits_admitAll l ballot batch
  rw [hK.ledger]
  show agreed (l.prepareAll ballot _).log = _
  rw [log_prepareAll, agreed_append]
  refine congrArg _ (List.filter_eq_self.mpr ?_)
  rintro e he
  obtain ⟨r, -, rfl⟩ := List.mem_map.mp he
  rfl

/-- The validation of a batch moves the agreed sequence iff it chooses a cross-shard entry. -/
theorem agreed_log_admitAll_iff (l : Ledger) (ballot : Ballot) (batch : List BatchEntry) :
    agreed (ServerImpl.admitAll l ballot batch).ledger.log = agreed l.log ↔
      ∀ b ∈ l.choice batch, b.isCrossShard = false := by
  rw [agreed_log_admitAll, List.append_right_eq_self, List.map_eq_nil_iff, crossRequests_eq_nil_iff,
    ServerImpl.kept_admitAll]

/-- A sync reply adds the agreed entries that it ships. -/
theorem agreed_log_applySync_iff (l : Ledger) (response : SyncRes) :
    agreed (l.applySync response).log = agreed l.log ↔ ∀ x ∈ response.logs, isPaxosEntry x.toWALEntry = false := by
  rw [log_applySync, agreed_append, List.append_right_eq_self, agreed, List.filter_eq_nil_iff, List.forall_mem_map]
  simp

end Ledger

namespace ServerImpl

variable {s : ServerImpl} {e : Event}

/-- An accepted proposal adds the prepares of its cross-shard requests. -/
theorem agreed_foldl_acceptEntry_iff (a : AcceptReq) (l : Ledger) :
    agreed (a.batch.foldl (acceptEntry a.ballot) l).log = agreed l.log ↔
      ∀ r ∈ a.batch, crossHere l r.txn = false := by
  rw [agreed_foldl_acceptEntry, List.append_right_eq_self, AcceptReq.prepares, List.map_eq_nil_iff,
    List.filter_eq_nil_iff]
  simp only [Bool.not_eq_true]
  rfl

/-- A commit adds the intra-shard requests of the batch that are not applied yet. -/
theorem agreed_foldl_commitAccepted_iff (ballot : Ballot) : ∀ (batch : List TransferReq) {l : Ledger}, l.wal.Ok →
    (agreed (batch.foldl (commitAccepted ballot) l).log = agreed l.log ↔
      ∀ r ∈ batch, intraHere l r.txn = true → r.tid ∈ l.balanceApplied) := by
  intro batch
  induction batch with
  | nil => exact fun _ => iff_of_true rfl fun _ h => absurd h List.not_mem_nil
  | cons r batch ih =>
    intro l hw
    rw [List.foldl_cons, List.forall_mem_cons]
    by_cases hfirst : intraHere l r.txn = true → r.tid ∈ l.balanceApplied
    · -- the first request is not logged, and the rest of the loop finds the shard and the applied tids as they were
      have hfree : ∃ locks, commitAccepted ballot l r = { l with locks := locks } := by
        unfold commitAccepted
        dsimp only
        split
        · rename_i hintra
          exact ⟨_, Ledger.commitTransaction_applied ballot (hfirst hintra)⟩
        · exact ⟨_, rfl⟩
      obtain ⟨locks, hfree⟩ := hfree
      rw [hfree, and_iff_right hfirst]
      exact ih (l := { l with locks := locks }) hw
    · -- it is logged, and the log only grows
      obtain ⟨hintra, hnew⟩ := Classical.not_imp.mp hfirst
      refine iff_of_false ?_ fun h => hfirst h.1
      have hone : (commitAccepted ballot l r).log = l.log ++ [WAL.committedEntry r ballot] := by
        unfold commitAccepted
        dsimp only
        rw [if_pos hintra]
        exact Ledger.log_commitTransaction (l := (l.unlockInShard r.txn.sender).unlockInShard r.txn.receiver) hnew
          hw.canWrite ballot
      have hgrows : (commitAccepted ballot l r).log <+: (batch.foldl (commitAccepted ballot) (commitAccepted ballot l r)).log := by
        have hchain : Relation.ReflTransGen (LedgerMove fun _ => True) (commitAccepted ballot l r)
            (batch.foldl (commitAccepted ballot) (commitAccepted ballot l r)) :=
          commitAccepted_chain ballot fun _ _ _ => trivial
        refine reflTransGen_invariant (motive := fun m : Ledger => (commitAccepted ballot l r).log <+: m.log) ?_
          hchain (List.prefix_refl _)
        intro m m' hmove hm
        have hstep : LedgerStep (fun _ _ _ _ => True) (fun _ => True) m m' := hmove.step fun o _ => by
          cases o <;> first | trivial | exact fun _ _ => trivial
        exact hm.trans hstep.log_prefix
      intro hsame
      have hlonger := (hgrows.filter isPaxosEntry).length_le
      have heq : (agreed (batch.foldl (commitAccepted ballot) (commitAccepted ballot l r)).log).length =
          (agreed l.log).length := congrArg List.length hsame
      have hmore : (agreed (commitAccepted ballot l r).log).length = (agreed l.log).length + 1 := by
        rw [hone, agreed_append, List.length_append]
        rfl
      change (agreed (commitAccepted ballot l r).log).length ≤
        (agreed (batch.foldl (commitAccepted ballot) (commitAccepted ballot l r)).log).length at hlonger
      omega

theorem ledger_finishRound (s : ServerImpl) : s.finishRound.ledger = s.ledger := ledger_maybeStartRound s.clearRound

/-- Nothing that comes in is agreed on for this shard: no cross-shard entry can be chosen from the batch of the round
at its prepare quorum, no proposal that is accepted has a cross-shard request, no commit that is followed has an
intra-shard one that is still to be applied, and no sync reply that is used ships an agreed entry. -/
def addsNothing (s : ServerImpl) : Event → Prop
  | .prepareReply status request response => s.turn (.prepareReply status request response) = some .prepareQuorum →
      ∀ b ∈ s.ledger.choice s.current, b.isCrossShard = false
  | .acceptCall request => s.iAmDisconnected = false → s.accepts request = true →
      ∀ r ∈ request.batch, crossHere s.ledger r.txn = false
  | .commitCall request => s.iAmDisconnected = false → s.commits request = true →
      ∀ r ∈ s.acceptBatch, intraHere s.ledger r.txn = true → r.tid ∈ s.ledger.balanceApplied
  | .syncReply status response => status = .ok → response.ack = true →
      ∀ x ∈ response.logs, isPaxosEntry x.toWALEntry = false
  | _ => True

instance (s : ServerImpl) : (e : Event) → Decidable (s.addsNothing e)
  | .prepareReply _ _ _ => inferInstanceAs (Decidable (_ → ∀ b ∈ _, _))
  | .acceptCall _ | .commitCall _ => inferInstanceAs (Decidable (_ → _ → ∀ r ∈ _, _))
  | .syncReply _ _ => inferInstanceAs (Decidable (_ → _ → ∀ x ∈ _, _))
  | .input _ | .prepareCall _ | .syncCall _ | .acceptReply _ _ _ => .isTrue trivial

/-- A reply that does not commit the round moves the agreed sequence iff it validates a cross-shard entry. -/
theorem agreed_vote_iff (hvote : e.isVote = true) (hturn : s.turn e ≠ some .acceptQuorum) :
    agreed (s.handle e).ledger.log = agreed s.ledger.log ↔
      (s.turn e = some .prepareQuorum → ∀ b ∈ s.ledger.choice s.current, b.isCrossShard = false) := by
  have hturned := s.handle_turned e
  generalize s.turn e = τ at hturned hturn ⊢
  generalize s.handle e = u at hturned ⊢
  cases hturned with
  | prepareQuorum a b _ =>
    rw [ledger_onPrepareQuorum]
    exact (s.ledger.agreed_log_admitAll_iff s.promisedNum s.current).trans ⟨fun h _ => h, fun h => h rfl⟩
  | abortPrepare a b _ | abortAccept a b _ =>
    rw [onRoundAbort, ledger_finishRound]
    exact iff_of_true (congrArg agreed (log_foldl_releaseEntry _ s.current s.ledger)) (by simp)
  | acceptQuorum => exact absurd rfl hturn
  | other hnot =>
    rw [hvote] at hnot
    cases hnot
  | ignored | retried | lagging | countedPrepare | countedAccept => exact iff_of_true rfl (by simp)

/-- **One event and the agreed sequence, exactly**, unless it commits the round. -/
theorem agreed_handle_iff (hw : s.ledger.wal.Ok) (hturn : s.turn e ≠ some .acceptQuorum) :
    agreed (s.handle e).ledger.log = agreed s.ledger.log ↔ s.addsNothing e := by
  cases e with
  | prepareReply status request response => exact agreed_vote_iff rfl hturn
  | acceptReply status request response =>
    refine (agreed_vote_iff rfl hturn).trans (iff_of_true ?_ trivial)
    intro hquorum
    simp only [turn, acceptTurn] at hquorum
    split_ifs at hquorum <;> cases hquorum
  | acceptCall request =>
    show agreed (processAcceptCall { s with outbox := [] } request).1.ledger.log = _ ↔ _
    unfold processAcceptCall addsNothing
    split
    · rename_i hdisc
      exact iff_of_true rfl fun hconn => by rw [show s.iAmDisconnected = true from hdisc] at hconn; cases hconn
    · rename_i hconn
      split
      · rename_i hacc
        refine (agreed_foldl_acceptEntry_iff request s.ledger).trans ⟨fun h _ _ => h, fun h => h ?_ hacc⟩
        exact Bool.eq_false_iff.mpr hconn
      · rename_i hnot
        exact iff_of_true rfl fun _ hacc => absurd hacc hnot
  | commitCall request =>
    show agreed (processCommitCall { s with outbox := [] } request).ledger.log = _ ↔ _
    unfold processCommitCall addsNothing
    split
    · rename_i hdisc
      exact iff_of_true rfl fun hconn => by rw [show s.iAmDisconnected = true from hdisc] at hconn; cases hconn
    · rename_i hconn
      split
      · rename_i hcom
        refine (agreed_foldl_commitAccepted_iff s.acceptNum s.acceptBatch hw).trans ⟨fun h _ _ => h, fun h => h ?_ hcom⟩
        exact Bool.eq_false_iff.mpr hconn
      · rename_i hnot
        exact iff_of_true rfl fun _ hcom => absurd hcom hnot
  | syncReply status response =>
    rw [ledger_syncReply]
    split
    · rename_i hok
      exact (s.ledger.agreed_log_applySync_iff response).trans ⟨fun h _ _ => h, fun h => h hok.1 hok.2⟩
    · rename_i hnot
      exact iff_of_true rfl fun hstatus hack => absurd ⟨hstatus, hack⟩ hnot
  | prepareCall request =>
    refine iff_of_true ?_ trivial
    generalize hu : s.handle (.prepareCall request) = u
    cases moves_of_handle hu with
    | done hcore => cases hcore <;> rfl
    | start hcore => cases hcore <;> rfl
    | retry hpre => cases hpre
  | syncCall request => exact iff_of_true rfl trivial
  | input x =>
    refine iff_of_true ?_ trivial
    cases x with
    | tpcDecision tid isCommit =>
      show agreed (ServerImpl.processTpcDecision { s with outbox := [] } tid isCommit).ledger.log = _
      unfold processTpcDecision
      split
      · rfl
      · exact Ledger.agreed_processTpcDecision hw tid isCommit
    | sweep => exact Ledger.agreed_sweep hw
    | disconnect servers => rfl
    | tick ms => rfl
    | transfer call request | tpcPrepare call request =>
      generalize hu : s.handle _ = u
      cases moves_of_handle hu with
      | done hcore => cases hcore <;> rfl
      | start hcore => cases hcore <;> rfl
      | retry hpre => cases hpre

/-- The round is still open after the event. -/
def goesOn (s : ServerImpl) (e : Event) : Prop := s.endsRound e = false

instance (s : ServerImpl) (e : Event) : Decidable (s.goesOn e) := inferInstanceAs (Decidable (_ = _))

theorem turn_of_goesOn (h : s.goesOn e) : s.turn e ≠ some .acceptQuorum := by
  intro hturn
  rw [goesOn, endsRound, hturn] at h
  cases h

theorem log_prefix_foldl (es : List Event) (s : ServerImpl) : s.ledger.log <+: (es.foldl handle s).ledger.log :=
  List.foldlRecOn (motive := fun t : ServerImpl => s.ledger.log <+: t.ledger.log) es handle (List.prefix_refl _)
    fun t ht e _ => ht.trans (t.log_prefix_handle e)

/-- What only grows and ends as it began has not moved on the way. -/
theorem agreed_eq_iff_of_prefix {log log' log'' : List WALEntry} (h : log <+: log') (h' : log' <+: log'') :
    agreed log'' = agreed log ↔ agreed log' = agreed log ∧ agreed log'' = agreed log' := by
  constructor
  · intro heq
    have hmid : agreed log' = agreed log := by
      refine ((h.filter isPaxosEntry).eq_of_length_le ?_).symm
      exact (h'.filter isPaxosEntry).length_le.trans (congrArg List.length heq).le
    exact ⟨hmid, heq.trans hmid.symm⟩
  · rintro ⟨hfirst, hsecond⟩
    exact hsecond.trans hfirst

/-- An open round has left the agreed sequence alone iff each event so far has. -/
theorem agreed_round_iff : ∀ (es : List Event) (s : ServerImpl), s.ledger.Counted → okRun handle goesOn s es →
    (agreed (es.foldl handle s).ledger.log = agreed s.ledger.log ↔ okRun handle addsNothing s es) := by
  intro es
  induction es with
  | nil => exact fun s _ _ => iff_of_true rfl trivial
  | cons e es ih =>
    intro s hcounted hrun
    rw [List.foldl_cons, agreed_eq_iff_of_prefix (s.log_prefix_handle e) (log_prefix_foldl es (s.handle e)),
      agreed_handle_iff hcounted.wal (turn_of_goesOn hrun.1), ih (s.handle e) (counted_handle hcounted e) hrun.2]
    rfl

/-- `startRound` on a batch. -/
def startOn (s : ServerImpl) (batch : List BatchEntry) : ServerImpl := startRound { s with pending := batch }

end ServerImpl

open ServerImpl (handle goesOn addsNothing life)

/-- **A failed round and the agreed sequence.**  A server, after any life, starts a round, handles anything while the
round is open, and ends it with `onRoundAbort`, in whichever phase.  The agreed entries and `paxos_index` have stayed
what they were iff no cross-shard entry could be chosen from the batch at a prepare quorum of the round, and nothing
that came in meanwhile brought an entry agreed on elsewhere. -/
theorem failed_round_iff (c : Constants) (i : Int) (v : List LifeEvent) (batch : List BatchEntry) (es : List Event)
    (e : Event) (preparePhase : Bool) (hround : okRun handle goesOn ((life c i v).startOn batch) es)
    (hfail : (es.foldl handle ((life c i v).startOn batch)).turn e = some (.abort preparePhase)) :
    (agreed ((es.foldl handle ((life c i v).startOn batch)).handle e).ledger.log = agreed (life c i v).ledger.log ∧
        ((es.foldl handle ((life c i v).startOn batch)).handle e).ledger.paxosIndex = (life c i v).ledger.paxosIndex) ↔
      okRun handle addsNothing ((life c i v).startOn batch) es := by
  have hcounted : ((life c i v).startOn batch).ledger.Counted := ServerImpl.counted_life c i v
  have hvote : e.isVote = true := by
    cases e <;> first | rfl | cases hfail
  -- the abort itself releases locks only
  have hlast : agreed ((es.foldl handle ((life c i v).startOn batch)).handle e).ledger.log =
      agreed (es.foldl handle ((life c i v).startOn batch)).ledger.log :=
    (ServerImpl.agreed_vote_iff hvote (by rw [hfail]; simp)).mpr (by rw [hfail]; simp)
  rw [← ServerImpl.agreed_round_iff es ((life c i v).startOn batch) hcounted hround, hlast]
  refine ⟨And.left, fun hsame => ⟨hsame, ?_⟩⟩
  have hend : (es.foldl handle ((life c i v).startOn batch)).ledger.Counted :=
    List.foldlRecOn (motive := fun s : ServerImpl => s.ledger.Counted) es handle hcounted fun s hs e _ =>
      ServerImpl.counted_handle hs e
  exact hcounted.paxosIndex_eq (ServerImpl.counted_handle hend e) (hlast.trans hsame)

/-- Server 2 promises ballot 1 to server 1, and refuses the proposal under it. -/
def promisedThenRefused : List Event :=
  [.prepareReply .ok ⟨⟨1, 1⟩, -1⟩ (ServerImpl.plainPrepareRes true ⟨1, 1⟩),
   .acceptReply .ok ⟨⟨1, 1⟩, []⟩ ⟨false, ⟨1, 1⟩⟩]

/-- Server 3 does not answer the proposal in time. -/
def acceptTimesOut : Event := .acceptReply .deadlineExceeded ⟨⟨1, 1⟩, []⟩ ⟨false, .zero⟩

/-- A round of two intra-shard transfers that fails in its accept phase. -/
theorem failed_round_iff_twoTransfers :
    agreed ((promisedThenRefused.foldl handle ((life ⟨3, 3⟩ 1 []).startOn
        [⟨⟨⟨1, 2, 3⟩, 7⟩, 0, false⟩, ⟨⟨⟨3, 4, 1⟩, 8⟩, 1, false⟩])).handle acceptTimesOut).ledger.log = [] ∧
      ((promisedThenRefused.foldl handle ((life ⟨3, 3⟩ 1 []).startOn
        [⟨⟨⟨1, 2, 3⟩, 7⟩, 0, false⟩, ⟨⟨⟨3, 4, 1⟩, 8⟩, 1, false⟩])).handle acceptTimesOut).ledger.paxosIndex = -1 :=
  (failed_round_iff ⟨3, 3⟩ 1 [] [⟨⟨⟨1, 2, 3⟩, 7⟩, 0, false⟩, ⟨⟨⟨3, 4, 1⟩, 8⟩, 1, false⟩]
    promisedThenRefused acceptTimesOut false (by decide +kernel) (by decide +kernel)).mpr (by decide +kernel)

/-- The same round with a cross-shard transfer beside the intra-shard one: its prepare stays in the log and is
counted. -/
theorem failed_round_keeps_prepare :
    ¬ ∀ (c : Constants) (i : Int) (v : List LifeEvent) (batch : List BatchEntry) (es : List Event) (e : Event)
        (preparePhase : Bool), okRun handle goesOn ((life c i v).startOn batch) es →
      (es.foldl handle ((life c i v).startOn batch)).turn e = some (.abort preparePhase) →
      agreed ((es.foldl handle ((life c i v).startOn batch)).handle e).ledger.log = agreed (life c i v).ledger.log ∧
        ((es.foldl handle ((life c i v).startOn batch)).handle e).ledger.paxosIndex =
          (life c i v).ledger.paxosIndex := by
  intro h
  have hsame := h ⟨3, 3⟩ 1 [] [⟨⟨⟨1, 2, 3⟩, 7⟩, 0, false⟩, ⟨⟨⟨3, 1001, 1⟩, 8⟩, 1, true⟩]
    promisedThenRefused acceptTimesOut false (by decide +kernel) (by decide +kernel)
  exact absurd hsame.2 (by decide +kernel)

/-! ## What a round leaves locked -/

/-- A server with the locks of its running round beside it: each entry that a validation of this round has kept, with
an account that the validation locked for it and nothing has released since. -/
structure Watch where
  server : ServerImpl
  held : List (BatchEntry × Int)

namespace Watch

/-- The locks that a validation takes now. -/
def locksTaken (s : ServerImpl) : List (BatchEntry × Int) :=
  s.keptNow.flatMap fun b => (s.ledger.inShard b.request.txn).map fun a => (b, a)

/-- What the round holds once the event is handled. -/
def heldAfter (w : Watch) (e : Event) : List (BatchEntry × Int) :=
  (w.held ++ if w.server.turn e = some .prepareQuorum then locksTaken w.server else []).filter fun p =>
    decide (p.2 ∈ (w.server.handle e).ledger.locks)

/-- One event.  A round that ends takes its record with it. -/
def step (w : Watch) (e : Event) : Watch :=
  { server := w.server.handle e
    held := if w.server.endsRound e then [] else w.heldAfter e }

def fresh (c : Constants) (serverId : Int) : Watch := { server := .fresh c serverId, held := [] }

/-- The accounts the entry itself has locked in this round. -/
def ownLocks (w : Watch) (b : BatchEntry) : Finset Int :=
  ((w.held.filter fun p => decide (p.1 = b)).map Prod.snd).toFinset

/-- At its turn in the validation the entry is rejected, and would not be without its own locks. -/
def SelfRejected (w : Watch) (b : BatchEntry) : Prop :=
  ∃ before after, w.server.current = before ++ b :: after ∧
    ServerImpl.rejects (ServerImpl.admitAll w.server.ledger w.server.promisedNum before).ledger b.request.txn = true ∧
    ServerImpl.rejects
      { (ServerImpl.admitAll w.server.ledger w.server.promisedNum before).ledger with
        locks := (ServerImpl.admitAll w.server.ledger w.server.promisedNum before).ledger.locks \ w.ownLocks b }
      b.request.txn = false

/-- The event does right by the round: if it ends it, only the locks of cross-shard entries are left, and if it
validates the batch, no entry is rejected for a lock of its own. -/
structure Fair (w : Watch) (e : Event) : Prop where
  released : w.server.endsRound e = true → ∀ p ∈ w.heldAfter e, p.1.isCrossShard = true
  accepted : w.server.turn e = some .prepareQuorum → ∀ b, ¬ w.SelfRejected b

/-- No sync reply is handled in the accept phase. -/
def syncsBefore (w : Watch) : Event → Prop
  | .syncReply _ _ => w.server.awaitAcceptDecision = false
  | _ => True

instance (w : Watch) : (e : Event) → Decidable (w.syncsBefore e)
  | .syncReply _ _ => inferInstanceAs (Decidable (w.server.awaitAcceptDecision = false))
  | .input _ | .prepareCall _ | .acceptCall _ | .commitCall _ | .syncCall _ | .prepareReply _ _ _
  | .acceptReply _ _ _ => .isTrue trivial

/-- What is held belongs to entries of the batch that is in its accept phase. -/
structure Kept (w : Watch) : Prop where
  phase : w.server.Phase
  running : w.server.Running
  accept : w.held ≠ [] → w.server.awaitAcceptDecision = true
  entry : ∀ p ∈ w.held, p.1 ∈ w.server.current ∧ (p.2 = p.1.request.txn.sender ∨ p.2 = p.1.request.txn.receiver)

variable {w : Watch} {e : Event}

theorem Kept.held_nil (h : w.Kept) (hprepare : w.server.awaitPrepareDecision = true) : w.held = [] := by
  by_contra hne
  have hnot := h.phase.not_prepare (h.accept hne)
  rw [hprepare] at hnot
  cases hnot

/-- Nothing is taken but at a prepare quorum. -/
theorem mem_heldAfter (hturn : w.server.turn e ≠ some .prepareQuorum) {p : BatchEntry × Int}
    (hp : p ∈ w.heldAfter e) : p ∈ w.held ∧ p.2 ∈ (w.server.handle e).ledger.locks := by
  rw [heldAfter, if_neg hturn, List.append_nil, List.mem_filter, decide_eq_true_eq] at hp
  exact hp

end Watch

namespace ServerImpl

variable {s t : ServerImpl} {e : Event}

/-- A prepare quorum comes in the prepare phase. -/
theorem awaitPrepare_of_turn (h : s.turn e = some .prepareQuorum) : s.awaitPrepareDecision = true := by
  have hturned := s.handle_turned e
  rw [h] at hturned
  generalize s.handle e = u at hturned
  cases hturned with
  | prepareQuorum a b hawait => exact hawait

/-- An event that is not a vote leaves the batch and its phase alone, if it starts no prepare phase. -/
theorem Core.same_round (h : Core s e t) (hvote : e.isVote = false) :
    t.current = s.current ∧ t.awaitAcceptDecision = s.awaitAcceptDecision := by
  cases h with
  | countPrepare | staleLog | reject | propose | abortPrepare | countAccept | commitRound | abortAccept => cases hvote
  | _ => exact ⟨rfl, rfl⟩

theorem mem_locks_foldl_commitEntry (ballot : Ballot) (batch : List BatchEntry) (l : Ledger) (a : Int) :
    a ∈ (batch.foldl (commitEntry ballot) l).locks ↔ a ∈ l.locks ∧ ∀ b ∈ batch, Spares b a :=
  foldl_narrows (I := fun _ => True) (p := fun l => a ∈ l.locks) (fun _ _ _ => trivial)
    (fun l b _ => mem_locks_commitEntry l ballot b a) batch l trivial

theorem mem_locks_foldl_releaseEntry (batch : List BatchEntry) (l : Ledger) (a : Int) :
    a ∈ (batch.foldl (releaseEntry false) l).locks ↔ a ∈ l.locks ∧ ∀ b ∈ batch, Spares b a :=
  foldl_narrows (I := fun _ => True) (p := fun l => a ∈ l.locks) (fun _ _ _ => trivial)
    (fun l b _ => mem_locks_releaseEntry l b a) batch l trivial

end ServerImpl

namespace Watch

variable {w : Watch} {e : Event}

/-- The locks of a validation are of the entries it has kept. -/
theorem Kept.after_prepareQuorum (h : w.Kept) (hquorum : w.server.turn e = some .prepareQuorum)
    (hgo : w.server.endsRound e = false) {p : BatchEntry × Int} (hp : p ∈ w.heldAfter e) :
    (w.server.handle e).awaitAcceptDecision = true ∧ p.1 ∈ (w.server.handle e).current ∧
      (p.2 = p.1.request.txn.sender ∨ p.2 = p.1.request.txn.receiver) := by
  have hprepare := ServerImpl.awaitPrepare_of_turn hquorum
  rw [ServerImpl.endsRound, hquorum] at hgo
  have hgo : w.server.keptNow.isEmpty = false := hgo
  rw [heldAfter, if_pos hquorum, h.held_nil hprepare, List.nil_append] at hp
  obtain ⟨b, hkept, hp⟩ := List.mem_flatMap.mp (List.mem_filter.mp hp).1
  obtain ⟨a, ha, rfl⟩ := List.mem_map.mp hp
  have hturned := w.server.handle_turned e
  rw [hquorum] at hturned
  generalize w.server.handle e = u at hturned ⊢
  cases hturned with
  | prepareQuorum x y _ =>
    rw [ServerImpl.onPrepareQuorum]
    have hcurrent : (ServerImpl.setPrepareCounts { w.server with outbox := [] } x y).validate.current =
      w.server.keptNow := rfl
    rw [hcurrent, hgo]
    exact ⟨rfl, hkept, (Ledger.mem_inShard.mp ha).1⟩

/-- A lock the round still holds after an event is of an entry that is still in the accept phase. -/
theorem Kept.after (h : w.Kept) (hok : w.syncsBefore e) (hgo : w.server.endsRound e = false) {p : BatchEntry × Int}
    (hp : p ∈ w.heldAfter e) :
    (w.server.handle e).awaitAcceptDecision = true ∧ p.1 ∈ (w.server.handle e).current ∧
      (p.2 = p.1.request.txn.sender ∨ p.2 = p.1.request.txn.receiver) := by
  by_cases hquorum : w.server.turn e = some .prepareQuorum
  · exact h.after_prepareQuorum hquorum hgo hp
  · obtain ⟨hheld, -⟩ := mem_heldAfter hquorum hp
    have haccept := h.accept (List.ne_nil_of_mem hheld)
    obtain ⟨hmem, hentry⟩ := h.entry p hheld
    have hno : w.server.awaitPrepareDecision ≠ true := by
      rw [h.phase.not_prepare haccept]
      exact Bool.false_ne_true
    have hturned := w.server.handle_turned e
    have hmoves := w.server.handle_moves e
    unfold ServerImpl.endsRound at hgo
    generalize w.server.turn e = τ at hturned hgo
    generalize hu : w.server.handle e = u at hturned hmoves ⊢
    cases hturned with
    | ignored | countedAccept => exact ⟨haccept, hmem, hentry⟩
    | retried a b latest hprepare | lagging a b dst hprepare | countedPrepare a b hprepare
    | prepareQuorum a b hprepare => exact absurd hprepare hno
    | abortPrepare | acceptQuorum | abortAccept => cases hgo
    | other hvote =>
      cases hmoves with
      | done hcore =>
        obtain ⟨hcurrent, hphase⟩ := hcore.same_round hvote
        rw [hcurrent, hphase]
        exact ⟨haccept, hmem, hentry⟩
      | start hcore hrun =>
        have hempty := (hcore.takes h.running).running hrun
        rw [(hcore.same_round hvote).1] at hempty
        have hmem : p.1 ∈ ([] : List BatchEntry) := hempty ▸ hmem
        cases hmem
      | retry hpre =>
        cases hpre with
        | staleBallot => cases hvote
        | synced | notSynced =>
          have hnot : w.server.awaitAcceptDecision = false := hok
          rw [haccept] at hnot
          cases hnot

theorem Kept.step (h : w.Kept) (hok : w.syncsBefore e) : (w.step e).Kept := by
  have hafter : ∀ p ∈ (w.step e).held, (w.server.handle e).awaitAcceptDecision = true ∧
      p.1 ∈ (w.server.handle e).current ∧
      (p.2 = p.1.request.txn.sender ∨ p.2 = p.1.request.txn.receiver) := by
    intro p hp
    have hp : p ∈ if w.server.endsRound e then [] else w.heldAfter e := hp
    cases hend : w.server.endsRound e with
    | true =>
      rw [hend, if_pos rfl] at hp
      cases hp
    | false =>
      rw [hend, if_neg Bool.false_ne_true] at hp
      exact h.after hok hend hp
  refine ⟨ServerImpl.handle_phase h.phase e, (ServerImpl.handle_takes h.running e).running, ?_, ?_⟩
  · intro hne
    obtain ⟨p, hp⟩ := List.exists_mem_of_ne_nil _ hne
    exact (hafter p hp).1
  · exact fun p hp => (hafter p hp).2

theorem Kept.fresh (c : Constants) (serverId : Int) : (Watch.fresh c serverId).Kept where
  phase := .fresh c serverId
  running := fun _ => rfl
  accept := fun hne => absurd rfl hne
  entry := fun _ hp => absurd hp List.not_mem_nil

/-- The end of a round releases what it holds for intra-shard entries. -/
theorem Kept.released (h : w.Kept) (hend : w.server.endsRound e = true) :
    ∀ p ∈ w.heldAfter e, p.1.isCrossShard = true := by
  intro p hp
  by_contra hcross
  have hintra : p.1.isCrossShard = false := Bool.eq_false_iff.mpr hcross
  by_cases hquorum : w.server.turn e = some .prepareQuorum
  · -- a validation that keeps nothing locks nothing
    rw [ServerImpl.endsRound, hquorum] at hend
    have hkept : w.server.keptNow = [] := List.isEmpty_iff.mp hend
    rw [heldAfter, if_pos hquorum, h.held_nil (ServerImpl.awaitPrepare_of_turn hquorum), locksTaken, hkept] at hp
    cases hp
  · obtain ⟨hheld, hlock⟩ := mem_heldAfter hquorum hp
    obtain ⟨hmem, haccount⟩ := h.entry p hheld
    have hfreed : ¬ ServerImpl.Spares p.1 p.2 := by
      intro hspares
      obtain ⟨hsender, hreceiver⟩ := hspares hintra
      exact haccount.elim hsender hreceiver
    have hturned := w.server.handle_turned e
    unfold ServerImpl.endsRound at hend
    generalize w.server.turn e = τ at hturned hend
    generalize w.server.handle e = u at hturned hlock
    cases hturned with
    | abortPrepare a b hprepare | prepareQuorum a b hprepare =>
      rw [h.held_nil hprepare] at hheld
      cases hheld
    | acceptQuorum a b _ =>
      rw [ServerImpl.onAcceptQuorum, ServerImpl.ledger_finishRound] at hlock
      exact hfreed (((ServerImpl.mem_locks_foldl_commitEntry _ w.server.current _ p.2).mp hlock).2 p.1 hmem)
    | abortAccept a b _ =>
      rw [ServerImpl.onRoundAbort, ServerImpl.ledger_finishRound] at hlock
      exact hfreed (((ServerImpl.mem_locks_foldl_releaseEntry w.server.current _ p.2).mp hlock).2 p.1 hmem)
    | ignored | retried | lagging | countedPrepare | countedAccept | other => cases hend

theorem Kept.fair (h : w.Kept) (e : Event) : w.Fair e where
  released := h.released
  accepted := by
    rintro hquorum b ⟨before, after, -, hrejects, hwithout⟩
    have hown : w.ownLocks b = ∅ := by
      rw [ownLocks, h.held_nil (ServerImpl.awaitPrepare_of_turn hquorum)]
      rfl
    rw [hown, Finset.sdiff_empty, hrejects] at hwithout
    cases hwithout

end Watch

/-- **The end of a round releases its intra-shard locks.**  In every run of a server in which no sync reply is
handled in the accept phase, whatever else its peers and clients do: a round that ends leaves no account locked for
an intra-shard entry it has validated, and no entry is turned away for a lock of its own. -/
theorem round_end_releases (c : Constants) (serverId : Int) (w : Watch)
    (hr : Reach Watch.step Watch.syncsBefore (Watch.fresh c serverId) w) (e : Event) : w.Fair e :=
  (hr.invariant (motive := Watch.Kept) (.fresh c serverId) fun _ _ _ hkept hok => hkept.step hok).fair e

/-- Server 1 validates a batch of one, then falls behind and sends a sync request, whose answer is still out. -/
def acceptsWhileSyncing : List Event :=
  [.input (.transfer 0 ⟨⟨1, 2, 3⟩, 7⟩),
   .prepareReply .ok ⟨⟨1, 1⟩, -1⟩ (ServerImpl.plainPrepareRes true ⟨1, 1⟩),
   .prepareCall ⟨⟨4, 3⟩, 0⟩]

theorem round_end_releases_acceptsWhileSyncing :
    (acceptsWhileSyncing.foldl Watch.step (.fresh ⟨3, 3⟩ 1)).held = [(⟨⟨⟨1, 2, 3⟩, 7⟩, 0, false⟩, 1), (⟨⟨⟨1, 2, 3⟩, 7⟩, 0, false⟩, 2)] ∧
      (acceptsWhileSyncing.foldl Watch.step (.fresh ⟨3, 3⟩ 1)).Fair
        (.acceptReply .ok ⟨⟨1, 1⟩, [⟨⟨1, 2, 3⟩, 7⟩]⟩ ⟨true, ⟨1, 1⟩⟩) :=
  ⟨by decide +kernel, round_end_releases ⟨3, 3⟩ 1 _ (Reach.start.foldl (by decide +kernel)) _⟩

/-- The events that a server handles along a run of the network. -/
def Net.handledBy (i : Int) (n : Net) (es : List NetEvent) : List Event :=
  trace Net.step (fun n ev =>
    match n.actor ev with
    | some (j, e) => if j = i then [e] else []
    | none => []) n es

/-- They are what makes the server what it is at the end. -/
theorem Net.servers_foldl (i : Int) (es : List NetEvent) (n : Net) :
    (es.foldl Net.step n).servers i = (n.handledBy i es).foldl handle (n.servers i) := by
  induction es generalizing n with
  | nil => rfl
  | cons ev es ih =>
    rw [List.foldl_cons, ih, handledBy, handledBy, trace, List.foldl_append]
    congr 1
    cases hactor : n.actor ev with
    | none =>
      rw [servers_step_none hactor]
      rfl
    | some p =>
      obtain ⟨j, e⟩ := p
      rw [step_eq_after hactor]
      by_cases hj : j = i
      · subst hj
        rw [servers_after_self]
        dsimp only
        rw [if_pos rfl]
        rfl
      · rw [servers_after_ne n ev _ (Ne.symm hj)]
        dsimp only
        rw [if_neg hj]
        rfl

/-- The watch over what a server of the network handles is a watch over that server. -/
theorem Watch.server_handledBy (c : Constants) (es : List NetEvent) (i : Int) :
    (((Net.fresh c).handledBy i es).foldl Watch.step (.fresh c i)).server = (Net.run c es).servers i := by
  have hserver : ∀ (es : List Event) (w : Watch), (es.foldl Watch.step w).server = es.foldl handle w.server := by
    intro es
    induction es with
    | nil => exact fun _ => rfl
    | cons e es ih => exact fun w => ih (w.step e)
  rw [hserver]
  exact (Net.servers_foldl i es (Net.fresh c)).symm

/-- Server 1 has validated the transfer of tid 7 under ballot 1 and awaits the accept replies.  Server 3 commits tid 8
under ballot 2 with server 2, and prepares tid 9 under ballot 3: server 1 is behind and syncs.  The answer restarts
its round, and server 2 promises it. -/
def syncInAcceptPhase : List NetEvent :=
  [.input 1 (.transfer 0 ⟨⟨1, 2, 3⟩, 7⟩), .deliver 0, .complete 0,
   .input 3 (.transfer 1 ⟨⟨3, 4, 1⟩, 8⟩), .deliver 5, .complete 5, .deliver 7, .complete 7, .deliver 9, .complete 9,
   .deliver 11, .input 3 (.transfer 2 ⟨⟨5, 6, 1⟩, 9⟩), .deliver 12, .deliver 14, .complete 14, .deliver 15]

/-- The promise ends the round: its one entry is turned away, and accounts 1 and 2 stay locked for it. -/
theorem lock_left_after_second_validation :
    ¬ ∀ (es : List NetEvent) (ev : NetEvent) (i : Int) (e : Event),
      ((clientRequests (es ++ [ev])).map TransferReq.tid).Nodup → (Net.run ⟨3, 3⟩ es).actor ev = some (i, e) →
      (((Net.fresh ⟨3, 3⟩).handledBy i es).foldl Watch.step (.fresh ⟨3, 3⟩ i)).Fair e := by
  intro h
  have hfair := h syncInAcceptPhase (.complete 15) 1
    (.prepareReply .ok ⟨⟨3, 1⟩, 0⟩ (ServerImpl.plainPrepareRes true ⟨3, 1⟩)) (by decide +kernel) (by decide +kernel)
  have hleft := hfair.released (by decide +kernel) (⟨⟨⟨1, 2, 3⟩, 7⟩, 0, false⟩, 1) (by decide +kernel)
  cases hleft

end MultiPaxosDB
