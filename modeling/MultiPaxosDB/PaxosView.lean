/-
# MultiPaxosDB.PaxosView — what Paxos sees of a replica, and that 2PC decisions are not part of it.

A decision or a timeout changes the log, the locks, the balances, `balance_applied` and the WAL.  What a
replica answers to its peers, and what its peers' messages append to the agreed log, is decided by the
round control, by `paxos_index` and — for an intra-shard commit — by whether its tid is in
`balance_applied`.  As long as the tids that are ever prepared here are not those of intra-shard
transfers, a decision cannot reach any of these (`SameView`), so a run can be stripped of all decisions,
sweeps and ticks of the clock without its peers noticing: `SameView` unwinds them (`unwinds_tpc`).
-/
import MultiPaxosDB.Lib.Unwinding
import MultiPaxosDB.Locks
import MultiPaxosDB.Sequences

namespace MultiPaxosDB

open Lib

/-! ## Ledgers -/

namespace Ledger

/-- The index is in step with the file and every pending tid is in `X`. -/
structure PendingIn (X : Set Int) (l : Ledger) : Prop where
  wal : l.wal.Ok
  keys : ∀ t, (l.wal.pendingEntry t).isSome → t ∈ X

/-- Paxos cannot tell the two ledgers apart. -/
structure SameView (X : Set Int) (l l' : Ledger) : Prop where
  left : l.PendingIn X
  right : l'.PendingIn X
  inShard : l.isClientInCluster = l'.isClientInCluster
  agreed : agreed l.log = agreed l'.log
  paxosIndex : l.paxosIndex = l'.paxosIndex
  applied : ∀ t ∉ X, t ∈ l.balanceApplied ↔ t ∈ l'.balanceApplied

variable {X : Set Int} {l l' : Ledger}

theorem PendingIn.frame (h : l.PendingIn X) (hf : l.Frame l') : l'.PendingIn X := by
  have hwal := hf.wal
  exact ⟨by rw [hwal]; exact h.wal, by rw [hwal]; exact h.keys⟩

theorem PendingIn.prepare (h : l.PendingIn X) {r : TransferReq} (hr : r.tid ∈ X) (ballot : Ballot) :
    (l.prepareTransaction r ballot).PendingIn X where
  wal := h.wal.prepareTransaction r ballot
  keys := by
    intro t ht
    have hpending := h.wal.pendingEntry_prepareTransaction r ballot t
    rw [show (l.prepareTransaction r ballot).wal.pendingEntry t = _ from hpending] at ht
    split at ht
    · rename_i heq
      rw [heq]
      exact hr
    · exact h.keys t ht

theorem PendingIn.commit (h : l.PendingIn X) (r : TransferReq) (ballot : Ballot) :
    (l.commitTransaction r ballot).PendingIn X := by
  have hsame := SamePending.commitTransaction h.wal r ballot
  exact ⟨hsame.ok, fun t ht => h.keys t (by rwa [hsame.pending] at ht)⟩

theorem PendingIn.decide (h : l.PendingIn X) (tid : Int) (isCommit : Bool) :
    (l.processTpcDecision tid isCommit).PendingIn X where
  wal := by
    rw [wal_processTpcDecision]
    exact h.wal.decideTransaction tid _
  keys := by
    intro t ht
    rw [pendingEntry_processTpcDecision h.wal] at ht
    split at ht
    · exact absurd ht Bool.false_ne_true
    · exact h.keys t ht

/-- A decision marks a pending tid as applied, or none. -/
theorem PendingIn.applied_decide (h : l.PendingIn X) (tid : Int) (isCommit : Bool) {t : Int} (ht : t ∉ X) :
    t ∈ (l.processTpcDecision tid isCommit).balanceApplied ↔ t ∈ l.balanceApplied := by
  cases he : l.wal.pendingEntry tid with
  | none => rw [processTpcDecision_none isCommit he]
  | some e =>
    by_cases hsentinel : tid = -1
    · subst hsentinel
      rw [processTpcDecision_sentinel h.wal isCommit he]
    · -- the tid that is applied was pending, so it is in `X`
      have hne : t ≠ tid := by
        rintro rfl
        exact ht (h.keys t (by rw [he]; rfl))
      rw [processTpcDecision_some h.wal isCommit he hsentinel]
      show t ∈ (if isCommit then insert tid l.balanceApplied else l.balanceApplied) ↔ _
      cases isCommit with
      | false => exact Iff.rfl
      | true => rw [if_pos rfl, Finset.mem_insert, or_iff_right hne]

namespace SameView

theorem refl (h : l.PendingIn X) : SameView X l l := ⟨h, h, rfl, rfl, rfl, fun _ _ => Iff.rfl⟩

/-- Fields that no operation reads. -/
theorem frame {m m' : Ledger} (h : SameView X l l') (hf : l.Frame m) (hf' : l'.Frame m') :
    SameView X m m' where
  left := h.left.frame hf
  right := h.right.frame hf'
  inShard := by
    unfold isClientInCluster
    rw [hf.constants, hf.clusterId, hf'.constants, hf'.clusterId]
    exact h.inShard
  agreed := by rw [hf.log, hf'.log, h.agreed]
  paxosIndex := by rw [hf.paxosIndex, hf'.paxosIndex, h.paxosIndex]
  applied := by rw [hf.balanceApplied, hf'.balanceApplied]; exact h.applied

theorem prepare (h : SameView X l l') {r : TransferReq} (hr : r.tid ∈ X) (ballot : Ballot) :
    SameView X (l.prepareTransaction r ballot) (l'.prepareTransaction r ballot) where
  left := h.left.prepare hr ballot
  right := h.right.prepare hr ballot
  inShard := h.inShard
  agreed := by rw [agreed_prepareTransaction, agreed_prepareTransaction, h.agreed]
  paxosIndex := congrArg (· + 1) h.paxosIndex
  applied := h.applied

/-- An intra-shard commit is applied on both sides or on neither. -/
theorem commit (h : SameView X l l') {r : TransferReq} (hr : r.tid ∉ X) (ballot : Ballot) :
    SameView X (l.commitTransaction r ballot) (l'.commitTransaction r ballot) := by
  by_cases hold : r.tid ∈ l.balanceApplied
  · rw [commitTransaction_applied ballot hold,
      commitTransaction_applied ballot ((h.applied _ hr).mp hold)]
    exact h
  · have hold' : r.tid ∉ l'.balanceApplied := fun hmem => hold ((h.applied _ hr).mpr hmem)
    refine ⟨h.left.commit r ballot, h.right.commit r ballot, ?_, ?_, ?_, ?_⟩
    · rw [ServerImpl.isClientInCluster_commitTransaction, ServerImpl.isClientInCluster_commitTransaction,
        h.inShard]
    · rw [log_commitTransaction hold h.left.wal.canWrite, log_commitTransaction hold' h.right.wal.canWrite,
        agreed_append, agreed_append, h.agreed]
    · rw [paxosIndex_commitTransaction hold, paxosIndex_commitTransaction hold', h.paxosIndex]
    · intro t ht
      rw [balanceApplied_commitTransaction, balanceApplied_commitTransaction, Finset.mem_insert,
        Finset.mem_insert, h.applied t ht]

/-- A decision on one side does not show. -/
theorem decide (h : SameView X l l') (tid : Int) (isCommit : Bool) :
    SameView X (l.processTpcDecision tid isCommit) l' where
  left := h.left.decide tid isCommit
  right := h.right
  inShard := (isClientInCluster_processTpcDecision l tid isCommit).trans h.inShard
  agreed := (agreed_processTpcDecision h.left.wal tid isCommit).trans h.agreed
  paxosIndex := (paxosIndex_processTpcDecision l tid isCommit).trans h.paxosIndex
  applied := fun t ht => (h.left.applied_decide tid isCommit ht).trans (h.applied t ht)

theorem sweep (h : SameView X l l') : SameView X l.sweep l' := by
  refine List.foldlRecOn (motive := fun m : Ledger => SameView X m l') l.expired timeoutTransaction h ?_
  intro m hm tid _
  rw [timeoutTransaction_eq]
  exact hm.decide tid false

end SameView

end Ledger

/-! ## Replicas -/

/-- The request of a peer that the event delivers. -/
def Event.peerCall : Event → Bool
  | .prepareCall _ => true
  | .acceptCall _ => true
  | .commitCall _ => true
  | _ => false

/-- The event is a decision of the coordinator, a timeout sweep, or time passing. -/
def Event.tpc : Event → Bool
  | .input (.tpcDecision _ _) => true
  | .input .sweep => true
  | .input (.tick _) => true
  | _ => false

/-- In a shard, the tids of the cross-shard requests are in `X` and those of the others are not. -/
def splitBy (X : Set Int) (inShard : Int → Bool) (batch : List TransferReq) : Prop :=
  ∀ r ∈ batch, (r.txn.crosses inShard = true → r.tid ∈ X) ∧ (r.txn.within inShard = true → r.tid ∉ X)

/-- The batch an event brings, if any, is split by `X`. -/
def Event.splitBy (X : Set Int) (inShard : Int → Bool) : Event → Prop
  | .acceptCall request => MultiPaxosDB.splitBy X inShard request.batch
  | _ => True

namespace ServerImpl

/-- What the server answers to the request of a peer. -/
def answers (s : ServerImpl) : Event → List RpcRes
  | .prepareCall request => [.prepare (s.processPrepareCall request).2]
  | .acceptCall request => [.accept (s.processAcceptCall request).2]
  | _ => []

/-- Paxos cannot tell the two servers apart: the round control is the same, the ledgers look the same. -/
structure SameView (X : Set Int) (inShard : Int → Bool) (s t : ServerImpl) : Prop where
  ledger : Ledger.SameView X s.ledger t.ledger
  shard : s.ledger.isClientInCluster = inShard
  serverId : s.serverId = t.serverId
  iAmDisconnected : s.iAmDisconnected = t.iAmDisconnected
  ballotNum : s.ballotNum = t.ballotNum
  promised : s.promised = t.promised
  promisedNum : s.promisedNum = t.promisedNum
  accepted : s.accepted = t.accepted
  acceptNum : s.acceptNum = t.acceptNum
  acceptBatch : s.acceptBatch = t.acceptBatch
  /-- What a commit would apply is not a pending tid. -/
  within : ∀ r ∈ s.acceptBatch, r.txn.within inShard = true → r.tid ∉ X

variable {X : Set Int} {inShard : Int → Bool} {s t : ServerImpl}

/-- What was sent is not part of the view. -/
theorem SameView.clear (h : s.SameView X inShard t) :
    SameView X inShard { s with outbox := [] } { t with outbox := [] } :=
  ⟨h.ledger, h.shard, h.serverId, h.iAmDisconnected, h.ballotNum, h.promised, h.promisedNum, h.accepted,
    h.acceptNum, h.acceptBatch, h.within⟩

/-- Decisions, sweeps and ticks on one side do not show. -/
theorem SameView.tpc (h : s.SameView X inShard t) {e : Event} (he : e.tpc = true) :
    (s.handle e).SameView X inShard t := by
  have hchange : ∀ {l}, Ledger.SameView X l t.ledger →
      SameView X inShard { s with outbox := [], ledger := l } t := by
    intro l hl
    have hshard : l.isClientInCluster = inShard := hl.inShard.trans (h.ledger.inShard.symm.trans h.shard)
    exact ⟨hl, hshard, h.serverId, h.iAmDisconnected, h.ballotNum, h.promised, h.promisedNum, h.accepted,
      h.acceptNum, h.acceptBatch, h.within⟩
  cases e with
  | input i =>
    cases i with
    | tpcDecision tid isCommit =>
      show SameView X inShard (processTpcDecision { s with outbox := [] } tid isCommit) t
      unfold processTpcDecision
      split
      · exact hchange h.ledger
      · exact hchange (h.ledger.decide tid isCommit)
    | sweep => exact hchange h.ledger.sweep
    | tick ms => exact hchange (h.ledger.frame (.touch _ _ _) (.touch _ _ _))
    | _ => cases he
  | _ => cases he

/-! ### The three calls -/

theorem SameView.acceptLoop (h : Ledger.SameView X s.ledger t.ledger)
    (hshard : s.ledger.isClientInCluster = inShard) (ballot : Ballot) {batch : List TransferReq}
    (hbatch : splitBy X inShard batch) :
    Ledger.SameView X (batch.foldl (acceptEntry ballot) s.ledger) (batch.foldl (acceptEntry ballot) t.ledger) ∧
      (batch.foldl (acceptEntry ballot) s.ledger).isClientInCluster = inShard := by
  refine List.foldl_rel (r := fun l l' => Ledger.SameView X l l' ∧ l.isClientInCluster = inShard)
    ⟨h, hshard⟩ ?_
  rintro r hr l l' ⟨hl, hin⟩
  have hlocked := hl.frame (.lockBoth l r.txn.sender r.txn.receiver) (.lockBoth l' r.txn.sender r.txn.receiver)
  have hcross : crossHere l r.txn = crossHere l' r.txn := by
    unfold crossHere
    rw [hl.inShard]
  refine ⟨?_, (isClientInCluster_acceptEntry ballot l r).trans hin⟩
  unfold acceptEntry
  rw [← hcross]
  split
  · rename_i hkind
    refine hlocked.prepare ((hbatch r hr).1 ?_) ballot
    rw [← hin]
    exact hkind
  · exact hlocked

theorem SameView.commitLoop (h : Ledger.SameView X s.ledger t.ledger)
    (hshard : s.ledger.isClientInCluster = inShard) (ballot : Ballot) {batch : List TransferReq}
    (hbatch : ∀ r ∈ batch, r.txn.within inShard = true → r.tid ∉ X) :
    Ledger.SameView X (batch.foldl (commitAccepted ballot) s.ledger)
        (batch.foldl (commitAccepted ballot) t.ledger) ∧
      (batch.foldl (commitAccepted ballot) s.ledger).isClientInCluster = inShard := by
  refine List.foldl_rel (r := fun l l' => Ledger.SameView X l l' ∧ l.isClientInCluster = inShard)
    ⟨h, hshard⟩ ?_
  rintro r hr l l' ⟨hl, hin⟩
  have hfree := hl.frame (.unlockBoth l r.txn.sender r.txn.receiver) (.unlockBoth l' r.txn.sender r.txn.receiver)
  have hintra : intraHere l r.txn = intraHere l' r.txn := by
    unfold intraHere
    rw [hl.inShard]
  refine ⟨?_, (isClientInCluster_commitAccepted ballot l r).trans hin⟩
  unfold commitAccepted
  rw [← hintra]
  split
  · rename_i hkind
    refine hfree.commit (hbatch r hr ?_) ballot
    rw [← hin]
    exact hkind
  · exact hfree

theorem SameView.promise (h : s.SameView X inShard t) (request : PrepareReq) :
    (s.promise request).SameView X inShard (t.promise request) := by
  unfold ServerImpl.promise
  rw [h.ballotNum, h.ledger.paxosIndex]
  split
  · split
    · exact ⟨h.ledger, h.shard, h.serverId, h.iAmDisconnected, rfl, rfl, rfl, h.accepted, h.acceptNum,
        h.acceptBatch, h.within⟩
    · split
      · exact ⟨h.ledger, h.shard, h.serverId, h.iAmDisconnected, rfl, h.promised, h.promisedNum,
          h.accepted, h.acceptNum, h.acceptBatch, h.within⟩
      · exact h
  · exact h

theorem SameView.processPrepareCall (h : s.SameView X inShard t) (request : PrepareReq) :
    (s.processPrepareCall request).1.SameView X inShard (t.processPrepareCall request).1 ∧
      (s.processPrepareCall request).2 = (t.processPrepareCall request).2 := by
  have hview := h.promise request
  have hack : s.promises request = t.promises request := by
    unfold promises
    rw [h.ballotNum, h.ledger.paxosIndex]
  unfold ServerImpl.processPrepareCall
  rw [h.iAmDisconnected]
  split
  · exact ⟨h, rfl⟩
  · -- the answer reads the state the promise left
    dsimp only
    rw [hack, hview.accepted, hview.acceptNum, hview.acceptBatch, hview.serverId, hview.ballotNum,
      hview.ledger.paxosIndex]
    split
    · exact ⟨hview, rfl⟩
    · split
      · exact ⟨hview, rfl⟩
      · exact ⟨hview, rfl⟩

theorem SameView.processAcceptCall (h : s.SameView X inShard t) {request : AcceptReq}
    (hbatch : splitBy X inShard request.batch) :
    (s.processAcceptCall request).1.SameView X inShard (t.processAcceptCall request).1 ∧
      (s.processAcceptCall request).2 = (t.processAcceptCall request).2 := by
  have hack : s.accepts request = t.accepts request := by
    unfold accepts
    rw [h.promised, h.promisedNum]
  unfold ServerImpl.processAcceptCall
  rw [h.iAmDisconnected, hack]
  split
  · exact ⟨h, rfl⟩
  · split
    · obtain ⟨hledger, hshard⟩ := SameView.acceptLoop h.ledger h.shard request.ballot hbatch
      exact ⟨⟨hledger, hshard, h.serverId, rfl, h.ballotNum, h.promised, h.promisedNum, rfl,
        rfl, rfl, fun r hr => (hbatch r hr).2⟩, rfl⟩
    · exact ⟨h, rfl⟩

theorem SameView.processCommitCall (h : s.SameView X inShard t) (request : CommitReq) :
    (s.processCommitCall request).SameView X inShard (t.processCommitCall request) := by
  have hcommits : s.commits request = t.commits request := by
    unfold commits
    rw [h.promisedNum, h.acceptNum]
  unfold ServerImpl.processCommitCall
  rw [h.iAmDisconnected, hcommits]
  split
  · exact h
  · split
    · -- what is committed here is no pending tid, so no decision can have applied it on one side only
      obtain ⟨hledger, hshard⟩ := SameView.commitLoop h.ledger h.shard s.acceptNum h.within
      rw [← h.acceptNum, ← h.acceptBatch]
      exact ⟨hledger, hshard, h.serverId, rfl, h.ballotNum, rfl, h.promisedNum, rfl, rfl, rfl, h.within⟩
    · exact h

/-- `SameView` unwinds the decisions, the sweeps and the clock. -/
theorem unwinds_tpc (X : Set Int) (inShard : Int → Bool) :
    Unwinds handle answers Event.peerCall
      (fun e => (e.peerCall = true ∨ e.tpc = true) ∧ e.splitBy X inShard) (SameView X inShard) where
  hidden := by
    rintro s t e h hseen ⟨hkind, -⟩
    have htpc : e.tpc = true := hkind.resolve_left (by rw [hseen]; exact Bool.false_ne_true)
    refine ⟨h.tpc htpc, ?_⟩
    cases e with
    | input i => rfl
    | _ => cases htpc
  shown := by
    rintro s t e h hseen ⟨-, hsplit⟩
    cases e with
    | prepareCall request =>
      exact ⟨(h.clear.processPrepareCall request).1,
        congrArg (fun res => [RpcRes.prepare res]) (h.processPrepareCall request).2⟩
    | acceptCall request =>
      exact ⟨(h.clear.processAcceptCall hsplit).1,
        congrArg (fun res => [RpcRes.accept res]) (h.processAcceptCall hsplit).2⟩
    | commitCall request => exact ⟨h.clear.processCommitCall request, rfl⟩
    | _ => cases hseen

end ServerImpl

/-! ## Two runs -/

/-- **The agreed sequence is insensitive to 2PC decisions.**  Two runs of a replica from one state that
handle the same prepares, accepts and commits, with any decisions and sweeps in between, agree on the
agreed log, on `paxos_index` and on every answer — provided some set `X` of tids contains the pending ones
and those of the cross-shard requests, and none of an intra-shard request. -/
theorem agreed_insensitive_to_decisions (s : ServerImpl) (X : Set Int) (es es' : List Event)
    (hw : s.ledger.wal.Ok) (hpending : ∀ t, (s.ledger.wal.pendingEntry t).isSome → t ∈ X)
    (haccepted : ∀ r ∈ s.acceptBatch, r.txn.within s.ledger.isClientInCluster = true → r.tid ∉ X)
    (hsplit : ∀ e ∈ es ++ es', e.splitBy X s.ledger.isClientInCluster)
    (hkinds : ∀ e ∈ es ++ es', e.peerCall = true ∨ e.tpc = true)
    (hsame : es.filter Event.peerCall = es'.filter Event.peerCall) :
    agreed (es.foldl ServerImpl.handle s).ledger.log = agreed (es'.foldl ServerImpl.handle s).ledger.log ∧
      (es.foldl ServerImpl.handle s).ledger.paxosIndex = (es'.foldl ServerImpl.handle s).ledger.paxosIndex ∧
      trace ServerImpl.handle ServerImpl.answers s es = trace ServerImpl.handle ServerImpl.answers s es' := by
  have hstart : s.SameView X s.ledger.isClientInCluster s :=
    ⟨.refl ⟨hw, hpending⟩, rfl, rfl, rfl, rfl, rfl, rfl, rfl, rfl, rfl, haccepted⟩
  obtain ⟨⟨t, hend, hend'⟩, htrace⟩ := (ServerImpl.unwinds_tpc X s.ledger.isClientInCluster).alike hstart
    (fun e he => ⟨hkinds e (List.mem_append_left _ he), hsplit e (List.mem_append_left _ he)⟩)
    (fun e he => ⟨hkinds e (List.mem_append_right _ he), hsplit e (List.mem_append_right _ he)⟩) hsame
  exact ⟨hend.ledger.agreed.trans hend'.ledger.agreed.symm,
    hend.ledger.paxosIndex.trans hend'.ledger.paxosIndex.symm, htrace⟩

/-- Server 2 takes a round with a cross-shard and an intra-shard transfer.  In one run the commit decision
on the first comes before the round is committed; in the other there is none, and it times out. -/
def mixedRound (decided timedOut : List Event) : List Event :=
  [.prepareCall ⟨⟨1, 1⟩, -1⟩, .acceptCall ⟨⟨1, 1⟩, [⟨⟨1, 1001, 3⟩, 7⟩, ⟨⟨2, 3, 5⟩, 8⟩]⟩] ++ decided ++
    [.commitCall ⟨⟨1, 1⟩⟩] ++ timedOut

theorem agreed_insensitive_to_decisions_mixedRound :
    agreed ((mixedRound [.input (.tpcDecision 7 true)] []).foldl ServerImpl.handle (.fresh ⟨3, 3⟩ 2)).ledger.log =
      agreed ((mixedRound [] [.input (.tick 6000), .input .sweep]).foldl ServerImpl.handle
        (.fresh ⟨3, 3⟩ 2)).ledger.log := by
  refine (agreed_insensitive_to_decisions (.fresh ⟨3, 3⟩ 2) {7} _ _ .empty ?_ ?_ ?_ (by decide) rfl).1
  · intro t ht
    exact absurd ht (by simp [ServerImpl.fresh, Ledger.fresh, WAL.pendingEntry, WAL.empty])
  · exact fun r hr => absurd hr List.not_mem_nil
  · have hbatch : splitBy {7} (ServerImpl.fresh ⟨3, 3⟩ 2).ledger.isClientInCluster
        [⟨⟨1, 1001, 3⟩, 7⟩, ⟨⟨2, 3, 5⟩, 8⟩] := by
      intro r hr
      rcases List.mem_pair.mp hr with rfl | rfl
      · exact ⟨fun _ => rfl, fun h => absurd h (by decide)⟩
      · exact ⟨fun h => absurd h (by decide), fun _ => by decide⟩
    intro e he
    simp only [mixedRound, List.cons_append, List.nil_append, List.append_nil, List.mem_cons,
      List.not_mem_nil, or_false] at he
    rcases he with rfl | rfl | rfl | rfl | rfl | rfl | rfl | rfl | rfl
    all_goals trivial

end MultiPaxosDB
