/-
# MultiPaxosDB.Classification — intra-shard or cross-shard, to the leader and to a replica.

The leader takes an entry for cross-shard if it came in by `TpcPrepare`, and for intra-shard if it came in by
`Transfer`.  A replica sees only the request: it counts the accounts of its shard, and takes an entry with one of them
for cross-shard, with two for intra-shard, and with none for nothing.  No server checks that the request was routed as
the client routes it.

`Led` is the way of one entry through a leader: kept by the validation at a prepare quorum, and in the batch at an
accept quorum.  `Followed` is the way of the same entry through a replica that handles the proposal and a commit.  Each
passes two loops; what is appended for the entry is what its own turns of them append.  The two agree, and money moves
in the shard only, exactly if the request came by the call its accounts ask for and, if it is intra-shard, is new to
both (`classified_alike_iff`).
-/
import MultiPaxosDB.LeaderRound
import MultiPaxosDB.Replicas
import MultiPaxosDB.Sequences

namespace MultiPaxosDB

open Lib Relation

namespace Ledger

variable {l l' : Ledger} {inShard : Int → Bool}

/-! ## What a turn adds -/

/-- The kinds of the agreed entries that were appended from `l` to `l'`: intra-shard commits and cross-shard
prepares. -/
def kindsAdded (l l' : Ledger) : List TransactionType := (agreed (l'.log.drop l.log.length)).map WALEntry.type

/-- Only balances of the shard have changed from `l` to `l'`. -/
def OwnShardOnly (l l' : Ledger) : Prop := ∀ a, l.isClientInCluster a = false → l'.balances a = l.balances a

theorem kindsAdded_append (new : List WALEntry) (hlog : l'.log = l.log ++ new) :
    l.kindsAdded l' = (agreed new).map WALEntry.type := by
  rw [kindsAdded, hlog, List.drop_left]

theorem kindsAdded_nil (hlog : l'.log = l.log) : l.kindsAdded l' = [] :=
  kindsAdded_append [] (hlog.trans (List.append_nil _).symm)

/-- A ledger of the servers of a shard. -/
structure InShard (inShard : Int → Bool) (l : Ledger) : Prop where
  shard : l.isClientInCluster = inShard
  counted : l.Counted

theorem InShard.move (h : l.InShard inShard) (hmove : LedgerMove (fun _ => True) l l') : l'.InShard inShard := by
  refine ⟨?_, h.counted.move hmove⟩
  obtain ⟨hc, hk⟩ := (hmove.step (P := fun _ _ _ _ => True) (S := fun _ => True) fun o _ => by cases o <;> simp [LedgerOp.Sat]).shard
  rw [← h.shard]
  funext a
  rw [Ledger.isClientInCluster, hc, hk]
  rfl

theorem InShard.chain (h : l.InShard inShard) (hchain : ReflTransGen (LedgerMove fun _ => True) l l') :
    l'.InShard inShard :=
  reflTransGen_invariant (fun _ _ hmove hl => hl.move hmove) hchain h

theorem kindsAdded_commitTransaction (hw : l.wal.canWrite = true) (request : TransferReq) (ballot : Ballot) :
    l.kindsAdded (l.commitTransaction request ballot) = if request.tid ∈ l.balanceApplied then [] else [.intra] := by
  split
  · rename_i hold
    exact kindsAdded_nil (by rw [commitTransaction_applied ballot hold])
  · rename_i hnew
    exact kindsAdded_append _ (log_commitTransaction hnew hw ballot)

/-- The commit of a transfer within the shard keeps to the shard. -/
theorem ownShardOnly_commitTransaction (hw : l.wal.canWrite = true) {request : TransferReq} (ballot : Ballot)
    (hwithin : request.txn.within l.isClientInCluster = true) : l.OwnShardOnly (l.commitTransaction request ballot) := by
  intro a ha
  by_cases hold : request.tid ∈ l.balanceApplied
  · rw [commitTransaction_applied ballot hold]
  · obtain ⟨hs, hr⟩ : l.isClientInCluster request.txn.sender = true ∧ l.isClientInCluster request.txn.receiver = true := by
      simpa [Transaction.within] using hwithin
    have hsender : request.txn.sender ≠ a := by
      rintro rfl
      rw [ha] at hs
      cases hs
    have hreceiver : request.txn.receiver ≠ a := by
      rintro rfl
      rw [ha] at hr
      cases hr
    rw [balances_commitTransaction hold hw, Transaction.effect_of_ne hsender.symm hreceiver.symm, add_ofInt_zero]

theorem InShard.crossHere (h : l.InShard inShard) (txn : Transaction) : ServerImpl.crossHere l txn = txn.crosses inShard := by
  rw [ServerImpl.crossHere, h.shard]
  rfl

theorem InShard.intraHere (h : l.InShard inShard) (txn : Transaction) : ServerImpl.intraHere l txn = txn.within inShard := by
  rw [ServerImpl.intraHere, h.shard]
  rfl

end Ledger

namespace ServerImpl

variable {l : Ledger} {inShard : Int → Bool}

/-! ## The turns of an entry -/

/-- The leader logs a kept entry at once if it is cross-shard by its call. -/
theorem kindsAdded_validateEntry (ballot : Ballot) {a : Admission} {b : BatchEntry}
    (hkept : rejects a.ledger b.request.txn = false) :
    a.ledger.kindsAdded (validateEntry ballot a b).ledger = if b.isCrossShard then [.cross] else [] := by
  rw [validateEntry, if_neg (by simp [hkept])]
  cases b.isCrossShard with
  | true => exact Ledger.kindsAdded_append [WAL.preparedEntry b.request ballot] rfl
  | false => exact Ledger.kindsAdded_nil rfl

theorem ownShardOnly_validateEntry (ballot : Ballot) (a : Admission) (b : BatchEntry) :
    a.ledger.OwnShardOnly (validateEntry ballot a b).ledger := by
  intro x _
  unfold validateEntry
  dsimp only
  split
  · rfl
  · split <;> rfl

/-- It commits the others, if they are new to it. -/
theorem kindsAdded_commitEntry (hw : l.wal.canWrite = true) (ballot : Ballot) (b : BatchEntry) :
    l.kindsAdded (commitEntry ballot l b) =
      if b.isCrossShard then [] else if b.request.tid ∈ l.balanceApplied then [] else [.intra] := by
  unfold commitEntry
  split
  · exact Ledger.kindsAdded_nil rfl
  · exact Ledger.kindsAdded_commitTransaction (l := l.unlockBoth b.request.txn) hw b.request ballot

theorem ownShardOnly_commitEntry (h : l.InShard inShard) (ballot : Ballot) {b : BatchEntry}
    (hrouted : b.isCrossShard = false → b.request.txn.within inShard = true) : l.OwnShardOnly (commitEntry ballot l b) := by
  unfold commitEntry
  split
  · exact fun _ _ => rfl
  · rename_i hintra
    have hwithin : b.request.txn.within l.isClientInCluster = true := by
      rw [h.shard]
      exact hrouted (by simpa using hintra)
    exact Ledger.ownShardOnly_commitTransaction (l := l.unlockBoth b.request.txn) h.counted.wal.canWrite ballot hwithin

/-- A replica logs what it accepts if one account is in the shard. -/
theorem kindsAdded_acceptEntry (h : l.InShard inShard) (ballot : Ballot) (r : TransferReq) :
    l.kindsAdded (acceptEntry ballot l r) = if r.txn.crosses inShard then [.cross] else [] := by
  rw [acceptEntry, h.crossHere]
  cases r.txn.crosses inShard with
  | true => exact Ledger.kindsAdded_append [WAL.preparedEntry r ballot] rfl
  | false => exact Ledger.kindsAdded_nil rfl

theorem ownShardOnly_acceptEntry (ballot : Ballot) (l : Ledger) (r : TransferReq) :
    l.OwnShardOnly (acceptEntry ballot l r) := by
  intro x _
  unfold acceptEntry
  dsimp only
  split <;> rfl

/-- It commits the entries with both. -/
theorem kindsAdded_commitAccepted (h : l.InShard inShard) (ballot : Ballot) (r : TransferReq) :
    l.kindsAdded (commitAccepted ballot l r) =
      if r.txn.within inShard then if r.tid ∈ l.balanceApplied then [] else [.intra] else [] := by
  rw [commitAccepted, h.intraHere]
  cases r.txn.within inShard with
  | true =>
    exact Ledger.kindsAdded_commitTransaction
      (l := (l.unlockInShard r.txn.sender).unlockInShard r.txn.receiver) h.counted.wal.canWrite r ballot
  | false => exact Ledger.kindsAdded_nil rfl

theorem ownShardOnly_commitAccepted (h : l.InShard inShard) (ballot : Ballot) (r : TransferReq) :
    l.OwnShardOnly (commitAccepted ballot l r) := by
  unfold commitAccepted
  dsimp only
  split
  · rename_i hintra
    exact Ledger.ownShardOnly_commitTransaction
      (l := (l.unlockInShard r.txn.sender).unlockInShard r.txn.receiver) h.counted.wal.canWrite ballot hintra
  · exact fun _ _ => rfl

end ServerImpl

/-! ## The way of an entry -/

open ServerImpl (admitAll validateEntry commitEntry acceptEntry commitAccepted rejects)

/-- Server `i` leads the entry `b`: in some state of its life the entry is in the batch of a prepare quorum and is
kept, and in some later state it is in the batch of an accept quorum. -/
structure Led (c : Constants) (i : Int) (b : BatchEntry) where
  life : List LifeEvent
  quorum : Event
  quorum_turn : (ServerImpl.life c i life).turn quorum = some .prepareQuorum
  before : List BatchEntry
  after : List BatchEntry
  batch : (ServerImpl.life c i life).current = before ++ b :: after
  kept : rejects (admitAll (ServerImpl.life c i life).ledger (ServerImpl.life c i life).promisedNum before).ledger
    b.request.txn = false
  later : List LifeEvent
  commit : Event
  commit_turn : (ServerImpl.life c i (life ++ .event quorum :: later)).turn commit = some .acceptQuorum
  committed : List BatchEntry
  toCommit : List BatchEntry
  commit_batch : (ServerImpl.life c i (life ++ .event quorum :: later)).current = committed ++ b :: toCommit

namespace Led

variable {c : Constants} {i : Int} {b : BatchEntry} (L : Led c i b)

/-- The leader at its prepare quorum. -/
def proposer : ServerImpl := ServerImpl.life c i L.life

/-- The leader at its accept quorum. -/
def committer : ServerImpl := ServerImpl.life c i (L.life ++ .event L.quorum :: L.later)

/-- The validation loop when it comes to the entry. -/
def validation : ServerImpl.Admission := admitAll L.proposer.ledger L.proposer.promisedNum L.before

/-- The commit loop when it comes to the entry. -/
def commitment : Ledger := L.committed.foldl (commitEntry L.committer.acceptNum) L.committer.ledger

/-- What the leader appends for the entry. -/
def kinds : List TransactionType :=
  L.validation.ledger.kindsAdded (validateEntry L.proposer.promisedNum L.validation b).ledger ++
    L.commitment.kindsAdded (commitEntry L.committer.acceptNum L.commitment b)

/-- The entry changes balances of the leader's shard only. -/
def OwnShardOnly : Prop :=
  L.validation.ledger.OwnShardOnly (validateEntry L.proposer.promisedNum L.validation b).ledger ∧
    L.commitment.OwnShardOnly (commitEntry L.committer.acceptNum L.commitment b)

/-- The two handlers run these turns. -/
theorem handles :
    (L.proposer.handle L.quorum).ledger =
        (L.after.foldl (validateEntry L.proposer.promisedNum) (validateEntry L.proposer.promisedNum L.validation b)).ledger ∧
      (L.committer.handle L.commit).ledger =
        L.toCommit.foldl (commitEntry L.committer.acceptNum) (commitEntry L.committer.acceptNum L.commitment b) := by
  constructor
  · have hturned := L.proposer.handle_turned L.quorum
    rw [show L.proposer.turn L.quorum = _ from L.quorum_turn] at hturned
    generalize L.proposer.handle L.quorum = u at hturned ⊢
    cases hturned with
    | prepareQuorum x y _ =>
      rw [ServerImpl.ledger_onPrepareQuorum]
      show (admitAll L.proposer.ledger L.proposer.promisedNum L.proposer.current).ledger = _
      rw [show L.proposer.current = _ from L.batch, admitAll, List.foldl_append]
      rfl
  · have hturned := L.committer.handle_turned L.commit
    rw [show L.committer.turn L.commit = _ from L.commit_turn] at hturned
    generalize L.committer.handle L.commit = u at hturned ⊢
    cases hturned with
    | acceptQuorum x y _ =>
      rw [ServerImpl.onAcceptQuorum, ServerImpl.ledger_finishRound]
      show L.committer.current.foldl (commitEntry L.committer.acceptNum) L.committer.ledger = _
      rw [show L.committer.current = _ from L.commit_batch, List.foldl_append]
      rfl

end Led

/-- Server `j` follows: it accepts the proposal, and later a commit of a batch that has the request. -/
structure Followed {c : Constants} {i : Int} {b : BatchEntry} (L : Led c i b) where
  server : Int
  peer : server ∈ stubsOf c i
  life : List LifeEvent
  connected : (ServerImpl.life c server life).iAmDisconnected = false
  accepts : (ServerImpl.life c server life).accepts L.proposer.proposal = true
  later : List LifeEvent
  announced : CommitReq
  announcement : announced.ballot = L.committer.acceptNum
  commit_connected : (ServerImpl.life c server (life ++ .event (.acceptCall L.proposer.proposal) :: later)).iAmDisconnected = false
  commits : (ServerImpl.life c server (life ++ .event (.acceptCall L.proposer.proposal) :: later)).commits announced = true
  committed : List TransferReq
  toCommit : List TransferReq
  commit_batch : (ServerImpl.life c server (life ++ .event (.acceptCall L.proposer.proposal) :: later)).acceptBatch =
    committed ++ b.request :: toCommit

/-- What is kept is only added to. -/
theorem kept_foldl_validateEntry (ballot : Ballot) (bs : List BatchEntry) (a : ServerImpl.Admission) :
    ∃ more, (bs.foldl (validateEntry ballot) a).kept = a.kept ++ more := by
  refine List.foldlRecOn (motive := fun a' : ServerImpl.Admission => ∃ more, a'.kept = a.kept ++ more) bs _
    ⟨[], (List.append_nil _).symm⟩ ?_
  rintro a' ⟨more, hmore⟩ b _
  unfold validateEntry
  split
  · exact ⟨more, hmore⟩
  · exact ⟨more ++ [b], by rw [hmore, List.append_assoc]⟩

/-- The entry is in the proposal, after those kept before it. -/
theorem Led.proposal {c : Constants} {i : Int} {b : BatchEntry} (L : Led c i b) :
    ∃ more, L.proposer.proposal.batch = L.validation.kept.map BatchEntry.request ++ b.request :: more := by
  obtain ⟨more, hmore⟩ := kept_foldl_validateEntry L.proposer.promisedNum L.after
    (validateEntry L.proposer.promisedNum L.validation b)
  refine ⟨more.map BatchEntry.request, ?_⟩
  show ((admitAll L.proposer.ledger L.proposer.promisedNum L.proposer.current).kept).map BatchEntry.request = _
  rw [show L.proposer.current = _ from L.batch, admitAll, List.foldl_append, List.foldl_cons]
  show ((L.after.foldl (validateEntry L.proposer.promisedNum) (validateEntry L.proposer.promisedNum L.validation b)).kept).map
    BatchEntry.request = _
  have hkept : rejects L.validation.ledger b.request.txn = false := L.kept
  rw [hmore, validateEntry, if_neg (by simp [hkept])]
  simp

namespace Followed

variable {c : Constants} {i : Int} {b : BatchEntry} {L : Led c i b} (R : Followed L)

/-- The replica when it is sent the proposal. -/
def acceptor : ServerImpl := ServerImpl.life c R.server R.life

/-- The replica when it is told to commit. -/
def committer : ServerImpl :=
  ServerImpl.life c R.server (R.life ++ .event (.acceptCall L.proposer.proposal) :: R.later)

/-- The loop of `processAcceptCall` when it comes to the entry. -/
def acceptance : Ledger :=
  (L.validation.kept.map BatchEntry.request).foldl (acceptEntry L.proposer.promisedNum) R.acceptor.ledger

/-- The loop of `processCommitCall` when it comes to the entry. -/
def commitment : Ledger := R.committed.foldl (commitAccepted R.committer.acceptNum) R.committer.ledger

/-- What the replica appends for the entry. -/
def kinds : List TransactionType :=
  R.acceptance.kindsAdded (acceptEntry L.proposer.promisedNum R.acceptance b.request) ++
    R.commitment.kindsAdded (commitAccepted R.committer.acceptNum R.commitment b.request)

/-- The entry changes balances of the replica's shard only. -/
def OwnShardOnly : Prop :=
  R.acceptance.OwnShardOnly (acceptEntry L.proposer.promisedNum R.acceptance b.request) ∧
    R.commitment.OwnShardOnly (commitAccepted R.committer.acceptNum R.commitment b.request)

/-- The two handlers run these turns. -/
theorem handles :
    (∃ more : List TransferReq, (R.acceptor.handle (.acceptCall L.proposer.proposal)).ledger =
        more.foldl (acceptEntry L.proposer.promisedNum) (acceptEntry L.proposer.promisedNum R.acceptance b.request)) ∧
      (R.committer.handle (.commitCall R.announced)).ledger =
        R.toCommit.foldl (commitAccepted R.committer.acceptNum)
          (commitAccepted R.committer.acceptNum R.commitment b.request) := by
  constructor
  · obtain ⟨more, hmore⟩ := L.proposal
    refine ⟨more, ?_⟩
    have hconn : R.acceptor.iAmDisconnected = false := R.connected
    have hacc : R.acceptor.accepts L.proposer.proposal = true := R.accepts
    show (if R.acceptor.iAmDisconnected then _ else if R.acceptor.accepts L.proposer.proposal then _ else _ :
      ServerImpl × AcceptRes).1.ledger = _
    rw [if_neg (by simp [hconn]), if_pos hacc]
    show L.proposer.proposal.batch.foldl (acceptEntry L.proposer.promisedNum) R.acceptor.ledger = _
    rw [hmore, List.foldl_append]
    rfl
  · have hconn : R.committer.iAmDisconnected = false := R.commit_connected
    have hcom : R.committer.commits R.announced = true := R.commits
    show (if R.committer.iAmDisconnected then _ else if R.committer.commits R.announced then _ else _ :
      ServerImpl).ledger = _
    rw [if_neg (by simp [hconn]), if_pos hcom]
    show R.committer.acceptBatch.foldl (commitAccepted R.committer.acceptNum) R.committer.ledger = _
    rw [show R.committer.acceptBatch = _ from R.commit_batch, List.foldl_append]
    rfl

end Followed

/-! ## The two classifications -/

section Classified

variable {c : Constants} {i : Int} {b : BatchEntry} {L : Led c i b}

theorem inShard_life (c : Constants) (i : Int) (v : List LifeEvent) :
    (ServerImpl.life c i v).ledger.InShard (shardOf c i) :=
  ⟨(ServerImpl.alive_life c i v).shard, ServerImpl.counted_life c i v⟩

theorem Led.inShard (L : Led c i b) : L.commitment.InShard (shardOf c i) :=
  (inShard_life c i _).chain (ServerImpl.commitEntry_chain _ _ fun _ _ _ => trivial)

theorem Followed.shardOf_server (R : Followed L) : shardOf c R.server = shardOf c i := by
  funext a
  rw [shardOf, (mem_stubsOf.mp R.peer).2.1]
  rfl

theorem Followed.inShard (R : Followed L) :
    R.acceptance.InShard (shardOf c i) ∧ R.commitment.InShard (shardOf c i) := by
  rw [← R.shardOf_server]
  exact ⟨(inShard_life c R.server _).chain (ServerImpl.acceptEntry_chain _ fun _ _ _ => trivial),
    (inShard_life c R.server _).chain (ServerImpl.commitAccepted_chain _ fun _ _ _ => trivial)⟩

theorem Led.kinds_eq (L : Led c i b) : L.kinds =
    if b.isCrossShard then [.cross] else if b.request.tid ∈ L.commitment.balanceApplied then [] else [.intra] := by
  rw [Led.kinds, ServerImpl.kindsAdded_validateEntry _ (show rejects L.validation.ledger b.request.txn = false from L.kept),
    ServerImpl.kindsAdded_commitEntry L.inShard.counted.wal.canWrite]
  cases b.isCrossShard <;> rfl

theorem Followed.kinds_eq (R : Followed L) : R.kinds =
    if b.request.txn.crosses (shardOf c i) then [.cross]
    else if b.request.txn.within (shardOf c i) then
      if b.request.tid ∈ R.commitment.balanceApplied then [] else [.intra]
    else [] := by
  rw [Followed.kinds, ServerImpl.kindsAdded_acceptEntry R.inShard.1, ServerImpl.kindsAdded_commitAccepted R.inShard.2]
  cases hwithin : b.request.txn.within (shardOf c i) with
  | true => rw [Transaction.not_crosses_of_within hwithin]; rfl
  | false => cases b.request.txn.crosses (shardOf c i) <;> rfl

/-- Leader and replica append one entry of the same kind, and neither changes a balance outside its shard. -/
structure ClassifiedAlike (L : Led c i b) (R : Followed L) : Prop where
  kind : ∃ kind, L.kinds = [kind] ∧ R.kinds = [kind]
  leader : L.OwnShardOnly
  replica : R.OwnShardOnly

/-- A request that came by the call its accounts ask for moves no money outside the shard. -/
theorem ownShardOnly_of_routed (R : Followed L)
    (hrouted : b.isCrossShard = false → b.request.txn.within (shardOf c i) = true) : L.OwnShardOnly ∧ R.OwnShardOnly :=
  ⟨⟨ServerImpl.ownShardOnly_validateEntry _ _ _, ServerImpl.ownShardOnly_commitEntry L.inShard _ hrouted⟩,
    ServerImpl.ownShardOnly_acceptEntry _ _ _, ServerImpl.ownShardOnly_commitAccepted R.inShard.2 _ _⟩

theorem same_kind_iff (R : Followed L) : (∃ kind, L.kinds = [kind] ∧ R.kinds = [kind]) ↔
    (b.isCrossShard = true ∧ b.request.txn.crosses (shardOf c i) = true) ∨
    (b.isCrossShard = false ∧ b.request.txn.within (shardOf c i) = true ∧
      b.request.tid ∉ L.commitment.balanceApplied ∧ b.request.tid ∉ R.commitment.balanceApplied) := by
  rw [L.kinds_eq, R.kinds_eq]
  constructor
  · rintro ⟨kind, hl, hr⟩
    cases hcross : b.isCrossShard with
    | true =>
      -- the replica has logged a prepare only if one account is its own
      rw [hcross, if_pos rfl] at hl
      obtain rfl : .cross = kind := List.head_eq_of_cons_eq hl
      refine .inl ⟨rfl, ?_⟩
      split_ifs at hr with h
      · exact h
      · cases hr
    | false =>
      rw [hcross, if_neg Bool.false_ne_true] at hl
      split_ifs at hl with hold
      obtain rfl : .intra = kind := List.head_eq_of_cons_eq hl
      split_ifs at hr with h hwithin hold'
      · cases hr
      · exact .inr ⟨rfl, hwithin, hold, hold'⟩
  · rintro (⟨hcross, h⟩ | ⟨hintra, hwithin, hold, hold'⟩)
    · exact ⟨.cross, by rw [if_pos hcross], by rw [if_pos h]⟩
    · refine ⟨.intra, ?_, ?_⟩
      · rw [if_neg (by simp [hintra]), if_neg hold]
      · rw [if_neg (by simp [Transaction.not_crosses_of_within hwithin]), if_pos hwithin, if_neg hold']

end Classified

/-- **Leader and replica classify an entry alike** exactly if it came by `TpcPrepare` and has one account in the shard,
or it came by `Transfer`, has both, and is not applied yet on either. -/
theorem classified_alike_iff (c : Constants) (i : Int) (b : BatchEntry) (L : Led c i b) (R : Followed L) :
    ClassifiedAlike L R ↔
      (b.isCrossShard = true ∧ b.request.txn.crosses (shardOf c i) = true) ∨
      (b.isCrossShard = false ∧ b.request.txn.within (shardOf c i) = true ∧
        b.request.tid ∉ L.commitment.balanceApplied ∧ b.request.tid ∉ R.commitment.balanceApplied) := by
  constructor
  · intro h
    exact (same_kind_iff R).mp h.kind
  · intro h
    obtain ⟨hleader, hreplica⟩ := ownShardOnly_of_routed R fun hintra => by
      rcases h with ⟨hcross, -⟩ | ⟨-, hwithin, -⟩
      · rw [hintra] at hcross
        cases hcross
      · exact hwithin
    exact ⟨(same_kind_iff R).mpr h, hleader, hreplica⟩

/-- A transfer between two accounts of the shard, sent to server 1 by `TpcPrepare` or by `Transfer`. -/
def withinShard (isCross : Bool) : BatchEntry := ⟨⟨⟨1, 2, 3⟩, 7⟩, 0, isCross⟩

/-- Server 1 leads it with server 2. -/
def withinShardLed (isCross : Bool) : Led ⟨3, 3⟩ 1 (withinShard isCross) where
  life := [.event (.input (if isCross then .tpcPrepare 0 ⟨⟨1, 2, 3⟩, 7⟩ else .transfer 0 ⟨⟨1, 2, 3⟩, 7⟩))]
  quorum := .prepareReply .ok ⟨⟨1, 1⟩, -1⟩ (ServerImpl.plainPrepareRes true ⟨1, 1⟩)
  quorum_turn := by cases isCross <;> decide +kernel
  before := []
  after := []
  batch := by cases isCross <;> decide +kernel
  kept := by cases isCross <;> decide +kernel
  later := []
  commit := .acceptReply .ok ⟨⟨1, 1⟩, [⟨⟨1, 2, 3⟩, 7⟩]⟩ ⟨true, ⟨1, 1⟩⟩
  commit_turn := by cases isCross <;> decide +kernel
  committed := []
  toCommit := []
  commit_batch := by cases isCross <;> decide +kernel

def withinShardFollowed (isCross : Bool) : Followed (withinShardLed isCross) where
  server := 2
  peer := by decide +kernel
  life := [.event (.prepareCall ⟨⟨1, 1⟩, -1⟩)]
  connected := by decide +kernel
  accepts := by cases isCross <;> decide +kernel
  later := []
  announced := ⟨⟨1, 1⟩⟩
  announcement := by cases isCross <;> decide +kernel
  commit_connected := by cases isCross <;> decide +kernel
  commits := by cases isCross <;> decide +kernel
  committed := []
  toCommit := []
  commit_batch := by cases isCross <;> decide +kernel

/-- By `Transfer` it is an intra-shard commit to both. -/
theorem classified_alike_iff_byTransfer : ClassifiedAlike (withinShardLed false) (withinShardFollowed false) :=
  (classified_alike_iff ⟨3, 3⟩ 1 (withinShard false) (withinShardLed false) (withinShardFollowed false)).mpr
    (.inr (by decide +kernel))

/-- By `TpcPrepare` it is a cross-shard prepare to the leader, and an intra-shard commit to the replica. -/
theorem within_shard_by_tpc_differs :
    ¬ ∀ (c : Constants) (i : Int) (b : BatchEntry) (L : Led c i b) (R : Followed L), ClassifiedAlike L R := by
  intro h
  obtain ⟨kind, hl, hr⟩ := (h ⟨3, 3⟩ 1 (withinShard true) (withinShardLed true) (withinShardFollowed true)).kind
  have hdiffer : (withinShardLed true).kinds ≠ (withinShardFollowed true).kinds := by decide +kernel
  exact hdiffer (hl.trans hr.symm)

end MultiPaxosDB
