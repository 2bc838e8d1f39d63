/-
# MultiPaxosDB.Locks — when a prepared transaction keeps its locks.

`locks` is a set of accounts without owners, and seven handlers change it.  `TwoPhaseLocked` asks that
every undecided 2PC transaction has its accounts of the shard in it.  Locking and preparing keep that
(`validateEntry`, `acceptEntry`); every handler that releases, and the catch-up sync, which prepares
without locking, may break it.  `keepsLocks` says of an event, from the state it finds, when it does
not — and this is exact: a run of a server keeps two-phase locking if and only if all its events are of
that kind (`locks_held_iff`).  The plain course of a cross-shard transaction at a replica is not
(`locks_dropped_at_commit`).
-/
import MultiPaxosDB.Cluster
import MultiPaxosDB.LedgerInvariant

namespace MultiPaxosDB

open Lib

namespace Ledger

/-- The accounts of a transaction that live in the shard. -/
def inShard (l : Ledger) (txn : Transaction) : List Int :=
  [txn.sender, txn.receiver].filter l.isClientInCluster

theorem mem_inShard {l : Ledger} {txn : Transaction} {a : Int} :
    a ∈ l.inShard txn ↔ (a = txn.sender ∨ a = txn.receiver) ∧ l.isClientInCluster a = true := by
  simp [inShard]

/-- Every prepared and undecided transaction has its accounts of the shard locked. -/
def TwoPhaseLocked (l : Ledger) : Prop :=
  ∀ e ∈ l.wal.undecided, ∀ a ∈ l.inShard e.txn, a ∈ l.locks

instance (l : Ledger) : Decidable l.TwoPhaseLocked :=
  inferInstanceAs (Decidable (∀ e ∈ l.wal.undecided, ∀ a ∈ l.inShard e.txn, a ∈ l.locks))

/-! ## Locks, operation by operation -/

theorem mem_locks_lockBoth {l : Ledger} {txn : Transaction} {a : Int} :
    a ∈ ((l.lockInShard txn.sender).lockInShard txn.receiver).locks ↔ a ∈ l.locks ∨ a ∈ l.inShard txn := by
  simp only [lockInShard, mem_inShard]
  by_cases hs : l.isClientInCluster txn.sender <;> by_cases hr : l.isClientInCluster txn.receiver <;>
    grind [isClientInCluster]

theorem mem_locks_unlockBothInShard {l : Ledger} {txn : Transaction} {a : Int} :
    a ∈ ((l.unlockInShard txn.sender).unlockInShard txn.receiver).locks ↔
      a ∈ l.locks ∧ a ∉ l.inShard txn := by
  simp only [unlockInShard, mem_inShard]
  by_cases hs : l.isClientInCluster txn.sender <;> by_cases hr : l.isClientInCluster txn.receiver <;>
    grind [isClientInCluster]

theorem mem_locks_unlockBoth {l : Ledger} {txn : Transaction} {a : Int} :
    a ∈ (l.unlockBoth txn).locks ↔ a ∈ l.locks ∧ a ≠ txn.sender ∧ a ≠ txn.receiver := by
  simp only [unlockBoth, Finset.mem_erase]
  tauto

@[simp]
theorem locks_commitTransaction (l : Ledger) (request : TransferReq) (ballot : Ballot) :
    (l.commitTransaction request ballot).locks = l.locks := by
  unfold commitTransaction
  split <;> rfl

/-! ## Pending transactions, operation by operation -/

/-- Some undecided transaction holds the account. -/
def Needed (l : Ledger) (a : Int) : Prop := ∃ t e, l.wal.pendingEntry t = some e ∧ a ∈ l.inShard e.txn

theorem twoPhaseLocked_iff {l : Ledger} : l.TwoPhaseLocked ↔ ∀ a, l.Needed a → a ∈ l.locks := by
  constructor
  · rintro h a ⟨t, e, he, ha⟩
    exact h e (WAL.mem_undecided.mpr ⟨t, he⟩) a ha
  · intro h e he a ha
    obtain ⟨t, ht⟩ := WAL.mem_undecided.mp he
    exact h a ⟨t, e, ht, ha⟩

/-- The same transactions are pending in the same shard. -/
structure SamePending (l l' : Ledger) : Prop where
  ok : l'.wal.Ok
  constants : l'.constants = l.constants
  clusterId : l'.clusterId = l.clusterId
  pending : ∀ t, l'.wal.pendingEntry t = l.wal.pendingEntry t

namespace SamePending

variable {l l' l'' : Ledger}

theorem refl (hw : l.wal.Ok) : l.SamePending l := ⟨hw, rfl, rfl, fun _ => rfl⟩

theorem trans (h : l.SamePending l') (h' : l'.SamePending l'') : l.SamePending l'' :=
  ⟨h'.ok, h'.constants.trans h.constants, h'.clusterId.trans h.clusterId,
    fun t => (h'.pending t).trans (h.pending t)⟩

theorem commitTransaction (hw : l.wal.Ok) (request : TransferReq) (ballot : Ballot) :
    l.SamePending (l.commitTransaction request ballot) := by
  by_cases hnew : request.tid ∈ l.balanceApplied
  · rw [commitTransaction_applied ballot hnew]
    exact refl hw
  · refine ⟨?_, constants_commitTransaction l request ballot, clusterId_commitTransaction l request ballot, ?_⟩
    · rw [wal_commitTransaction hnew]
      exact hw.commitTransaction request ballot
    · intro t
      rw [wal_commitTransaction hnew]
      exact hw.pendingEntry_commitTransaction request ballot t

theorem inShard (h : l.SamePending l') (txn : Transaction) : l'.inShard txn = l.inShard txn := by
  have hshard : l'.isClientInCluster = l.isClientInCluster := by
    funext a
    rw [isClientInCluster, isClientInCluster, h.constants, h.clusterId]
  rw [Ledger.inShard, Ledger.inShard, hshard]

theorem needed (h : l.SamePending l') {a : Int} : l'.Needed a ↔ l.Needed a := by
  simp only [Needed, h.pending, h.inShard]

/-- If nothing else became pending and the locks narrowed by `q`, two-phase locking is kept exactly
when every account that is held satisfies `q`. -/
theorem twoPhaseLocked_narrowed (h : l.SamePending l') (hl : l.TwoPhaseLocked) {q : Int → Prop}
    (hlocks : ∀ a, a ∈ l'.locks ↔ a ∈ l.locks ∧ q a) :
    l'.TwoPhaseLocked ↔ ∀ e ∈ l.wal.undecided, ∀ a ∈ l.inShard e.txn, q a := by
  rw [twoPhaseLocked_iff]
  constructor
  · intro h' e he a ha
    obtain ⟨t, ht⟩ := WAL.mem_undecided.mp he
    exact ((hlocks a).mp (h' a (h.needed.mpr ⟨t, e, ht, ha⟩))).2
  · intro hq a ha
    obtain ⟨t, e, ht, ha⟩ := h.needed.mp ha
    have he := WAL.mem_undecided.mpr ⟨t, ht⟩
    exact (hlocks a).mpr ⟨hl e he a ha, hq e he a ha⟩

end SamePending

/-- Locking both accounts first makes room for a prepare. -/
theorem TwoPhaseLocked.lock_prepare {l : Ledger} (hw : l.wal.Ok) (h : l.TwoPhaseLocked)
    (request : TransferReq) (ballot : Ballot) :
    (((l.lockInShard request.txn.sender).lockInShard request.txn.receiver).prepareTransaction request
      ballot).TwoPhaseLocked := by
  rw [twoPhaseLocked_iff] at h ⊢
  rintro a ⟨t, e, he, ha⟩
  have he : (l.wal.prepareTransaction request ballot).1.pendingEntry t = some e := he
  have ha : a ∈ l.inShard e.txn := ha
  show a ∈ ((l.lockInShard request.txn.sender).lockInShard request.txn.receiver).locks
  rw [mem_locks_lockBoth]
  rw [hw.pendingEntry_prepareTransaction] at he
  split at he
  · cases he
    exact .inr ha
  · exact .inl (h a ⟨t, e, he, ha⟩)

theorem TwoPhaseLocked.lock {l : Ledger} (h : l.TwoPhaseLocked) (txn : Transaction) :
    ((l.lockInShard txn.sender).lockInShard txn.receiver).TwoPhaseLocked := by
  intro e he a ha
  rw [mem_locks_lockBoth]
  exact .inl (h e he a ha)

/-! ### Decisions -/

theorem mem_locks_processTpcDecision {l : Ledger} (hw : l.wal.Ok) (tid : Int) (isCommit : Bool) (a : Int) :
    a ∈ (l.processTpcDecision tid isCommit).locks ↔
      a ∈ l.locks ∧ (tid ≠ -1 → ∀ e, l.wal.pendingEntry tid = some e → a ∉ l.inShard e.txn) := by
  cases he : l.wal.pendingEntry tid with
  | none => simp [processTpcDecision_none isCommit he]
  | some e =>
    by_cases htid : tid = -1
    · subst htid
      simp [processTpcDecision_sentinel hw isCommit he]
    · rw [processTpcDecision_some hw isCommit he htid]
      refine (mem_locks_unlockBothInShard (l := l)).trans ?_
      simp [htid, decidedEntry]

theorem pendingEntry_processTpcDecision {l : Ledger} (hw : l.wal.Ok) (tid : Int) (isCommit : Bool)
    (t : Int) : (l.processTpcDecision tid isCommit).wal.pendingEntry t =
      if t = tid then none else l.wal.pendingEntry t := by
  rw [wal_processTpcDecision]
  exact hw.pendingEntry_decideTransaction tid _ t

theorem isClientInCluster_processTpcDecision (l : Ledger) (tid : Int) (isCommit : Bool) :
    (l.processTpcDecision tid isCommit).isClientInCluster = l.isClientInCluster := by
  funext a
  simp [isClientInCluster]

/-- A list of decisions, one after the other. -/
def decideAll (l : Ledger) (isCommit : Bool) (tids : List Int) : Ledger :=
  tids.foldl (fun l tid => l.processTpcDecision tid isCommit) l

theorem sweep_eq (l : Ledger) : l.sweep = l.decideAll false l.expired := by
  have hbody : timeoutTransaction = fun l tid => l.processTpcDecision tid false := by
    funext l tid
    exact timeoutTransaction_eq l tid
  rw [sweep, decideAll, hbody]

/-- After some decisions, the decided tids are not pending, and their locks are gone. -/
theorem decideAll_spec (isCommit : Bool) : ∀ (tids : List Int) {l : Ledger}, l.wal.Ok →
    (l.decideAll isCommit tids).isClientInCluster = l.isClientInCluster ∧
      (∀ t, (l.decideAll isCommit tids).wal.pendingEntry t =
        if t ∈ tids then none else l.wal.pendingEntry t) ∧
      ∀ a, a ∈ (l.decideAll isCommit tids).locks ↔ a ∈ l.locks ∧ ∀ t ∈ tids, t ≠ -1 →
        ∀ e, l.wal.pendingEntry t = some e → a ∉ l.inShard e.txn := by
  intro tids
  induction tids with
  | nil =>
    intro l _
    exact ⟨rfl, by simp [decideAll], by simp [decideAll]⟩
  | cons tid tids ih =>
    intro l hw
    have hw' : (l.processTpcDecision tid isCommit).wal.Ok := by
      rw [wal_processTpcDecision]
      exact hw.decideTransaction tid _
    obtain ⟨hshard, hpending, hlocks⟩ := ih hw'
    have hcluster := isClientInCluster_processTpcDecision l tid isCommit
    refine ⟨hshard.trans hcluster, ?_, ?_⟩
    · intro t
      show ((l.processTpcDecision tid isCommit).decideAll isCommit tids).wal.pendingEntry t = _
      rw [hpending, pendingEntry_processTpcDecision hw]
      by_cases ht : t = tid
      · simp [ht]
      · simp [ht]
    · intro a
      show a ∈ ((l.processTpcDecision tid isCommit).decideAll isCommit tids).locks ↔ _
      rw [hlocks, mem_locks_processTpcDecision hw, List.forall_mem_cons, and_assoc]
      refine and_congr_right fun _ => and_congr_right fun hfirst => forall₂_congr fun t _ => ?_
      refine imp_congr_right fun hne => forall_congr' fun e => ?_
      rw [pendingEntry_processTpcDecision hw, inShard, hcluster]
      by_cases ht : t = tid
      · subst ht
        simp only [if_true]
        exact ⟨fun _ he => hfirst hne e he, fun _ he => absurd he (by simp)⟩
      · rw [if_neg ht]
        rfl

/-- No undecided transaction that stays shares an account with one that is decided now. -/
def decidesApart (l : Ledger) (tids : List Int) : Prop :=
  ∀ e ∈ l.wal.undecided, e.tid ∈ tids → e.tid ≠ -1 →
    ∀ e' ∈ l.wal.undecided, e'.tid ∉ tids → ∀ a ∈ l.inShard e'.txn, a ∉ l.inShard e.txn

instance (l : Ledger) (tids : List Int) : Decidable (l.decidesApart tids) :=
  inferInstanceAs (Decidable (∀ e ∈ l.wal.undecided, e.tid ∈ tids → e.tid ≠ -1 →
    ∀ e' ∈ l.wal.undecided, e'.tid ∉ tids → ∀ a ∈ l.inShard e'.txn, a ∉ l.inShard e.txn))

theorem twoPhaseLocked_decideAll {l : Ledger} (hw : l.wal.Ok) (h : l.TwoPhaseLocked) (isCommit : Bool)
    (tids : List Int) : (l.decideAll isCommit tids).TwoPhaseLocked ↔ l.decidesApart tids := by
  obtain ⟨hshard, hpending, hlocks⟩ := decideAll_spec isCommit tids hw
  have hneeded : ∀ a, (l.decideAll isCommit tids).Needed a ↔
      ∃ t e, t ∉ tids ∧ l.wal.pendingEntry t = some e ∧ a ∈ l.inShard e.txn := by
    intro a
    simp only [Needed, hpending, inShard, hshard]
    refine exists₂_congr fun t e => ?_
    by_cases ht : t ∈ tids
    · simp [ht]
    · simp [ht]
  rw [twoPhaseLocked_iff]
  constructor
  · intro h' e he htids hne e' he' htids' a ha' ha
    rw [hw.mem_undecided_iff] at he he'
    have hlock := h' a ((hneeded a).mpr ⟨e'.tid, e', htids', he', ha'⟩)
    exact ((hlocks a).mp hlock).2 e.tid htids hne e he ha
  · intro hapart a hneed
    obtain ⟨t, e', ht, he', ha'⟩ := (hneeded a).mp hneed
    have htid' : e'.tid = t := (hw.pendingEntry_spec he').1
    refine (hlocks a).mpr ⟨h e' (WAL.mem_undecided.mpr ⟨t, he'⟩) a ha', ?_⟩
    intro t₀ ht₀ hne e he
    have htid : e.tid = t₀ := (hw.pendingEntry_spec he).1
    subst htid' htid
    exact hapart e (WAL.mem_undecided.mpr ⟨_, he⟩) ht₀ hne e' (WAL.mem_undecided.mpr ⟨_, he'⟩) ht a ha'

/-! ### Synced entries -/

/-- The PREPARED entries of a sync reply that no later entry of the reply overrides. -/
def leftPrepared : List WALEntry → List WALEntry
  | [] => []
  | e :: es =>
    if e.status = .prepared ∧ ∀ e' ∈ es, e'.tid = e.tid → e'.status = .noStatus then
      e :: leftPrepared es
    else leftPrepared es

theorem pendingEntry_insertSynced {l : Ledger} (hw : l.wal.Ok) (entry : WALEntry) (t : Int) :
    (l.insertSynced entry).wal.pendingEntry t =
      if t = entry.tid then
        match entry.status with
        | .prepared => some { entry with type := .cross }
        | .noStatus => l.wal.pendingEntry t
        | _ => none
      else l.wal.pendingEntry t := hw.pendingEntry_insertEntry entry t

/-- A tid that the entries leave alone is pending as before. -/
theorem pendingEntry_foldl_insertSynced {t : Int} : ∀ (es : List WALEntry) {l : Ledger}, l.wal.Ok →
    (∀ e ∈ es, e.tid = t → e.status = .noStatus) →
      (es.foldl insertSynced l).wal.pendingEntry t = l.wal.pendingEntry t := by
  intro es
  induction es with
  | nil => intro l _ _; rfl
  | cons e es ih =>
    intro l hw hes
    obtain ⟨he, hes⟩ := List.forall_mem_cons.mp hes
    rw [List.foldl_cons, ih (hw.insertEntry e) hes, pendingEntry_insertSynced hw]
    split
    · rename_i ht
      simp only [he ht.symm]
    · rfl

/-- What is pending after a sync reply is left prepared by it, or was pending before and untouched. -/
theorem pending_of_synced {t : Int} {x : WALEntry} : ∀ (es : List WALEntry) {l : Ledger}, l.wal.Ok →
    (es.foldl insertSynced l).wal.pendingEntry t = some x →
      (∃ e ∈ leftPrepared es, e.txn = x.txn) ∨
        (l.wal.pendingEntry t = some x ∧ ∀ e ∈ es, e.tid = t → e.status = .noStatus) := by
  intro es
  induction es with
  | nil => intro l _ hx; exact .inr ⟨hx, by simp⟩
  | cons e es ih =>
    intro l hw hx
    have hsub : ∀ e' ∈ leftPrepared es, e' ∈ leftPrepared (e :: es) := by
      intro e' he'
      rw [leftPrepared]
      split
      · exact List.mem_cons_of_mem e he'
      · exact he'
    rcases ih (hw.insertEntry e) hx with ⟨e', he', htxn⟩ | ⟨hx, hes⟩
    · exact .inl ⟨e', hsub e' he', htxn⟩
    · rw [pendingEntry_insertSynced hw] at hx
      by_cases ht : t = e.tid
      · subst ht
        rw [if_pos rfl] at hx
        cases hstatus : e.status with
        | prepared =>
          rw [hstatus] at hx
          cases hx
          refine .inl ⟨e, ?_, rfl⟩
          rw [leftPrepared, if_pos ⟨hstatus, hes⟩]
          exact List.mem_cons_self
        | noStatus =>
          rw [hstatus] at hx
          exact .inr ⟨hx, List.forall_mem_cons.mpr ⟨fun _ => hstatus, hes⟩⟩
        | committed =>
          rw [hstatus] at hx
          cases hx
        | aborted =>
          rw [hstatus] at hx
          cases hx
      · rw [if_neg ht] at hx
        exact .inr ⟨hx, List.forall_mem_cons.mpr ⟨fun h => absurd h.symm ht, hes⟩⟩

/-- What a sync reply leaves prepared is pending after it. -/
theorem pending_of_leftPrepared : ∀ (es : List WALEntry) {l : Ledger}, l.wal.Ok →
    ∀ e ∈ leftPrepared es,
      (es.foldl insertSynced l).wal.pendingEntry e.tid = some { e with type := .cross } := by
  intro es
  induction es with
  | nil => intro l _ e he; exact absurd he (by simp [leftPrepared])
  | cons e₀ es ih =>
    intro l hw e he
    rw [leftPrepared] at he
    split at he
    · rename_i hleft
      rcases List.mem_cons.mp he with rfl | he
      · rw [List.foldl_cons, pendingEntry_foldl_insertSynced es (hw.insertEntry e) hleft.2,
          pendingEntry_insertSynced hw, if_pos rfl, hleft.1]
      · exact ih (hw.insertEntry e₀) e he
    · exact ih (hw.insertEntry e₀) e he

theorem locks_foldl_insertSynced (es : List WALEntry) (l : Ledger) :
    (es.foldl insertSynced l).locks = l.locks ∧
      (es.foldl insertSynced l).isClientInCluster = l.isClientInCluster := by
  refine List.foldlRecOn (motive := fun l' : Ledger =>
    l'.locks = l.locks ∧ l'.isClientInCluster = l.isClientInCluster) es insertSynced ⟨rfl, rfl⟩ ?_
  intro l' hl' e _
  exact hl'

theorem inShard_applySync (l : Ledger) (response : SyncRes) (txn : Transaction) :
    (l.applySync response).inShard txn = l.inShard txn := by
  show List.filter (Ledger.isClientInCluster (List.foldl insertSynced l _)) _ = _
  rw [(locks_foldl_insertSynced _ l).2]
  rfl

theorem locks_applySync (l : Ledger) (response : SyncRes) : (l.applySync response).locks = l.locks :=
  (locks_foldl_insertSynced (response.logs.map LogEntry.toWALEntry) l).1

/-- A sync reply keeps two-phase locking exactly when what it leaves prepared is locked already. -/
theorem twoPhaseLocked_applySync {l : Ledger} (hw : l.wal.Ok) (h : l.TwoPhaseLocked)
    (response : SyncRes) : (l.applySync response).TwoPhaseLocked ↔
      ∀ e ∈ leftPrepared (response.logs.map LogEntry.toWALEntry), ∀ a ∈ l.inShard e.txn, a ∈ l.locks := by
  rw [twoPhaseLocked_iff] at h ⊢
  rw [locks_applySync]
  constructor
  · intro h' e he a ha
    refine h' a ⟨e.tid, { e with type := .cross }, pending_of_leftPrepared _ hw e he, ?_⟩
    rw [inShard_applySync]
    exact ha
  · rintro hleft a ⟨t, x, hx, ha⟩
    rw [inShard_applySync] at ha
    rcases pending_of_synced _ hw hx with ⟨e, he, htxn⟩ | ⟨hold, -⟩
    · exact hleft e he a (by rw [htxn]; exact ha)
    · exact h a ⟨t, x, hold, ha⟩

end Ledger

/-! ## Which events keep the locks -/

namespace ServerImpl

open Ledger

/-- The two counters of the accept phase once a reply has been counted. -/
def acceptCounts (s : ServerImpl) (status : Status) (request : AcceptReq) (response : AcceptRes) :
    Nat × Nat :=
  if status = .deadlineExceeded && s.answersAccept request.ballot then
    (s.acceptSuccesses, s.acceptFailures + 1)
  else if status = .ok && s.answersAccept response.ballot then
    if response.ack then (s.acceptSuccesses + 1, s.acceptFailures)
    else (s.acceptSuccesses, s.acceptFailures + 1)
  else (s.acceptSuccesses, s.acceptFailures)

/-- The reply completes a majority of the accept phase, of successes or of failures. -/
def endsAccept (s : ServerImpl) (status : Status) (request : AcceptReq) (response : AcceptRes) : Bool :=
  s.awaitAcceptDecision && (decide (majority ≤ (s.acceptCounts status request response).1) ||
    decide (majority ≤ (s.acceptCounts status request response).2))

/-- Whether an event leaves every undecided transaction its locks, seen from the state it is handled
in.  A decision or a sweep must not meet two undecided transactions on one account, one of which stays;
a `Commit` that is acted on, and the end of an accept phase, must not release an account that an
undecided transaction holds; and a sync must leave no transaction prepared whose accounts are free. -/
def keepsLocks (s : ServerImpl) : Event → Prop
  | .input (.tpcDecision tid _) => s.iAmDisconnected = false → s.ledger.decidesApart [tid]
  | .input .sweep => s.ledger.decidesApart s.ledger.expired
  | .commitCall request => s.iAmDisconnected = false → s.commits request = true →
      ∀ e ∈ s.ledger.wal.undecided, ∀ a ∈ s.ledger.inShard e.txn,
        ∀ r ∈ s.acceptBatch, a ∉ s.ledger.inShard r.txn
  | .acceptReply status request response => s.endsAccept status request response = true →
      ∀ e ∈ s.ledger.wal.undecided, ∀ a ∈ s.ledger.inShard e.txn,
        ∀ b ∈ s.current, b.isCrossShard = false → a ≠ b.request.txn.sender ∧ a ≠ b.request.txn.receiver
  | .syncReply status response => status = .ok → response.ack = true →
      ∀ e ∈ leftPrepared (response.logs.map LogEntry.toWALEntry),
        ∀ a ∈ s.ledger.inShard e.txn, a ∈ s.ledger.locks
  | _ => True

/-! ### The loops that release -/

theorem mem_locks_commitAccepted {l₀ l : Ledger} (h : l₀.SamePending l) (ballot : Ballot)
    (r : TransferReq) (a : Int) : a ∈ (commitAccepted ballot l r).locks ↔
      a ∈ l.locks ∧ a ∉ l₀.inShard r.txn := by
  rw [← h.inShard, ← mem_locks_unlockBothInShard]
  unfold commitAccepted
  dsimp only
  split
  · rw [locks_commitTransaction]
  · rfl

theorem samePending_commitAccepted {l₀ l : Ledger} (h : l₀.SamePending l) (ballot : Ballot)
    (r : TransferReq) : l₀.SamePending (commitAccepted ballot l r) := by
  have hfree : l.SamePending ((l.unlockInShard r.txn.sender).unlockInShard r.txn.receiver) :=
    ⟨h.ok, rfl, rfl, fun _ => rfl⟩
  unfold commitAccepted
  dsimp only
  split
  · exact (h.trans hfree).trans (.commitTransaction hfree.ok r ballot)
  · exact h.trans hfree

/-- A loop that keeps what is pending and narrows the locks item by item keeps two-phase locking exactly
when no item takes an account that is held. -/
theorem twoPhaseLocked_foldl {α : Type} {f : Ledger → α → Ledger} {q : α → Int → Prop} {l : Ledger}
    (hw : l.wal.Ok) (h : l.TwoPhaseLocked)
    (hsame : ∀ l' x, l.SamePending l' → l.SamePending (f l' x))
    (hlocks : ∀ l' x a, l.SamePending l' → (a ∈ (f l' x).locks ↔ a ∈ l'.locks ∧ q x a)) (xs : List α) :
    (xs.foldl f l).TwoPhaseLocked ↔
      ∀ e ∈ l.wal.undecided, ∀ a ∈ l.inShard e.txn, ∀ x ∈ xs, q x a := by
  have hfold : l.SamePending (xs.foldl f l) :=
    List.foldlRecOn (motive := fun l' => l.SamePending l') xs f (.refl hw) fun l' hl' x _ => hsame l' x hl'
  refine hfold.twoPhaseLocked_narrowed (q := fun a => ∀ x ∈ xs, q x a) h ?_
  intro a
  exact foldl_narrows (I := fun l' => l.SamePending l') (p := fun l' => a ∈ l'.locks)
    hsame (fun l' x hl' => hlocks l' x a hl') xs l (.refl hw)

/-- Releasing the batch entry leaves the account alone. -/
def Spares (b : BatchEntry) (a : Int) : Prop :=
  b.isCrossShard = false → a ≠ b.request.txn.sender ∧ a ≠ b.request.txn.receiver

theorem mem_locks_commitEntry (l : Ledger) (ballot : Ballot) (b : BatchEntry) (a : Int) :
    a ∈ (commitEntry ballot l b).locks ↔ a ∈ l.locks ∧ Spares b a := by
  unfold commitEntry Spares
  split
  · rename_i hcross
    simp [hcross]
  · rename_i hcross
    simp [hcross, mem_locks_unlockBoth]

theorem samePending_commitEntry {l₀ l : Ledger} (h : l₀.SamePending l) (ballot : Ballot)
    (b : BatchEntry) : l₀.SamePending (commitEntry ballot l b) := by
  have hfree : l.SamePending (l.unlockBoth b.request.txn) := ⟨h.ok, rfl, rfl, fun _ => rfl⟩
  unfold commitEntry
  split
  · exact h
  · exact (h.trans hfree).trans (.commitTransaction hfree.ok b.request ballot)

theorem mem_locks_releaseEntry (l : Ledger) (b : BatchEntry) (a : Int) :
    a ∈ (releaseEntry false l b).locks ↔ a ∈ l.locks ∧ Spares b a := by
  unfold releaseEntry Spares
  cases hcross : b.isCrossShard with
  | true => simp
  | false => simp [mem_locks_unlockBoth]

theorem samePending_releaseEntry {l₀ l : Ledger} (h : l₀.SamePending l) (preparePhase : Bool)
    (b : BatchEntry) : l₀.SamePending (releaseEntry preparePhase l b) := by
  unfold releaseEntry
  split
  · exact h.trans ⟨h.ok, rfl, rfl, fun _ => rfl⟩
  · exact h

/-! ### The handlers -/

theorem ledger_maybeStartRound (s : ServerImpl) : s.maybeStartRound.ledger = s.ledger := by
  unfold maybeStartRound
  split <;> rfl

theorem ledger_enqueueClientTxn (s : ServerImpl) (call : Nat) (req : TransferReq) (isCross : Bool) :
    (s.enqueueClientTxn call req isCross).ledger = s.ledger := by
  unfold enqueueClientTxn
  split
  · rfl
  · rw [ledger_maybeStartRound]

theorem ledger_decideAccept (s : ServerImpl) : s.decideAccept.ledger =
    if majority ≤ s.acceptSuccesses then s.current.foldl (commitEntry s.acceptNum) s.ledger
    else if majority ≤ s.acceptFailures then s.current.foldl (releaseEntry false) s.ledger
    else s.ledger := by
  unfold decideAccept
  split
  · rw [onAcceptQuorum, finishRound, ledger_maybeStartRound]
    rfl
  · split
    · rw [onRoundAbort, finishRound, ledger_maybeStartRound]
      rfl
    · rfl

theorem handleAcceptReply_eq (s : ServerImpl) (status : Status) (request : AcceptReq)
    (response : AcceptRes) : s.handleAcceptReply status request response =
      if s.awaitAcceptDecision then
        (s.setAcceptCounts (s.acceptCounts status request response).1
          (s.acceptCounts status request response).2).decideAccept
      else s := by
  unfold handleAcceptReply acceptCounts
  by_cases hawait : s.awaitAcceptDecision = true
  · rw [if_neg (by simp [hawait]), if_pos hawait]
    split
    · rfl
    · split
      · split <;> rfl
      · rfl
  · rw [if_pos (by simpa using hawait), if_neg hawait]

theorem twoPhaseLocked_acceptReply {s : ServerImpl} (hw : s.ledger.wal.Ok) (h : s.ledger.TwoPhaseLocked)
    (status : Status) (request : AcceptReq) (response : AcceptRes) :
    (s.handleAcceptReply status request response).ledger.TwoPhaseLocked ↔
      s.keepsLocks (.acceptReply status request response) := by
  have hcommit := twoPhaseLocked_foldl hw h (fun _ b hl' => samePending_commitEntry hl' s.acceptNum b)
    (fun l' b a _ => mem_locks_commitEntry l' s.acceptNum b a) s.current
  have hrelease := twoPhaseLocked_foldl hw h (fun _ b hl' => samePending_releaseEntry hl' false b)
    (fun l' b a _ => mem_locks_releaseEntry l' b a) s.current
  rw [handleAcceptReply_eq]
  unfold keepsLocks endsAccept
  cases hawait : s.awaitAcceptDecision with
  | false => simpa using h
  | true =>
    simp only [if_true, ledger_decideAccept, setAcceptCounts, Bool.true_and, Bool.or_eq_true,
      decide_eq_true_eq]
    by_cases hsucc : majority ≤ (s.acceptCounts status request response).1
    · rw [if_pos hsucc, hcommit]
      simp [hsucc, Spares]
    · rw [if_neg hsucc]
      by_cases hfail : majority ≤ (s.acceptCounts status request response).2
      · rw [if_pos hfail, hrelease]
        simp [hfail, Spares]
      · rw [if_neg hfail]
        simp [hsucc, hfail, h]

theorem twoPhaseLocked_commitCall {s : ServerImpl} (hw : s.ledger.wal.Ok) (h : s.ledger.TwoPhaseLocked)
    (request : CommitReq) : (s.processCommitCall request).ledger.TwoPhaseLocked ↔
      s.keepsLocks (.commitCall request) := by
  unfold processCommitCall keepsLocks
  cases hconn : s.iAmDisconnected with
  | true => simpa using h
  | false =>
    cases hcom : s.commits request with
    | false => simpa [hcom] using h
    | true =>
      simp only [hcom, Bool.false_eq_true, if_false, if_true, true_imp_iff]
      exact twoPhaseLocked_foldl hw h (fun _ r hl' => samePending_commitAccepted hl' s.acceptNum r)
        (fun _ r a hl' => mem_locks_commitAccepted hl' s.acceptNum r a) s.acceptBatch

/-- Accepting a batch locks before it prepares. -/
theorem twoPhaseLocked_accept {l : Ledger} (hw : l.wal.Ok) (h : l.TwoPhaseLocked) (ballot : Ballot)
    (batch : List TransferReq) : (batch.foldl (acceptEntry ballot) l).TwoPhaseLocked := by
  refine (List.foldlRecOn (motive := fun l' : Ledger => l'.wal.Ok ∧ l'.TwoPhaseLocked) batch
    (acceptEntry ballot) ⟨hw, h⟩ ?_).2
  rintro l' ⟨hw', h'⟩ r _
  unfold acceptEntry
  dsimp only
  split
  · exact ⟨hw'.prepareTransaction r ballot, h'.lock_prepare hw' r ballot⟩
  · exact ⟨hw', h'.lock r.txn⟩

/-- So does admitting one. -/
theorem twoPhaseLocked_admitAll {l : Ledger} (hw : l.wal.Ok) (h : l.TwoPhaseLocked) (ballot : Ballot)
    (batch : List BatchEntry) : (admitAll l ballot batch).ledger.TwoPhaseLocked := by
  refine (List.foldlRecOn (motive := fun a : Admission => a.ledger.wal.Ok ∧ a.ledger.TwoPhaseLocked)
    batch (validateEntry ballot) (b := ⟨l, [], []⟩) ⟨hw, h⟩ ?_).2
  rintro a ⟨hw', h'⟩ b _
  unfold validateEntry
  split
  · exact ⟨hw', h'⟩
  · dsimp only
    split
    · exact ⟨hw'.prepareTransaction b.request ballot, h'.lock_prepare hw' b.request ballot⟩
    · exact ⟨hw', h'.lock b.request.txn⟩

theorem twoPhaseLocked_prepareReply {s : ServerImpl} (hw : s.ledger.wal.Ok) (h : s.ledger.TwoPhaseLocked)
    (status : Status) (request : PrepareReq) (response : PrepareRes) :
    (s.handlePrepareReply status request response).ledger.TwoPhaseLocked := by
  have hcore : ∀ {t : ServerImpl}, Core s (.prepareReply status request response) t →
      t.ledger.TwoPhaseLocked := by
    intro t hcore
    cases hcore with
    | reject => exact twoPhaseLocked_admitAll hw h s.promisedNum s.current
    | propose => exact twoPhaseLocked_admitAll hw h s.promisedNum s.current
    | abortPrepare =>
      exact List.foldlRecOn (motive := TwoPhaseLocked) s.current (releaseEntry true) h fun _ hl' _ _ => hl'
    | idle | countPrepare | staleLog => exact h
  generalize hu : s.handlePrepareReply status request response = u
  have hmoves := s.handlePrepareReply_moves status request response
  rw [hu] at hmoves
  cases hmoves with
  | done hc => exact hcore hc
  | @start t hc =>
    show t.ledger.TwoPhaseLocked
    exact hcore hc
  | retry hpre =>
    cases hpre with
    | staleBallot => exact h

theorem twoPhaseLocked_syncReply {s : ServerImpl} (hw : s.ledger.wal.Ok) (h : s.ledger.TwoPhaseLocked)
    (status : Status) (response : SyncRes) :
    (s.handleSyncReply status response).ledger.TwoPhaseLocked ↔ s.keepsLocks (.syncReply status response) := by
  unfold handleSyncReply keepsLocks
  rw [ledger_resumeAfterSync]
  by_cases hok : status = .ok
  · cases hack : response.ack with
    | true =>
      simp only [hok, hack, decide_true, Bool.and_self, if_true, true_imp_iff]
      exact twoPhaseLocked_applySync hw h response
    | false => simpa [hok, hack] using h
  · simpa [hok] using h

theorem twoPhaseLocked_input {s : ServerImpl} (hw : s.ledger.wal.Ok) (h : s.ledger.TwoPhaseLocked)
    (i : Input) : (s.handleInput i).ledger.TwoPhaseLocked ↔ s.keepsLocks (.input i) := by
  cases i with
  | transfer call request =>
    simp only [handleInput, ledger_enqueueClientTxn, keepsLocks, iff_true]
    exact h
  | tpcPrepare call request =>
    simp only [handleInput, ledger_enqueueClientTxn, keepsLocks, iff_true]
    exact h
  | tpcDecision tid isCommit =>
    simp only [handleInput, processTpcDecision, keepsLocks]
    cases s.iAmDisconnected with
    | true => simpa using h
    | false =>
      simp only [Bool.false_eq_true, if_false, true_imp_iff]
      exact twoPhaseLocked_decideAll hw h isCommit [tid]
  | disconnect servers => exact ⟨fun _ => trivial, fun _ => h⟩
  | tick ms => exact ⟨fun _ => trivial, fun _ => h⟩
  | sweep =>
    show s.ledger.sweep.TwoPhaseLocked ↔ s.ledger.decidesApart s.ledger.expired
    rw [sweep_eq]
    exact twoPhaseLocked_decideAll hw h false s.ledger.expired

/-- **One event, exactly**: from two-phase locking it leads to two-phase locking if and only if it is
one that keeps the locks. -/
theorem twoPhaseLocked_handle {s : ServerImpl} (hw : s.ledger.wal.Ok) (h : s.ledger.TwoPhaseLocked)
    (e : Event) : (s.handle e).ledger.TwoPhaseLocked ↔ s.keepsLocks e := by
  -- the outbox plays no part
  have hkeeps : s.keepsLocks e ↔ ({ s with outbox := [] } : ServerImpl).keepsLocks e := by
    cases e with
    | input i => cases i <;> rfl
    | _ => rfl
  rw [hkeeps]
  show (dispatch { s with outbox := [] } e).ledger.TwoPhaseLocked ↔ _
  have hw : ({ s with outbox := [] } : ServerImpl).ledger.wal.Ok := hw
  have h : ({ s with outbox := [] } : ServerImpl).ledger.TwoPhaseLocked := h
  generalize ({ s with outbox := [] } : ServerImpl) = s at *
  cases e with
  | input i => exact twoPhaseLocked_input hw h i
  | prepareCall request =>
    have hledger : (s.processPrepareCall request).1.ledger = s.ledger := by
      rw [processPrepareCall_fst]
      unfold promise
      split_ifs <;> rfl
    simp only [dispatch, keepsLocks, hledger, iff_true]
    exact h
  | acceptCall request =>
    refine ⟨fun _ => trivial, fun _ => ?_⟩
    show (s.processAcceptCall request).1.ledger.TwoPhaseLocked
    unfold processAcceptCall
    split
    · exact h
    · split
      · exact twoPhaseLocked_accept hw h request.ballot request.batch
      · exact h
  | commitCall request => exact twoPhaseLocked_commitCall hw h request
  | syncCall request => exact ⟨fun _ => trivial, fun _ => h⟩
  | prepareReply status request response =>
    exact ⟨fun _ => trivial, fun _ => twoPhaseLocked_prepareReply hw h status request response⟩
  | acceptReply status request response => exact twoPhaseLocked_acceptReply hw h status request response
  | syncReply status response => exact twoPhaseLocked_syncReply hw h status response

end ServerImpl

/-- **Two-phase locking, exactly.**  Whatever a server is handed in whatever order: every undecided
transaction has its locks in every state of the run if and only if every event of the run keeps them in
the sense of `keepsLocks`. -/
theorem locks_held_iff (c : Constants) (serverId : Int) (es : List Event) :
    Along ServerImpl.handle (fun s => s.ledger.TwoPhaseLocked) (ServerImpl.fresh c serverId) es ↔
      okRun ServerImpl.handle ServerImpl.keepsLocks (ServerImpl.fresh c serverId) es := by
  refine along_iff_okRun (I := fun s => s.ledger.Sound) ?_ ?_ es (.fresh c _) ?_
  · intro s e hs
    exact ServerImpl.handle_sound hs e
  · intro s e hs h
    exact ServerImpl.twoPhaseLocked_handle hs.wal h e
  · intro e he
    obtain ⟨t, ht⟩ := WAL.mem_undecided.mp he
    cases (WAL.pendingEntry_empty t).symm.trans ht

/-- Server 1 prepares a cross-shard transfer with server 2, and server 2 is told that the round is
committed. -/
def crossPrepareCommitted : List NetEvent :=
  [.input 1 (.tpcPrepare 0 ⟨⟨1, 1001, 4⟩, 1⟩), .deliver 0, .complete 0, .deliver 2, .complete 2, .deliver 4]

/-- Server 2 then holds the transaction prepared and undecided, with account 1 unlocked. -/
theorem locks_dropped_at_commit :
    ¬ ∀ (es : List NetEvent) (i : Int), ((Net.run ⟨3, 3⟩ es).servers i).ledger.TwoPhaseLocked := by
  intro h
  have hlocked := h crossPrepareCommitted 2
  revert hlocked
  decide +kernel

end MultiPaxosDB
