/-
# MultiPaxosDB.LedgerOps — what each ledger operation does, stated once.

One equation per operation and per thing a later proof reads: the log, the pending entries, the set
of applied tids, the balances.  The lock-timeout sweep turns out to be a sequence of abort decisions
(`timeoutTransaction_eq`), so it needs no lemmas of its own.

`LedgerMove` closes the list: every change of a ledger by any handler is a chain of the four
operations and of changes to fields they do not read (`Frame`).  `ServerImpl.handle_does` proves that for
all events at once, with the operations that each event can run, so an invariant of the ledger is proved by
four cases.  `LedgerStep` is the same with what the entries of the chain satisfy, given what holds of
everything the event can make the server log (`Feeds`): the requests it holds or is handed (`Carries`), the
decisions it is told and the entries it syncs (`Logs`).
-/
import MultiPaxosDB.Lib.Transition
import MultiPaxosDB.Moves

namespace MultiPaxosDB

/-- What a transaction does to one account once it is applied. -/
def Transaction.effect (txn : Transaction) (account : Int) : Int :=
  (if txn.receiver = account then txn.amount else 0) - (if txn.sender = account then txn.amount else 0)

theorem Transaction.effect_of_ne {txn : Transaction} {a : Int} (hs : a ≠ txn.sender) (hr : a ≠ txn.receiver) :
    txn.effect a = 0 := by
  unfold effect
  rw [if_neg (Ne.symm hs), if_neg (Ne.symm hr), sub_zero]

namespace Ledger

/-! ## Balances -/

theorem balances_applyInShard (l : Ledger) (firstApply : Bool) (account delta c : Int) :
    (l.applyInShard firstApply account delta).balances c =
      l.balances c + .ofInt (if firstApply = true ∧ l.isClientInCluster account = true ∧ account = c
        then delta else 0) := by
  simp only [applyInShard, Bool.and_eq_true]
  by_cases hc : account = c
  · subst hc
    split_ifs with h1 h2 h2
    · simp
    · exact absurd ⟨h1.1, h1.2, rfl⟩ h2
    · exact absurd ⟨h2.1, h2.2.1⟩ h1
    · simp
  · have hupd : (Function.update l.balances account (l.balances account + .ofInt delta)) c = l.balances c :=
      Function.update_of_ne (Ne.symm hc) _ _
    split_ifs with h1 h2 h2
    · exact absurd h2.2.2 hc
    · rw [hupd]; simp
    · exact absurd h2.2.2 hc
    · simp

/-- On an account of the shard, applying both sides of a transaction adds its effect. -/
theorem balances_applyBoth {l : Ledger} {c : Int} (hc : l.isClientInCluster c = true)
    (firstApply : Bool) (txn : Transaction) :
    ((l.applyInShard firstApply txn.sender (-txn.amount)).applyInShard firstApply txn.receiver
      txn.amount).balances c = l.balances c + .ofInt (if firstApply then txn.effect c else 0) := by
  have hshard : ∀ a, (l.applyInShard firstApply txn.sender (-txn.amount)).isClientInCluster a =
      l.isClientInCluster a := fun _ => rfl
  rw [balances_applyInShard, balances_applyInShard, hshard, ← add_ofInt_add]
  congr 2
  cases firstApply with
  | false => simp
  | true =>
    by_cases hs : txn.sender = c
    · by_cases hr : txn.receiver = c
      · simp [Transaction.effect, hs, hr, hc]
      · simp [Transaction.effect, hs, hr, hc]
    · by_cases hr : txn.receiver = c
      · simp [Transaction.effect, hs, hr, hc]
      · simp [Transaction.effect, hs, hr]

theorem balances_settleDecision {l : Ledger} {c : Int} (hc : l.isClientInCluster c = true)
    (entry : WALEntry) (firstApply : Bool) :
    (l.settleDecision entry firstApply).balances c =
      l.balances c + .ofInt (if firstApply then entry.txn.effect c else 0) :=
  balances_applyBoth (l := l) hc firstApply entry.txn

/-- A synced entry moves money exactly when it is the first commit of its tid here. -/
theorem balances_insertSynced {l : Ledger} {c : Int} (hc : l.isClientInCluster c = true)
    (entry : WALEntry) :
    (l.insertSynced entry).balances c = l.balances c +
      .ofInt (if entry.status = .committed ∧ entry.tid ∉ l.balanceApplied then entry.txn.effect c else 0) := by
  refine (balances_applyBoth (l := _) hc _ entry.txn).trans ?_
  simp only [Bool.and_eq_true, decide_eq_true_eq]

/-! ## No operation moves a server to another shard -/

/-- The status a decision writes. -/
def decisionStatus (isCommit : Bool) : TransactionStatus := if isCommit then .committed else .aborted

/-- The entry a decision logs for a prepared entry. -/
def decidedEntry (e : WALEntry) (isCommit : Bool) : WALEntry :=
  { e with status := decisionStatus isCommit }

theorem decision_wal (l : Ledger) (tid : Int) (isCommit : Bool) :
    (if isCommit then l.wal.commitTransactionTid tid else l.wal.abortTransaction tid) =
      l.wal.decideTransaction tid (decisionStatus isCommit) := by
  cases isCommit <;> rfl

@[simp]
theorem constants_commitTransaction (l : Ledger) (request : TransferReq) (ballot : Ballot) :
    (l.commitTransaction request ballot).constants = l.constants := by
  unfold commitTransaction
  split <;> rfl

@[simp]
theorem clusterId_commitTransaction (l : Ledger) (request : TransferReq) (ballot : Ballot) :
    (l.commitTransaction request ballot).clusterId = l.clusterId := by
  unfold commitTransaction
  split <;> rfl

@[simp]
theorem constants_processTpcDecision (l : Ledger) (tid : Int) (isCommit : Bool) :
    (l.processTpcDecision tid isCommit).constants = l.constants := by
  simp only [processTpcDecision, decision_wal]
  split <;> rfl

@[simp]
theorem clusterId_processTpcDecision (l : Ledger) (tid : Int) (isCommit : Bool) :
    (l.processTpcDecision tid isCommit).clusterId = l.clusterId := by
  simp only [processTpcDecision, decision_wal]
  split <;> rfl

/-! ## `commitTransaction` -/

theorem commitTransaction_applied {l : Ledger} {request : TransferReq} (ballot : Ballot)
    (h : request.tid ∈ l.balanceApplied) : l.commitTransaction request ballot = l := by
  simp [commitTransaction, h]

/-- Whether or not the tid was applied before, it is now. -/
theorem balanceApplied_commitTransaction (l : Ledger) (request : TransferReq) (ballot : Ballot) :
    (l.commitTransaction request ballot).balanceApplied = insert request.tid l.balanceApplied := by
  by_cases h : request.tid ∈ l.balanceApplied
  · rw [commitTransaction_applied ballot h, Finset.insert_eq_of_mem h]
  · simp only [commitTransaction, if_neg h]
    rfl

section Fresh

variable {l : Ledger} {request : TransferReq} (h : request.tid ∉ l.balanceApplied)
include h

theorem log_commitTransaction (hw : l.wal.canWrite = true) (ballot : Ballot) :
    (l.commitTransaction request ballot).log = l.log ++ [WAL.committedEntry request ballot] := by
  simp only [commitTransaction, if_neg h, WAL.commitTransaction, hw, ↓reduceIte]
  rfl

theorem paxosIndex_commitTransaction (ballot : Ballot) :
    (l.commitTransaction request ballot).paxosIndex = l.paxosIndex + 1 := by
  simp only [commitTransaction, if_neg h]

theorem lastInserted_commitTransaction (hw : l.wal.Ok) (ballot : Ballot) :
    (l.commitTransaction request ballot).lastInserted = (l.log.length : Int) := by
  simp only [commitTransaction, if_neg h, hw.commitTransaction_eq]
  simp

theorem wal_commitTransaction (ballot : Ballot) :
    (l.commitTransaction request ballot).wal = (l.wal.commitTransaction request ballot).1 := by
  simp only [commitTransaction, if_neg h]
  rfl

/-- The intra-shard commit moves both accounts, in the shard or not. -/
theorem balances_commitTransaction (hw : l.wal.canWrite = true) (ballot : Ballot) (c : Int) :
    (l.commitTransaction request ballot).balances c = l.balances c + .ofInt (request.txn.effect c) := by
  simp only [commitTransaction, if_neg h, WAL.commitTransaction, hw, ↓reduceIte, updateBalance, addBalance]
  by_cases hr : request.txn.receiver = c
  · by_cases hs : request.txn.sender = c
    · simp [Transaction.effect, hr, hs, Int32.add_assoc, Int32.add_left_neg]
    · simp [Transaction.effect, hr, hs, Function.update_of_ne (Ne.symm hs)]
  · rw [Function.update_of_ne (Ne.symm hr)]
    by_cases hs : request.txn.sender = c
    · simp [Transaction.effect, hr, hs]
    · simp [Transaction.effect, hr, hs, Function.update_of_ne (Ne.symm hs)]

end Fresh

/-! ## Decisions -/

/-- A decision on a tid that is not pending only forgets its timestamp. -/
theorem processTpcDecision_none {l : Ledger} {tid : Int} (isCommit : Bool)
    (h : l.wal.pendingEntry tid = none) :
    l.processTpcDecision tid isCommit =
      { l with prepareTimestamps := l.prepareTimestamps.erase tid } := by
  simp only [processTpcDecision, decision_wal, WAL.decideTransaction_none _ h]
  rfl

/-- The state between the logging of a decision and its settlement. -/
def logDecision (l : Ledger) (tid : Int) (isCommit : Bool) (entry : WALEntry) : Ledger :=
  { l with
    prepareTimestamps := l.prepareTimestamps.erase tid
    wal := (l.wal.decideTransaction tid (decisionStatus isCommit)).1
    log := l.log ++ [entry]
    balanceApplied := if isCommit then insert tid l.balanceApplied else l.balanceApplied }

/-- A decision on a pending tid logs the prepared entry with the decided status and settles it.  (The
tid `-1` is the sentinel of the WAL; the source drops a decision on it after writing the line.) -/
theorem processTpcDecision_some {l : Ledger} (hw : l.wal.Ok) {tid : Int} {e : WALEntry}
    (isCommit : Bool) (he : l.wal.pendingEntry tid = some e) (htid : tid ≠ -1) :
    l.processTpcDecision tid isCommit =
      (l.logDecision tid isCommit (decidedEntry e isCommit)).settleDecision (decidedEntry e isCommit)
        (isCommit && decide (tid ∉ l.balanceApplied)) := by
  have het : e.tid = tid := (hw.pendingEntry_spec he).1
  subst het
  simp only [processTpcDecision, decision_wal, hw.decideTransaction_snd _ he, if_pos htid]
  rfl

theorem processTpcDecision_sentinel {l : Ledger} (hw : l.wal.Ok) {e : WALEntry}
    (isCommit : Bool) (he : l.wal.pendingEntry (-1) = some e) :
    l.processTpcDecision (-1) isCommit =
      { l with
        prepareTimestamps := l.prepareTimestamps.erase (-1)
        wal := (l.wal.decideTransaction (-1) (decisionStatus isCommit)).1 } := by
  have het : e.tid = -1 := (hw.pendingEntry_spec he).1
  simp [processTpcDecision, decision_wal, hw.decideTransaction_snd _ he, het]

theorem wal_processTpcDecision (l : Ledger) (tid : Int) (isCommit : Bool) :
    (l.processTpcDecision tid isCommit).wal =
      (l.wal.decideTransaction tid (decisionStatus isCommit)).1 := by
  simp only [processTpcDecision, decision_wal]
  split <;> rfl

/-- Decisions are not agreed entries. -/
@[simp]
theorem paxosIndex_processTpcDecision (l : Ledger) (tid : Int) (isCommit : Bool) :
    (l.processTpcDecision tid isCommit).paxosIndex = l.paxosIndex := by
  simp only [processTpcDecision, decision_wal]
  split <;> rfl

/-- The sweep's treatment of a timed-out tid is the abort decision on it. -/
theorem timeoutTransaction_eq (l : Ledger) (tid : Int) :
    l.timeoutTransaction tid = l.processTpcDecision tid false := by
  simp only [timeoutTransaction, processTpcDecision]
  split_ifs <;> first | rfl | contradiction

@[simp]
theorem paxosIndex_sweep (l : Ledger) : l.sweep.paxosIndex = l.paxosIndex := by
  refine List.foldlRecOn (motive := fun l' : Ledger => l'.paxosIndex = l.paxosIndex) l.expired
    timeoutTransaction rfl ?_
  intro l' hl' tid _
  rw [timeoutTransaction_eq, paxosIndex_processTpcDecision, hl']

/-! ## Chains of operations -/

/-- Two ledgers that differ only in locks, clocks and a raw log marker that may have advanced. -/
structure Frame (l l' : Ledger) : Prop where
  constants : l'.constants = l.constants
  clusterId : l'.clusterId = l.clusterId
  balances : l'.balances = l.balances
  dbBalances : l'.dbBalances = l.dbBalances
  balanceApplied : l'.balanceApplied = l.balanceApplied
  wal : l'.wal = l.wal
  log : l'.log = l.log
  paxosIndex : l'.paxosIndex = l.paxosIndex
  lastInserted : l.lastInserted ≤ l'.lastInserted

theorem Frame.touch {l : Ledger} (locks : Finset Int) (clock : Int) (prepareTimestamps : TidMap Int) :
    l.Frame { l with locks := locks, clock := clock, prepareTimestamps := prepareTimestamps } :=
  ⟨rfl, rfl, rfl, rfl, rfl, rfl, rfl, rfl, le_rfl⟩

theorem Frame.lockBoth (l : Ledger) (a b : Int) : l.Frame ((l.lockInShard a).lockInShard b) := .touch _ _ _

theorem Frame.unlockBoth (l : Ledger) (a b : Int) : l.Frame ((l.unlockInShard a).unlockInShard b) := .touch _ _ _

theorem Frame.trans {l l' l'' : Ledger} (h : l.Frame l') (h' : l'.Frame l'') : l.Frame l'' where
  constants := h'.constants.trans h.constants
  clusterId := h'.clusterId.trans h.clusterId
  balances := h'.balances.trans h.balances
  dbBalances := h'.dbBalances.trans h.dbBalances
  balanceApplied := h'.balanceApplied.trans h.balanceApplied
  wal := h'.wal.trans h.wal
  log := h'.log.trans h.log
  paxosIndex := h'.paxosIndex.trans h.paxosIndex
  lastInserted := h.lastInserted.trans h'.lastInserted

end Ledger

open Relation Lib

/-- A predicate on log entries that does not look at the ballot. -/
abbrev EntryPred := TransactionType → TransactionStatus → Int → Transaction → Prop

/-- The entry satisfies `P` — also as the prepared entry that a WAL makes of it. -/
def WALEntry.Sat (P : EntryPred) (e : WALEntry) : Prop :=
  P e.type e.status e.tid e.txn ∧ (e.status = .prepared → P .cross .prepared e.tid e.txn)

/-- One operation on a ledger that logs nothing of its own but entries that satisfy `P`, and syncs nothing
but entries that satisfy `S`.  A decision may log the pending entry under its new status. -/
inductive LedgerStep (P : EntryPred) (S : WALEntry → Prop) : Ledger → Ledger → Prop
  | prepare (l : Ledger) (request : TransferReq) (ballot : Ballot) :
      P .cross .prepared request.tid request.txn → LedgerStep P S l (l.prepareTransaction request ballot)
  | commit (l : Ledger) (request : TransferReq) (ballot : Ballot) :
      P .intra .committed request.tid request.txn → LedgerStep P S l (l.commitTransaction request ballot)
  | decide (l : Ledger) (tid : Int) (isCommit : Bool) :
      (∀ txn, P .cross .prepared tid txn → P .cross (Ledger.decisionStatus isCommit) tid txn) →
      LedgerStep P S l (l.processTpcDecision tid isCommit)
  | insert (l : Ledger) (entry : WALEntry) : S entry → LedgerStep P S l (l.insertSynced entry)
  | frame {l l' : Ledger} : l.Frame l' → LedgerStep P S l l'

/-- One operation on a ledger, with what it is called with. -/
inductive LedgerOp
  | prepare (request : TransferReq) (ballot : Ballot)
  | commit (request : TransferReq) (ballot : Ballot)
  | decide (tid : Int) (isCommit : Bool)
  | insert (entry : WALEntry)

namespace LedgerOp

/-- What the operation does. -/
def apply (l : Ledger) : LedgerOp → Ledger
  | prepare request ballot => l.prepareTransaction request ballot
  | commit request ballot => l.commitTransaction request ballot
  | decide tid isCommit => l.processTpcDecision tid isCommit
  | insert entry => l.insertSynced entry

/-- The operation logs what satisfies `P`, or syncs what satisfies `S`. -/
def Sat (P : EntryPred) (S : WALEntry → Prop) : LedgerOp → Prop
  | prepare request _ => P .cross .prepared request.tid request.txn
  | commit request _ => P .intra .committed request.tid request.txn
  | decide tid isCommit => ∀ txn, P .cross .prepared tid txn → P .cross (Ledger.decisionStatus isCommit) tid txn
  | insert entry => S entry

end LedgerOp

/-- One of the operations `ok`, or a change of fields that none of them reads. -/
inductive LedgerMove (ok : LedgerOp → Prop) : Ledger → Ledger → Prop
  | op {l : Ledger} (o : LedgerOp) : ok o → LedgerMove ok l (o.apply l)
  | frame {l l' : Ledger} : l.Frame l' → LedgerMove ok l l'

theorem LedgerMove.step {P : EntryPred} {S : WALEntry → Prop} {ok : LedgerOp → Prop} {l l' : Ledger}
    (h : LedgerMove ok l l') (hok : ∀ o, ok o → o.Sat P S) : LedgerStep P S l l' := by
  cases h with
  | frame hf => exact .frame hf
  | op o ho =>
    have hsat := hok o ho
    cases o with
    | prepare request ballot => exact .prepare l request ballot hsat
    | commit request ballot => exact .commit l request ballot hsat
    | decide tid isCommit => exact .decide l tid isCommit hsat
    | insert entry => exact .insert l entry hsat

/-- A predicate on client requests, by the RPC they came with (`true` for `TpcPrepare`). -/
abbrev RequestPred := Bool → Int → Transaction → Prop

/-- All requests the server holds satisfy `Q`; what is in `accept_batch` came with some RPC. -/
structure ServerImpl.Carries (Q : RequestPred) (s : ServerImpl) : Prop where
  pending : ∀ b ∈ s.pending, Q b.isCrossShard b.request.tid b.request.txn
  current : ∀ b ∈ s.current, Q b.isCrossShard b.request.tid b.request.txn
  acceptBatch : ∀ r ∈ s.acceptBatch, ∃ isCross, Q isCross r.tid r.txn

/-- All requests an event brings satisfy `Q`. -/
def Event.Carries (Q : RequestPred) : Event → Prop
  | .input (.transfer _ request) => Q false request.tid request.txn
  | .input (.tpcPrepare _ request) => Q true request.tid request.txn
  | .acceptCall request => ∀ r ∈ request.batch, ∃ isCross, Q isCross r.tid r.txn
  | _ => True

/-- The tids the sweep would abort now: timed out, and still undecided here.  (A timestamp outlives a
decision that came with a sync.) -/
def Ledger.timesOut (l : Ledger) : List Int :=
  l.expired.filter fun tid => (l.wal.pendingEntry tid).isSome

/-- The decisions and synced entries of an event satisfy `P`. -/
def ServerImpl.Logs (P : EntryPred) (s : ServerImpl) : Event → Prop
  | .input (.tpcDecision tid isCommit) =>
      ∀ txn, P .cross .prepared tid txn → P .cross (Ledger.decisionStatus isCommit) tid txn
  | .input .sweep =>
      ∀ tid ∈ s.ledger.timesOut, ∀ txn, P .cross .prepared tid txn → P .cross .aborted tid txn
  | .syncReply status response => status = .ok → ∀ e ∈ response.logs, e.toWALEntry.Sat P
  | _ => True

/-- What requests that satisfy `Q` are logged as — by a leader, which goes by the RPC, or by a replica,
which goes by the shard — satisfies `P`. -/
structure Ledger.Fits (Q : RequestPred) (P : EntryPred) (l : Ledger) : Prop where
  ledCross : ∀ t txn, Q true t txn → P .cross .prepared t txn
  ledIntra : ∀ t txn, Q false t txn → P .intra .committed t txn
  cross : ∀ isCross t txn, Q isCross t txn → ServerImpl.crossHere l txn = true → P .cross .prepared t txn
  intra : ∀ isCross t txn, Q isCross t txn → ServerImpl.intraHere l txn = true → P .intra .committed t txn

namespace ServerImpl

variable {Q : RequestPred} {P : EntryPred} {S : WALEntry → Prop} {ok : LedgerOp → Prop}

/-! ### The loops -/

theorem sweep_chain {l : Ledger} (h : ∀ tid ∈ l.timesOut, ok (.decide tid false)) :
    ReflTransGen (LedgerMove ok) l l.sweep := by
  -- along the loop nothing becomes pending, so what is aborted was pending at its start
  refine (List.foldlRecOn (motive := fun l' : Ledger => (∀ t, l.wal.pendingEntry t = none →
    l'.wal.pendingEntry t = none) ∧ ReflTransGen (LedgerMove ok) l l') l.expired _ ⟨fun _ h => h, .refl⟩ ?_).2
  rintro l' ⟨hnone, hchain⟩ tid htid
  rw [Ledger.timeoutTransaction_eq]
  refine ⟨?_, ?_⟩
  · intro t ht
    rw [Ledger.wal_processTpcDecision]
    exact WAL.pendingEntry_decideTransaction_none tid _ (hnone t ht)
  · cases hpending : l'.wal.pendingEntry tid with
    | none =>
      rw [Ledger.processTpcDecision_none false hpending]
      exact hchain.tail (.frame (.touch _ _ _))
    | some e =>
      have hsome : (l.wal.pendingEntry tid).isSome := by
        rw [Option.isSome_iff_ne_none]
        intro hn
        rw [hnone tid hn] at hpending
        cases hpending
      exact hchain.tail (.op (.decide tid false) (h tid (List.mem_filter.mpr ⟨htid, hsome⟩)))

/-- A loop over requests, for a body that stays in the shard. -/
theorem batch_chain {α : Type} {f : Ledger → α → Ledger} {xs : List α} {l : Ledger}
    (hshard : ∀ l x, (f l x).isClientInCluster = l.isClientInCluster)
    (h : ∀ x ∈ xs, ∀ l' : Ledger, l'.isClientInCluster = l.isClientInCluster →
      ReflTransGen (LedgerMove ok) l' (f l' x)) :
    ReflTransGen (LedgerMove ok) l (xs.foldl f l) := by
  refine (List.foldlRecOn (motive := fun l' : Ledger => l'.isClientInCluster = l.isClientInCluster ∧
    ReflTransGen (LedgerMove ok) l l') xs f ⟨rfl, .refl⟩ ?_).2
  rintro l' ⟨hl', hchain⟩ x hx
  exact ⟨(hshard l' x).trans hl', hchain.trans (h x hx l' hl')⟩

@[simp]
theorem isClientInCluster_commitTransaction (l : Ledger) (request : TransferReq) (ballot : Ballot) :
    (l.commitTransaction request ballot).isClientInCluster = l.isClientInCluster := by
  funext a
  simp [Ledger.isClientInCluster]

theorem isClientInCluster_acceptEntry (ballot : Ballot) (l : Ledger) (r : TransferReq) :
    (acceptEntry ballot l r).isClientInCluster = l.isClientInCluster := by
  unfold acceptEntry
  dsimp only
  split <;> rfl

theorem isClientInCluster_commitAccepted (ballot : Ballot) (l : Ledger) (r : TransferReq) :
    (commitAccepted ballot l r).isClientInCluster = l.isClientInCluster := by
  unfold commitAccepted
  dsimp only
  split
  · rw [isClientInCluster_commitTransaction]
    rfl
  · rfl

theorem acceptEntry_chain (ballot : Ballot) {batch : List TransferReq} {l : Ledger}
    (h : ∀ r ∈ batch, crossHere l r.txn = true → ok (.prepare r ballot)) :
    ReflTransGen (LedgerMove ok) l (batch.foldl (acceptEntry ballot) l) := by
  refine batch_chain (isClientInCluster_acceptEntry ballot) ?_
  intro r hr l' hshard
  have hlock : LedgerMove ok l' ((l'.lockInShard r.txn.sender).lockInShard r.txn.receiver) :=
    .frame (.touch _ _ _)
  unfold acceptEntry
  dsimp only
  split
  · rename_i hcross
    rw [crossHere, hshard] at hcross
    exact (ReflTransGen.single hlock).tail (.op (.prepare r ballot) (h r hr hcross))
  · exact .single hlock

theorem commitAccepted_chain (ballot : Ballot) {batch : List TransferReq} {l : Ledger}
    (h : ∀ r ∈ batch, intraHere l r.txn = true → ok (.commit r ballot)) :
    ReflTransGen (LedgerMove ok) l (batch.foldl (commitAccepted ballot) l) := by
  refine batch_chain (isClientInCluster_commitAccepted ballot) ?_
  intro r hr l' hshard
  have hfree : LedgerMove ok l' ((l'.unlockInShard r.txn.sender).unlockInShard r.txn.receiver) :=
    .frame (.touch _ _ _)
  unfold commitAccepted
  dsimp only
  split
  · rename_i hintra
    rw [intraHere, hshard] at hintra
    exact (ReflTransGen.single hfree).tail (.op (.commit r ballot) (h r hr hintra))
  · exact .single hfree

theorem commitEntry_chain (ballot : Ballot) {batch : List BatchEntry} (l : Ledger)
    (h : ∀ b ∈ batch, b.isCrossShard = false → ok (.commit b.request ballot)) :
    ReflTransGen (LedgerMove ok) l (batch.foldl (commitEntry ballot) l) := by
  refine reflTransGen_foldl ?_ l
  intro b hb l
  have hfree : LedgerMove ok l (l.unlockBoth b.request.txn) :=
    .frame (.touch _ _ _)
  unfold commitEntry
  cases hcross : b.isCrossShard with
  | true => exact .refl
  | false => exact (ReflTransGen.single hfree).tail (.op (.commit b.request ballot) (h b hb hcross))

/-- The release of a batch changes the locks and nothing else. -/
theorem foldl_releaseEntry_eq (preparePhase : Bool) (batch : List BatchEntry) (l : Ledger) :
    ∃ locks, batch.foldl (releaseEntry preparePhase) l = { l with locks := locks } := by
  refine List.foldlRecOn (motive := fun l' : Ledger => ∃ locks, l' = { l with locks := locks }) batch
    (releaseEntry preparePhase) ⟨l.locks, rfl⟩ ?_
  rintro _ ⟨locks, rfl⟩ b _
  unfold releaseEntry
  split
  · exact ⟨_, rfl⟩
  · exact ⟨locks, rfl⟩

theorem releaseEntry_chain (preparePhase : Bool) (batch : List BatchEntry) (l : Ledger) :
    ReflTransGen (LedgerMove ok) l (batch.foldl (releaseEntry preparePhase) l) := by
  obtain ⟨locks, h⟩ := foldl_releaseEntry_eq preparePhase batch l
  rw [h]
  exact .single (.frame (.touch locks _ _))

theorem applySync_chain {response : SyncRes} (h : ∀ e ∈ response.logs, ok (.insert e.toWALEntry))
    (l : Ledger) : ReflTransGen (LedgerMove ok) l (l.applySync response) := by
  have hloop : ReflTransGen (LedgerMove ok) l
      ((response.logs.map LogEntry.toWALEntry).foldl Ledger.insertSynced l) := by
    refine reflTransGen_foldl ?_ l
    intro entry hentry l
    obtain ⟨e, he, rfl⟩ := List.mem_map.mp hentry
    exact .single (.op (.insert _) (h e he))
  refine hloop.tail (.frame ⟨rfl, rfl, rfl, rfl, rfl, rfl, rfl, rfl, ?_⟩)
  exact le_add_of_nonneg_right (Int.natCast_nonneg _)

theorem validateEntry_chain (ballot : Ballot) (a : Admission) {b : BatchEntry}
    (h : b.isCrossShard = true → ok (.prepare b.request ballot)) :
    ReflTransGen (LedgerMove ok) a.ledger (validateEntry ballot a b).ledger := by
  have hlock : LedgerMove ok a.ledger
      ((a.ledger.lockInShard b.request.txn.sender).lockInShard b.request.txn.receiver) :=
    .frame (.touch _ _ _)
  unfold validateEntry
  split
  · exact .refl
  · dsimp only
    split
    · rename_i hcross
      exact (ReflTransGen.single hlock).tail (.op (.prepare b.request ballot) (h hcross))
    · exact .single hlock

theorem admitAll_chain (ballot : Ballot) {batch : List BatchEntry} (l : Ledger)
    (h : ∀ b ∈ batch, b.isCrossShard = true → ok (.prepare b.request ballot)) :
    ReflTransGen (LedgerMove ok) l (admitAll l ballot batch).ledger := by
  refine List.foldlRecOn (motive := fun a => ReflTransGen (LedgerMove ok) l a.ledger)
    batch (validateEntry ballot) (b := ⟨l, [], []⟩) .refl ?_
  intro a ha b hb
  exact ha.trans (validateEntry_chain ballot a (h b hb))

/-- Every kept entry was in the batch. -/
theorem mem_of_mem_kept {l : Ledger} {ballot : Ballot} {batch : List BatchEntry} :
    ∀ b ∈ (admitAll l ballot batch).kept, b ∈ batch := by
  refine List.foldlRecOn (motive := fun a => ∀ b ∈ a.kept, b ∈ batch)
    batch (validateEntry ballot) (b := ⟨l, [], []⟩) (by simp) ?_
  intro a ha b hb b' hb'
  unfold validateEntry at hb'
  split at hb'
  · exact ha b' hb'
  · rcases List.mem_append.mp hb' with hold | hnew
    · exact ha b' hold
    · rw [List.mem_singleton.mp hnew]
      exact hb

/-! ### The moves -/

/-- The operations the server may run on its ledger while it handles an event. -/
inductive Does (s : ServerImpl) : Event → LedgerOp → Prop
  | ledPrepare {status request response} {b : BatchEntry} : s.awaitPrepareDecision = true → b ∈ s.current →
      b.isCrossShard = true → Does s (.prepareReply status request response) (.prepare b.request s.promisedNum)
  | ledCommit {status request response} {b : BatchEntry} : s.awaitAcceptDecision = true → b ∈ s.current →
      b.isCrossShard = false → Does s (.acceptReply status request response) (.commit b.request s.acceptNum)
  | accepted {request : AcceptReq} {r : TransferReq} : s.iAmDisconnected = false → s.accepts request = true →
      r ∈ request.batch → crossHere s.ledger r.txn = true → Does s (.acceptCall request) (.prepare r request.ballot)
  | committed {request : CommitReq} {r : TransferReq} : s.iAmDisconnected = false → s.commits request = true →
      r ∈ s.acceptBatch → intraHere s.ledger r.txn = true → Does s (.commitCall request) (.commit r s.acceptNum)
  | decided (tid : Int) (isCommit : Bool) : Does s (.input (.tpcDecision tid isCommit)) (.decide tid isCommit)
  | swept {tid : Int} : tid ∈ s.ledger.timesOut → Does s (.input .sweep) (.decide tid false)
  | synced {response : SyncRes} {x : LogEntry} : response.ack = true → x ∈ response.logs →
      Does s (.syncReply .ok response) (.insert x.toWALEntry)

theorem Core.does {s t : ServerImpl} {e : Event} (h : Core s e t) :
    ReflTransGen (LedgerMove (s.Does e)) s.ledger t.ledger := by
  cases h with
  | idle | refuse | transfer | tpcPrepare | disconnect | promise | behind => exact .refl
  | countPrepare | staleLog | countAccept | notSynced => exact .refl
  | tick ms => exact .single (.frame (.touch _ _ _))
  | decision tid isCommit => exact .single (.op (.decide tid isCommit) (.decided tid isCommit))
  | sweep => exact sweep_chain fun tid htid => .swept htid
  | accept request hconn hacc =>
    exact acceptEntry_chain request.ballot fun r hr hcross => .accepted hconn hacc hr hcross
  | commit request hconn hcom =>
    exact commitAccepted_chain s.acceptNum fun r hr hintra => .committed hconn hcom hr hintra
  | reject a b hawait => exact admitAll_chain s.promisedNum s.ledger fun b hb hcross => .ledPrepare hawait hb hcross
  | propose a b hawait => exact admitAll_chain s.promisedNum s.ledger fun b hb hcross => .ledPrepare hawait hb hcross
  | abortPrepare => exact releaseEntry_chain true s.current s.ledger
  | commitRound a b hawait =>
    exact commitEntry_chain s.acceptNum s.ledger fun b hb hintra => .ledCommit hawait hb hintra
  | abortAccept => exact releaseEntry_chain false s.current s.ledger
  | synced response hack _ => exact applySync_chain (fun x hx => .synced hack hx) s.ledger

theorem Pre.does {s t : ServerImpl} {e : Event} (h : Pre s e t) :
    ReflTransGen (LedgerMove (s.Does e)) s.ledger t.ledger := by
  cases h with
  | staleBallot | notSynced => exact .refl
  | synced response hack _ => exact applySync_chain (fun x hx => .synced hack hx) s.ledger

/-- **Every handled event moves the ledger by a chain of the operations it can run.** -/
theorem handle_does (s : ServerImpl) (e : Event) :
    ReflTransGen (LedgerMove (s.Does e)) s.ledger (s.handle e).ledger := by
  have hclear : ({ s with outbox := [] } : ServerImpl).Does e = s.Does e := by
    funext o
    refine propext ⟨?_, ?_⟩ <;> rintro ⟨⟩ <;> constructor <;> assumption
  rw [← hclear]
  generalize hu : s.handle e = u
  cases moves_of_handle hu with
  | done hcore => exact hcore.does
  | start hcore => exact hcore.does
  | retry hpre => exact hpre.does

/-- Whatever the server could log while it handles the event satisfies `P`, and what it could sync `S`. -/
structure Feeds (P : EntryPred) (S : WALEntry → Prop) (s : ServerImpl) (e : Event) : Prop where
  ledCross : ∀ b ∈ s.current, b.isCrossShard = true → P .cross .prepared b.request.tid b.request.txn
  ledIntra : ∀ b ∈ s.current, b.isCrossShard = false → P .intra .committed b.request.tid b.request.txn
  accepted : ∀ request, e = .acceptCall request → ∀ r ∈ request.batch, crossHere s.ledger r.txn = true →
    P .cross .prepared r.tid r.txn
  committed : ∀ r ∈ s.acceptBatch, intraHere s.ledger r.txn = true → P .intra .committed r.tid r.txn
  decided : ∀ tid isCommit, e = .input (.tpcDecision tid isCommit) → ∀ txn, P .cross .prepared tid txn →
    P .cross (Ledger.decisionStatus isCommit) tid txn
  swept : e = .input .sweep → ∀ tid ∈ s.ledger.timesOut, ∀ txn, P .cross .prepared tid txn →
    P .cross .aborted tid txn
  synced : ∀ response, e = .syncReply .ok response → ∀ x ∈ response.logs, S x.toWALEntry

theorem Feeds.of_carries {s : ServerImpl} {e : Event} (hfit : s.ledger.Fits Q P) (hs : s.Carries Q)
    (he : e.Carries Q) (hlogs : s.Logs P e) : s.Feeds P (WALEntry.Sat P) e where
  ledCross := by
    intro b hb hcross
    have hQ := hs.current b hb
    rw [hcross] at hQ
    exact hfit.ledCross _ _ hQ
  ledIntra := by
    intro b hb hintra
    have hQ := hs.current b hb
    rw [hintra] at hQ
    exact hfit.ledIntra _ _ hQ
  accepted := by
    rintro request rfl r hr hcross
    obtain ⟨isCross, hQ⟩ := he r hr
    exact hfit.cross isCross _ _ hQ hcross
  committed := by
    intro r hr hintra
    obtain ⟨isCross, hQ⟩ := hs.acceptBatch r hr
    exact hfit.intra isCross _ _ hQ hintra
  decided := by
    rintro tid isCommit rfl
    exact hlogs
  swept := by
    rintro rfl
    exact hlogs
  synced := by
    rintro response rfl
    exact hlogs rfl

theorem Feeds.sat {s : ServerImpl} {e : Event} (h : s.Feeds P S e) {o : LedgerOp} (ho : s.Does e o) : o.Sat P S := by
  cases ho with
  | ledPrepare _ hb hcross => exact h.ledCross _ hb hcross
  | ledCommit _ hb hintra => exact h.ledIntra _ hb hintra
  | accepted _ _ hr hcross => exact h.accepted _ rfl _ hr hcross
  | committed _ _ hr hintra => exact h.committed _ hr hintra
  | decided tid isCommit => exact h.decided tid isCommit rfl
  | swept htid => exact h.swept rfl _ htid
  | synced _ hx => exact h.synced _ rfl _ hx

theorem Core.ledger_chain {s t : ServerImpl} {e : Event} (h : Core s e t) (hfeeds : s.Feeds P S e) :
    ReflTransGen (LedgerStep P S) s.ledger t.ledger :=
  ReflTransGen.mono (fun _ _ hmove => LedgerMove.step hmove fun _ ho => hfeeds.sat ho) _ _ h.does

/-- A chain of operations whose entries satisfy what everything the event feeds them satisfies. -/
theorem handle_ledger {s : ServerImpl} {e : Event} (hfeeds : s.Feeds P S e) :
    ReflTransGen (LedgerStep P S) s.ledger (s.handle e).ledger :=
  ReflTransGen.mono (fun _ _ hmove => LedgerMove.step hmove fun _ ho => hfeeds.sat ho) _ _ (s.handle_does e)

/-- The requests a server holds after an event were held before or came with it. -/
theorem Core.carries {s t : ServerImpl} {e : Event} (h : Core s e t) (hs : s.Carries Q)
    (he : e.Carries Q) : t.Carries Q := by
  cases h with
  | transfer call request | tpcPrepare call request =>
    refine ⟨?_, hs.current, hs.acceptBatch⟩
    intro b hb
    rcases List.mem_append.mp hb with hold | hnew
    · exact hs.pending b hold
    · rw [List.mem_singleton.mp hnew]
      exact he
  | accept request _ _ => exact ⟨hs.pending, hs.current, he⟩
  | propose =>
    refine ⟨hs.pending, fun b hb => hs.current b (mem_of_mem_kept b hb), ?_⟩
    intro r hr
    obtain ⟨b, hb, rfl⟩ := List.mem_map.mp hr
    exact ⟨b.isCrossShard, hs.current b (mem_of_mem_kept b hb)⟩
  | reject | abortPrepare | commitRound | abortAccept =>
    exact ⟨hs.pending, by simp [clearRound], by simp [clearRound]⟩
  | _ => exact ⟨hs.pending, hs.current, hs.acceptBatch⟩

theorem handle_carries {s : ServerImpl} {e : Event} (hs : s.Carries Q) (he : e.Carries Q) :
    (s.handle e).Carries Q := by
  have hs' : ({ s with outbox := [] } : ServerImpl).Carries Q := ⟨hs.pending, hs.current, hs.acceptBatch⟩
  generalize hu : s.handle e = u
  cases moves_of_handle hu with
  | done hcore => exact hcore.carries hs' he
  | start hcore =>
    have ht := hcore.carries hs' he
    exact ⟨fun _ hnil => absurd hnil List.not_mem_nil, ht.pending, ht.acceptBatch⟩
  | retry hpre =>
    constructor
    · rw [hpre.frame.pending]
      exact hs.pending
    · rw [hpre.frame.current]
      exact hs.current
    · rw [hpre.frame.acceptBatch]
      exact hs.acceptBatch

end ServerImpl

/-! ## The log after a sync -/

theorem Ledger.log_foldl_insertSynced (entries : List WALEntry) (l : Ledger) :
    (entries.foldl Ledger.insertSynced l).log = l.log ++ entries := by
  induction entries generalizing l with
  | nil => simp
  | cons e entries ih =>
    rw [List.foldl_cons, ih]
    show (l.log ++ [e]) ++ entries = l.log ++ e :: entries
    simp

theorem Ledger.log_applySync (l : Ledger) (response : SyncRes) :
    (l.applySync response).log = l.log ++ response.logs.map LogEntry.toWALEntry :=
  log_foldl_insertSynced _ l

/-- A log survives the wire. -/
theorem map_toWALEntry (log : List WALEntry) :
    (log.map getLogEntryFromLocalLog).map LogEntry.toWALEntry = log := by
  rw [List.map_map]
  exact List.map_id log

/-- Resuming a paused round leaves the ledger alone. -/
theorem ServerImpl.ledger_resumeAfterSync (s : ServerImpl) : s.resumeAfterSync.ledger = s.ledger := by
  unfold resumeAfterSync maybeStartRound
  split
  · rfl
  · split <;> rfl

/-- The ledger after a sync reply. -/
theorem ServerImpl.ledger_syncReply (s : ServerImpl) (status : Status) (response : SyncRes) :
    (s.handle (.syncReply status response)).ledger =
      if status = .ok ∧ response.ack = true then s.ledger.applySync response else s.ledger := by
  show (resumeAfterSync (if status = .ok && response.ack then applySync { s with outbox := [] } response
    else { s with outbox := [] })).ledger = _
  rw [ledger_resumeAfterSync]
  by_cases hok : status = .ok ∧ response.ack = true
  · rw [if_pos (by simp [hok.1, hok.2]), if_pos hok]
    rfl
  · rw [if_neg (by simpa using hok), if_neg hok]

end MultiPaxosDB
