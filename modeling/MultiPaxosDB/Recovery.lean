/-
# MultiPaxosDB.Recovery — what a restart brings back.

The process may stop at any event boundary, and `run` starts again on what is on disk: the WAL file, the
balances and the ballot number of LevelDB.  `WAL.recover` is the scan of the file and `boot` the start; on an
empty disk it is `ServerImpl.fresh` (`boot_empty`).  A life is a run with restarts in it.

`Ledger.Durable` says that memory and disk agree: the scan gives the log and the index of pending
transactions, and every balance of the shard is saved.  Each ledger operation keeps it, since each appends the
line that the scan reads back as the entry it logs; so a restart loses none of this (`restart_restores`).
The exceptions are the premises: a decision on the tid `-1` is written and not logged, a synced `IS_COMMIT`
drops its tid from the index and the scan does not, and three keywords a sync could write are skipped.

What is in neither place is lost: `boot` leaves `locks` and `prepareTimestamps` empty, whatever is pending
(`pending_restored_iff`).
-/
import MultiPaxosDB.Sequences

namespace MultiPaxosDB

open Lib
open Std (ExtTreeMap)

/-! ## `WAL::recover` -/

/-- What the scan of the file fills in. -/
structure Recovery where
  transferIndex : TidMap Int
  lastInserted : Int
  ballotNum : Int
  log : List WALEntry

/-- The entry made of a line. -/
def WalLine.entry (l : WalLine) (type : TransactionType) (status : TransactionStatus) : WALEntry :=
  { tid := l.tid, ballotNum := l.ballotNum, ballotServerId := l.ballotServerId, txn := l.txn, type := type,
    status := status }

/-- The four kinds of entries servers log. -/
def WALEntry.logged (e : WALEntry) : Bool :=
  isPaxosEntry e || e.type == .cross && (e.status == .committed || e.status == .aborted)

/-- The entry that is read back from a line. -/
def WalLine.recovered (l : WalLine) : Option WALEntry :=
  match l.op with
  | .inCommit => some (l.entry .intra .committed)
  | .keyed type status => if (l.entry type status).logged then some (l.entry type status) else none

theorem WalLine.ballotNum_recovered {l : WalLine} {e : WALEntry} (h : l.recovered = some e) :
    e.ballotNum = l.ballotNum := by
  unfold recovered at h
  split at h
  · cases h
    rfl
  · split at h
    · cases h
      rfl
    · cases h

namespace Recovery

/-- `log.push_back(entry); last_inserted = log.size() - 1;` -/
def push (r : Recovery) (entry : WALEntry) : Recovery :=
  { r with log := r.log ++ [entry], lastInserted := (r.log.length : Int) }

/-- The loop body of `WAL::recover`.  A line with any other keyword only counts for the ballot number. -/
def readLine (r : Recovery) (l : WalLine) (position : Nat) : Recovery :=
  let seen := { r with ballotNum := max r.ballotNum l.ballotNum }
  match l.op with
  | .inCommit => seen.push (l.entry .intra .committed)
  | .keyed .intra .committed => seen.push (l.entry .intra .committed)
  | .keyed .cross .prepared =>
    push { seen with transferIndex := r.transferIndex.insert l.tid position } (l.entry .cross .prepared)
  | .keyed .cross .committed =>
    push { seen with transferIndex := r.transferIndex.erase l.tid } (l.entry .cross .committed)
  | .keyed .cross .aborted =>
    push { seen with transferIndex := r.transferIndex.erase l.tid } (l.entry .cross .aborted)
  | _ => seen

/-- The loop of `WAL::recover` over a file, from a ballot number. -/
def scan (ballotNum : Int) (file : List WalLine) : Recovery :=
  file.zipIdx.foldl (fun r p => r.readLine p.1 p.2)
    { transferIndex := ∅, lastInserted := -1, ballotNum := ballotNum, log := [] }

/-- One line more at the end of the file is one more turn of the loop. -/
theorem scan_append (ballotNum : Int) (file : List WalLine) (l : WalLine) :
    scan ballotNum (file ++ [l]) = (scan ballotNum file).readLine l file.length := by
  simp [scan, List.zipIdx_append, List.foldl_append]

/-- A line adds the entry that is read back from it, if any. -/
theorem log_readLine (r : Recovery) (l : WalLine) (position : Nat) :
    (r.readLine l position).log = r.log ++ l.recovered.toList := by
  obtain ⟨op, _, _, _, _⟩ := l
  cases op with
  | inCommit => rfl
  | keyed type status =>
    cases type <;> cases status <;> first | rfl | exact (List.append_nil _).symm

theorem log_scan (ballotNum : Int) (file : List WalLine) :
    (scan ballotNum file).log = file.filterMap WalLine.recovered := by
  induction file using List.reverseRecOn with
  | nil => rfl
  | append_singleton file l ih =>
    rw [scan_append, log_readLine, ih, List.filterMap_append]
    cases h : l.recovered <;> simp [h]

theorem ballotNum_readLine (r : Recovery) (l : WalLine) (position : Nat) :
    (r.readLine l position).ballotNum = max r.ballotNum l.ballotNum := by
  unfold readLine
  dsimp only
  split <;> rfl

theorem neg_one_le_lastInserted_scan (ballotNum : Int) (file : List WalLine) :
    -1 ≤ (scan ballotNum file).lastInserted := by
  induction file using List.reverseRecOn with
  | nil => exact le_rfl
  | append_singleton file l ih =>
    have hpush : ∀ r : Recovery, -1 ≤ (r.log.length : Int) := fun r => by omega
    rw [scan_append]
    unfold readLine
    dsimp only
    split
    · exact hpush _
    · exact hpush _
    · exact hpush _
    · exact hpush _
    · exact hpush _
    · exact ih

/-- The recovered ballot number is not below the saved one. -/
theorem le_ballotNum_scan (ballotNum : Int) (file : List WalLine) : ballotNum ≤ (scan ballotNum file).ballotNum := by
  induction file using List.reverseRecOn with
  | nil => exact le_rfl
  | append_singleton file l ih =>
    rw [scan_append, ballotNum_readLine]
    exact ih.trans (le_max_left _ _)

/-- Nor below any ballot of the recovered log. -/
theorem ballotNum_le_scan (ballotNum : Int) (file : List WalLine) :
    ∀ e ∈ (scan ballotNum file).log, e.ballotNum ≤ (scan ballotNum file).ballotNum := by
  induction file using List.reverseRecOn with
  | nil => exact fun e he => absurd he List.not_mem_nil
  | append_singleton file l ih =>
    intro e he
    rw [scan_append] at he ⊢
    rw [log_readLine] at he
    rw [ballotNum_readLine]
    rcases List.mem_append.mp he with hold | hnew
    · exact (ih e hold).trans (le_max_left _ _)
    · rw [WalLine.ballotNum_recovered (Option.mem_toList.mp hnew)]
      exact le_max_right _ _

end Recovery

/-- `WAL::recover`, from the values `run` passes in; a file that does not open changes nothing. -/
def WAL.recover (w : WAL) (ballotNum : Int) : Recovery :=
  if w.canRead then Recovery.scan ballotNum w.file
  else { transferIndex := w.transferIndex, lastInserted := -1, ballotNum := ballotNum, log := [] }

/-- The index a scan builds is in step with the file. -/
theorem Recovery.ok_scan (b : Int) (file : List WalLine) :
    WAL.Ok { file := file, transferIndex := (scan b file).transferIndex, canRead := true, canWrite := true } := by
  induction file using List.reverseRecOn with
  | nil => exact WAL.Ok.empty
  | append_singleton file l ih =>
    refine WAL.Ok.put ih l (scan b (file ++ [l])).transferIndex ?_
    intro t p hp
    rw [scan_append] at hp
    have herase : ∀ {m : TidMap Int}, (m.erase l.tid)[t]? = some p → m[t]? = some p := by
      intro m hm
      rw [WAL.getElem?_erase_tid] at hm
      split at hm
      · cases hm
      · exact hm
    unfold readLine at hp
    dsimp only at hp
    split at hp
    · exact .inl hp
    · exact .inl hp
    · rw [show (push _ _).transferIndex = (scan b file).transferIndex.insert l.tid (file.length : Int) from rfl,
        WAL.getElem?_insert_tid] at hp
      split at hp
      · rename_i htid
        exact .inr ⟨(Option.some.inj hp).symm, htid.symm⟩
      · exact .inl hp
    · exact .inl (herase hp)
    · exact .inl (herase hp)
    · exact .inl hp

/-! ## `ServerImpl::run` -/

/-- What outlives the process: the WAL file, and the LevelDB keys of accounts and of the ballot number. -/
structure Disk where
  file : List WalLine
  balances : Int → Option Int32
  ballotNum : Option Int

/-- Nothing on disk yet. -/
def Disk.empty : Disk := { file := [], balances := fun _ => none, ballotNum := none }

/-- The accounts `run` loads: the clients of the shard. -/
def isShardClient (c : Constants) (clusterId account : Int) : Prop :=
  1 ≤ account ∧ account ≤ totalClients ∧ isClientInCluster c account clusterId = true

instance (c : Constants) (clusterId account : Int) : Decidable (isShardClient c clusterId account) :=
  inferInstanceAs (Decidable (_ ∧ _ ∧ _))

namespace ServerImpl

def disk (s : ServerImpl) : Disk :=
  { file := s.ledger.wal.file, balances := s.ledger.dbBalances, ballotNum := s.dbBallotNum }

/-- The ledger `run` builds from what is on disk and what the scan has recovered. -/
def bootLedger (c : Constants) (clusterId : Int) (d : Disk) (r : Recovery) : Ledger where
  constants := c
  clusterId := clusterId
  balances := fun account => if isShardClient c clusterId account then (d.balances account).getD 10 else 0
  -- an account that is not found is initialised
  dbBalances := fun account =>
    if isShardClient c clusterId account then some ((d.balances account).getD 10) else d.balances account
  balanceApplied := ∅
  locks := ∅
  clock := 0
  prepareTimestamps := ∅
  wal := { file := d.file, transferIndex := r.transferIndex, canRead := true, canWrite := true }
  log := r.log
  lastInserted := r.lastInserted
  lastInsertedBallot :=
    if 0 ≤ r.lastInserted then
      match r.log[r.lastInserted.toNat]? with
      | some e => { num := e.ballotNum, serverId := e.ballotServerId }
      | none => .zero
    else .zero
  paxosIndex := r.log.foldl (fun index e => if isPaxosEntry e then index + 1 else index) (-1)

/-- The constructor and `ServerImpl::run`, up to `HandleRPCs`, on what is on disk. -/
def boot (c : Constants) (serverId : Int) (d : Disk) : ServerImpl :=
  let wal : WAL := { file := d.file, transferIndex := ∅, canRead := true, canWrite := true }
  let r := wal.recover (d.ballotNum.getD 0)
  persistBallotNum { fresh c serverId with
    ledger := bootLedger c (getClusterIdFromServerId c serverId) d r
    ballotNum := r.ballotNum }

/-- The first start is a start on an empty disk. -/
theorem boot_empty (c : Constants) (serverId : Int) : boot c serverId .empty = fresh c serverId := by
  rfl

/-- The process stops between two events and `run` starts again on the same files. -/
def restart (s : ServerImpl) : ServerImpl := boot s.ledger.constants s.serverId s.disk

end ServerImpl

/-! ## Memory and disk agree -/

namespace Ledger

variable {l l' : Ledger} {X : Int → Prop}

/-! ### The lines of the operations -/

theorem file_commitTransaction (hw : l.wal.Ok) {request : TransferReq} (hnew : request.tid ∉ l.balanceApplied)
    (ballot : Ballot) : (l.commitTransaction request ballot).wal.file = l.wal.file ++
      [{ op := .inCommit, tid := request.tid, ballotNum := ballot.num, ballotServerId := ballot.serverId,
         txn := request.txn }] := by
  rw [wal_commitTransaction hnew, hw.commitTransaction_eq, WAL.put, if_pos hw.canWrite]

theorem file_processTpcDecision (hw : l.wal.Ok) {tid p : Int} (hindex : l.wal.transferIndex[tid]? = some p)
    (isCommit : Bool) : (l.processTpcDecision tid isCommit).wal.file = l.wal.file ++
      [{ op := .keyed .cross (decisionStatus isCommit), tid := tid,
         ballotNum := (l.wal.getTransactionFromFile p).ballotNum,
         ballotServerId := (l.wal.getTransactionFromFile p).ballotServerId,
         txn := (l.wal.getTransactionFromFile p).txn }] := by
  rw [wal_processTpcDecision]
  simp only [WAL.decideTransaction, hindex, WAL.put, if_pos hw.canWrite]

theorem file_insertSynced (hw : l.wal.Ok) (entry : WALEntry) :
    (l.insertSynced entry).wal.file = l.wal.file ++
      [{ op := .keyed entry.type entry.status, tid := entry.tid, ballotNum := entry.ballotNum,
         ballotServerId := entry.ballotServerId, txn := entry.txn }] := by
  show (l.wal.insertEntry entry).file = _
  rw [WAL.insertEntry, if_pos hw.canWrite, WAL.put, if_pos hw.canWrite]

/-! ### What the operations save -/

/-- Every balance of the shard is saved. -/
def Saved (l : Ledger) : Prop :=
  ∀ a, isShardClient l.constants l.clusterId a → l.dbBalances a = some (l.balances a)

theorem Saved.applyInShard (h : l.Saved) (firstApply : Bool) (account delta : Int) :
    (l.applyInShard firstApply account delta).Saved := by
  intro a ha
  have hold : l.dbBalances a = some (l.balances a) := h a ha
  show (if firstApply && l.isClientInCluster account then _ else l.dbBalances) a =
    some ((if firstApply && l.isClientInCluster account then _ else l.balances) a)
  split
  · by_cases heq : a = account
    · rw [heq, Function.update_self, Function.update_self]
    · rw [Function.update_of_ne heq, Function.update_of_ne heq]
      exact hold
  · exact hold

theorem Saved.frame (h : l.Saved) (hf : l.Frame l') : l'.Saved := by
  intro a ha
  rw [hf.constants, hf.clusterId] at ha
  rw [hf.dbBalances, hf.balances]
  exact h a ha

/-- The intra-shard commit saves both accounts after it has moved both. -/
theorem Saved.commitTransaction (h : l.Saved) (request : TransferReq) (ballot : Ballot) :
    (l.commitTransaction request ballot).Saved := by
  unfold Ledger.commitTransaction
  split
  · exact h
  · intro a ha
    have hold : l.dbBalances a = some (l.balances a) := h a ha
    simp only [updateBalance, addBalance]
    by_cases hr : a = (l.wal.commitTransaction request ballot).2.txn.receiver
    · rw [hr, Function.update_self]
    · rw [Function.update_of_ne hr, Function.update_of_ne hr]
      by_cases hs : a = (l.wal.commitTransaction request ballot).2.txn.sender
      · rw [hs, Function.update_self]
        rw [hs] at hr
        rw [Function.update_of_ne hr]
      · rw [Function.update_of_ne hs, Function.update_of_ne hs]
        exact hold

/-- A decision on a pending tid, as the line it writes and the entry `e` it reads back. -/
structure Decides (l : Ledger) (tid : Int) (isCommit : Bool) (e : WALEntry) : Prop where
  tid_eq : e.tid = tid
  cross : e.type = .cross
  wal : (l.processTpcDecision tid isCommit).wal =
    l.wal.put { op := .keyed .cross (decisionStatus isCommit), tid := tid, ballotNum := e.ballotNum,
                ballotServerId := e.ballotServerId, txn := e.txn } (l.wal.transferIndex.erase tid)
  result : l.processTpcDecision tid isCommit = (l.logDecision tid isCommit (decidedEntry e isCommit)).settleDecision
    (decidedEntry e isCommit) (isCommit && decide (tid ∉ l.balanceApplied))

theorem Decides.of_index (hw : l.wal.Ok) {tid p : Int} (hindex : l.wal.transferIndex[tid]? = some p)
    (htid : tid ≠ -1) (isCommit : Bool) : l.Decides tid isCommit (l.wal.getTransactionFromFile p) := by
  have he : l.wal.pendingEntry tid = some (l.wal.getTransactionFromFile p) := WAL.pendingEntry_of_index hindex
  obtain ⟨het, htype, -⟩ := hw.pendingEntry_spec he
  refine ⟨het, htype, ?_, processTpcDecision_some hw isCommit he htid⟩
  rw [wal_processTpcDecision]
  simp only [WAL.decideTransaction, hindex, if_pos hw.canWrite]

/-- The line of a decision is read back as the entry it logs. -/
theorem Decides.readLine {tid : Int} {isCommit : Bool} {e : WALEntry} (h : l.Decides tid isCommit e) (r : Recovery)
    (position : Nat) :
    (r.readLine { op := .keyed .cross (decisionStatus isCommit), tid := tid, ballotNum := e.ballotNum,
                  ballotServerId := e.ballotServerId, txn := e.txn } position).log = r.log ++ [decidedEntry e isCommit] ∧
      (r.readLine { op := .keyed .cross (decisionStatus isCommit), tid := tid, ballotNum := e.ballotNum,
                    ballotServerId := e.ballotServerId, txn := e.txn } position).transferIndex =
        r.transferIndex.erase tid := by
  obtain ⟨htid, htype, -, -⟩ := h
  obtain ⟨_, _, _, _, _, _⟩ := e
  subst htid htype
  cases isCommit with
  | true => exact ⟨rfl, rfl⟩
  | false => exact ⟨rfl, rfl⟩

theorem Saved.processTpcDecision (h : l.Saved) (hw : l.wal.Ok) (tid : Int) (isCommit : Bool) :
    (l.processTpcDecision tid isCommit).Saved := by
  cases he : l.wal.pendingEntry tid with
  | none =>
    rw [processTpcDecision_none isCommit he]
    exact h
  | some e =>
    by_cases htid : tid = -1
    · subst htid
      rw [processTpcDecision_sentinel hw isCommit he]
      exact h
    · rw [processTpcDecision_some hw isCommit he htid]
      have hlogged : (l.logDecision tid isCommit (decidedEntry e isCommit)).Saved := h
      exact Saved.applyInShard (Saved.applyInShard hlogged _ _ _) _ _ _

theorem Saved.insertSynced (h : l.Saved) (entry : WALEntry) : (l.insertSynced entry).Saved := by
  refine Saved.applyInShard (Saved.applyInShard ?_ _ _ _) _ _ _
  exact h

/-- What is on disk is what is in memory; the pending tids are positive and among `X`. -/
structure Durable (X : Int → Prop) (l : Ledger) : Prop where
  wal : l.wal.Ok
  log : ∀ b, (Recovery.scan b l.wal.file).log = l.log
  index : ∀ b, (Recovery.scan b l.wal.file).transferIndex = l.wal.transferIndex
  paxosIndex : l.paxosIndex + 1 = ((agreed l.log).length : Int)
  saved : l.Saved
  pending : ∀ t p, l.wal.transferIndex[t]? = some p → 0 < t ∧ X t

/-- One line that is read back as the entry logged with it. -/
theorem Durable.append (h : l.Durable X) {line : WalLine} {e : WALEntry} {index : TidMap Int}
    (hwal : l'.wal = l.wal.put line index) (hok : l'.wal.Ok) (hlog : l'.log = l.log ++ [e])
    (hline : ∀ r : Recovery, r.transferIndex = l.wal.transferIndex →
      (r.readLine line l.wal.file.length).log = r.log ++ [e] ∧
        (r.readLine line l.wal.file.length).transferIndex = index)
    (hcount : l'.paxosIndex = if isPaxosEntry e then l.paxosIndex + 1 else l.paxosIndex) (hsaved : l'.Saved)
    (hpending : ∀ t p, index[t]? = some p → 0 < t ∧ X t) : l'.Durable X := by
  have hfile : l'.wal.file = l.wal.file ++ [line] := by
    rw [hwal, WAL.put, h.wal.canWrite]
    rfl
  have hindex : l'.wal.transferIndex = index := by
    rw [hwal]
    rfl
  refine ⟨hok, ?_, ?_, ?_, hsaved, by rw [hindex]; exact hpending⟩
  · intro b
    rw [hfile, Recovery.scan_append, (hline _ (h.index b)).1, h.log b, hlog]
  · intro b
    rw [hfile, Recovery.scan_append, (hline _ (h.index b)).2, hindex]
  · rw [hlog]
    exact index_append h.paxosIndex hcount

theorem Durable.prepareTransaction (h : l.Durable X) (request : TransferReq) (ballot : Ballot)
    (htid : 0 < request.tid ∧ X request.tid) : (l.prepareTransaction request ballot).Durable X := by
  refine h.append (e := WAL.preparedEntry request ballot) rfl (h.wal.prepareTransaction request ballot) rfl ?_ rfl
    h.saved ?_
  · intro r hr
    refine ⟨rfl, ?_⟩
    show r.transferIndex.insert request.tid _ = l.wal.transferIndex.insert request.tid l.wal.tellp
    rw [hr, WAL.tellp, if_pos h.wal.canWrite]
  · exact WAL.keys_insert h.pending htid _

theorem Durable.commitTransaction (h : l.Durable X) (request : TransferReq) (ballot : Ballot) :
    (l.commitTransaction request ballot).Durable X := by
  by_cases hnew : request.tid ∈ l.balanceApplied
  · rw [commitTransaction_applied ballot hnew]
    exact h
  have hwal : (l.commitTransaction request ballot).wal = (l.wal.commitTransaction request ballot).1 :=
    wal_commitTransaction hnew ballot
  have hput : (l.commitTransaction request ballot).wal =
      l.wal.put { op := .inCommit, tid := request.tid, ballotNum := ballot.num, ballotServerId := ballot.serverId,
                  txn := request.txn } l.wal.transferIndex := by
    rw [hwal, h.wal.commitTransaction_eq]
  refine h.append (e := WAL.committedEntry request ballot) hput
    (by rw [hwal]; exact h.wal.commitTransaction request ballot) (log_commitTransaction hnew h.wal.canWrite ballot) ?_
    (paxosIndex_commitTransaction hnew ballot) (h.saved.commitTransaction request ballot) h.pending
  exact fun r hr => ⟨rfl, hr⟩

/-- The line of a decision is read back as the entry that was pending, decided. -/
theorem Durable.processTpcDecision (h : l.Durable X) (tid : Int) (isCommit : Bool) :
    (l.processTpcDecision tid isCommit).Durable X := by
  cases hindex : l.wal.transferIndex[tid]? with
  | none =>
    rw [processTpcDecision_none isCommit (WAL.pendingEntry_of_not_indexed hindex)]
    exact ⟨h.wal, h.log, h.index, h.paxosIndex, h.saved, h.pending⟩
  | some p =>
    have hpos := (h.pending tid p hindex).1
    have hd := Decides.of_index h.wal hindex (by omega) isCommit
    refine h.append (e := decidedEntry (l.wal.getTransactionFromFile p) isCommit) hd.wal ?_ (by rw [hd.result]; rfl)
      ?_ ?_ (h.saved.processTpcDecision h.wal tid isCommit) ?_
    · rw [wal_processTpcDecision]
      exact h.wal.decideTransaction tid _
    · intro r hr
      obtain ⟨hlog, hidx⟩ := hd.readLine r l.wal.file.length
      exact ⟨hlog, by rw [hidx, hr]⟩
    · rw [paxosIndex_processTpcDecision, if_neg]
      cases isCommit <;> simp [isPaxosEntry, decidedEntry, decisionStatus, hd.cross]
    · exact WAL.keys_erase h.pending tid

theorem Durable.insertSynced (h : l.Durable X) {entry : WALEntry} (hkind : entry.logged = true)
    (hcross : entry.type = .cross → 0 < entry.tid ∧ X entry.tid)
    (hintra : entry.type = .intra → ¬ X entry.tid) : (l.insertSynced entry).Durable X := by
  have hput : (l.insertSynced entry).wal = l.wal.put _ _ := if_pos h.wal.canWrite
  obtain ⟨tid, ballotNum, ballotServerId, txn, type, status⟩ := entry
  have herase : ∀ t p, (l.wal.transferIndex.erase tid)[t]? = some p → 0 < t ∧ X t := WAL.keys_erase h.pending tid
  have hok : (l.insertSynced ⟨tid, ballotNum, ballotServerId, txn, type, status⟩).wal.Ok := h.wal.insertEntry _
  have hsaved : (l.insertSynced ⟨tid, ballotNum, ballotServerId, txn, type, status⟩).Saved := h.saved.insertSynced _
  cases type with
  | intra =>
    cases status with
    | committed =>
      -- no pending tid is that of an intra-shard commit, so the index stays
      have hsame : l.wal.transferIndex.erase tid = l.wal.transferIndex :=
        WAL.erase_of_not_key h.pending fun hx => hintra rfl hx.2
      exact h.append (hput.trans (congrArg _ hsame)) hok rfl (fun r hr => ⟨rfl, hr⟩) rfl hsaved h.pending
    | noStatus | prepared | aborted => cases hkind
  | cross =>
    cases status with
    | noStatus => cases hkind
    | prepared =>
      refine h.append hput hok rfl (fun r hr => ⟨rfl, ?_⟩) rfl hsaved ?_
      · show r.transferIndex.insert tid _ = _
        rw [hr, WAL.tellp, if_pos h.wal.canWrite]
      · exact WAL.keys_insert h.pending (hcross rfl) _
    | committed => exact h.append hput hok rfl (fun r hr => ⟨rfl, by rw [← hr]; rfl⟩) rfl hsaved herase
    | aborted => exact h.append hput hok rfl (fun r hr => ⟨rfl, by rw [← hr]; rfl⟩) rfl hsaved herase

/-- What a server may log: nothing as cross-shard whose tid is not positive or not in `X`. -/
def crossIn (X : Int → Prop) : EntryPred := fun type _ t _ => type = .cross → 0 < t ∧ X t

/-- What a server may sync: an entry of the four kinds, of a tid in `X` exactly if it is cross-shard. -/
def syncIn (X : Int → Prop) (e : WALEntry) : Prop :=
  e.logged = true ∧ (e.type = .cross → 0 < e.tid ∧ X e.tid) ∧ (e.type = .intra → ¬ X e.tid)

theorem Durable.step (h : l.Durable X) (hstep : LedgerStep (crossIn X) (syncIn X) l l') : l'.Durable X := by
  cases hstep with
  | prepare request ballot hp => exact h.prepareTransaction request ballot (hp rfl)
  | commit request ballot => exact h.commitTransaction request ballot
  | decide tid isCommit => exact h.processTpcDecision tid isCommit
  | insert entry hs => exact h.insertSynced hs.1 hs.2.1 hs.2.2
  | frame hf =>
    exact ⟨hf.wal ▸ h.wal, by rw [hf.wal, hf.log]; exact h.log, by rw [hf.wal]; exact h.index,
      by rw [hf.paxosIndex, hf.log]; exact h.paxosIndex, h.saved.frame hf, hf.wal ▸ h.pending⟩

end Ledger

/-! ## One start -/

/-- The recount of `run` counts the agreed entries. -/
theorem foldl_isPaxosEntry (log : List WALEntry) (n : Int) :
    log.foldl (fun index e => if isPaxosEntry e then index + 1 else index) n = n + ((agreed log).length : Int) := by
  induction log generalizing n with
  | nil => simp [agreed]
  | cons e log ih =>
    rw [List.foldl_cons, ih]
    unfold agreed
    cases hp : isPaxosEntry e with
    | true => rw [List.filter_cons_of_pos hp, List.length_cons, if_pos rfl]; omega
    | false => rw [List.filter_cons_of_neg (by simp [hp]), if_neg Bool.false_ne_true]

/-- A start leaves a counted ledger, whatever is on disk. -/
theorem ServerImpl.counted_restart (s : ServerImpl) : s.restart.ledger.Counted where
  wal := Recovery.ok_scan _ s.ledger.wal.file
  index := by
    show (Recovery.scan _ s.ledger.wal.file).log.foldl _ (-1) + 1 = _
    rw [foldl_isPaxosEntry]
    exact neg_add_cancel_comm _ _
  marker := Recovery.neg_one_le_lastInserted_scan _ s.ledger.wal.file

namespace ServerImpl

variable {s t : ServerImpl} {e : Event} {X : Int → Prop}

/-- `t` has what `s` had: the log, the pending transactions at their positions, the agreed index and the balances,
and a ballot number that nothing before can have passed. -/
structure Restores (s t : ServerImpl) : Prop where
  log : t.ledger.log = s.ledger.log
  transferIndex : t.ledger.wal.transferIndex = s.ledger.wal.transferIndex
  paxosIndex : t.ledger.paxosIndex = s.ledger.paxosIndex
  balances : ∀ a, isShardClient s.ledger.constants s.ledger.clusterId a → t.ledger.balances a = s.ledger.balances a
  ballotNum : s.ballotNum ≤ t.ballotNum
  ballots : ∀ e ∈ s.ledger.log, e.ballotNum ≤ t.ballotNum

/-- What a server is between two events of its life. -/
structure Settled (X : Int → Prop) (c : Constants) (serverId : Int) (s : ServerImpl) : Prop where
  identity : s.serverId = serverId
  constants : s.ledger.constants = c
  clusterId : s.ledger.clusterId = getClusterIdFromServerId c serverId
  durable : s.ledger.Durable X
  requests : s.Carries fun isCross t _ => isCross = true → 0 < t ∧ X t
  ballotNum : s.dbBallotNum = some s.ballotNum

variable {c : Constants} {serverId : Int}

theorem Settled.restores (h : s.Settled X c serverId) : s.Restores s.restart where
  log := h.durable.log _
  transferIndex := h.durable.index _
  paxosIndex := by
    show (Recovery.scan _ s.ledger.wal.file).log.foldl _ (-1) = s.ledger.paxosIndex
    rw [h.durable.log, foldl_isPaxosEntry, ← h.durable.paxosIndex]
    omega
  balances := by
    intro a ha
    have hclient : isShardClient s.ledger.constants (getClusterIdFromServerId s.ledger.constants s.serverId) a := by
      rw [h.constants, h.identity, ← h.clusterId, ← h.constants]
      exact ha
    show (if isShardClient _ _ a then (s.ledger.dbBalances a).getD 10 else 0) = _
    rw [if_pos hclient, h.durable.saved a ha]
    rfl
  ballotNum := by
    refine le_trans ?_ (Recovery.le_ballotNum_scan _ _)
    rw [show s.disk.ballotNum = some s.ballotNum from h.ballotNum]
    rfl
  ballots := by
    intro e he
    refine Recovery.ballotNum_le_scan _ _ e ?_
    show e ∈ (Recovery.scan _ s.ledger.wal.file).log
    rw [h.durable.log]
    exact he

theorem Settled.restart (h : s.Settled X c serverId) : s.restart.Settled X c serverId where
  identity := h.identity
  constants := h.constants
  clusterId := by
    show getClusterIdFromServerId s.ledger.constants s.serverId = _
    rw [h.constants, h.identity]
  durable := by
    have hrest := h.restores
    have hwal : s.restart.ledger.wal = s.ledger.wal := by
      show WAL.mk s.ledger.wal.file s.restart.ledger.wal.transferIndex true true = _
      rw [hrest.transferIndex, ← h.durable.wal.canRead]
      conv => lhs; arg 4; rw [h.durable.wal.canRead, ← h.durable.wal.canWrite]
    refine ⟨by rw [hwal]; exact h.durable.wal, ?_, ?_, ?_, ?_, by rw [hwal]; exact h.durable.pending⟩
    · rw [hwal, hrest.log]
      exact h.durable.log
    · rw [hwal]
      exact h.durable.index
    · rw [hrest.paxosIndex, hrest.log]
      exact h.durable.paxosIndex
    · intro a ha
      have hclient : isShardClient s.ledger.constants (getClusterIdFromServerId s.ledger.constants s.serverId) a := ha
      show (if isShardClient _ _ a then some _ else _) = some (if isShardClient _ _ a then _ else 0)
      rw [if_pos hclient, if_pos hclient]
  requests := ⟨fun _ hb => absurd hb List.not_mem_nil, fun _ hb => absurd hb List.not_mem_nil,
    fun _ hr => absurd hr List.not_mem_nil⟩
  ballotNum := rfl

/-! ## Lives -/

/-- The ballot number is saved whenever it moves. -/
theorem Core.dbBallotNum (h : Core s e t) (hs : s.dbBallotNum = some s.ballotNum) :
    t.dbBallotNum = some t.ballotNum := by
  cases h with
  | promise | synced => rfl
  | _ => exact hs

theorem handle_dbBallotNum (hs : s.dbBallotNum = some s.ballotNum) (e : Event) :
    (s.handle e).dbBallotNum = some (s.handle e).ballotNum := by
  have hclear : ({ s with outbox := [] } : ServerImpl).dbBallotNum = some ({ s with outbox := [] } : ServerImpl).ballotNum :=
    hs
  generalize hu : s.handle e = u
  cases moves_of_handle hu with
  | done hcore => exact hcore.dbBallotNum hclear
  | start | retry => rfl

end ServerImpl

/-- The tids an event names as intra-shard: those of a `Transfer`, of an accepted entry with both accounts in the
shard, and of a synced `INTRA` entry. -/
def Event.intraTids (inShard : Int → Bool) : Event → List Int
  | .input (.transfer _ request) => [request.tid]
  | .acceptCall request => (request.batch.filter fun r => r.txn.within inShard).map TransferReq.tid
  | .syncReply .ok response => (response.logs.filter fun x => decide (x.type = .intra)).map LogEntry.tid
  | _ => []

/-- The tids an event names as cross-shard. -/
def Event.crossTids (inShard : Int → Bool) : Event → List Int
  | .input (.tpcPrepare _ request) => [request.tid]
  | .acceptCall request => (request.batch.filter fun r => r.txn.crosses inShard).map TransferReq.tid
  | .syncReply .ok response => (response.logs.filter fun x => decide (x.type = .cross)).map LogEntry.tid
  | _ => []

/-- The entries an event syncs. -/
def Event.synced : Event → List LogEntry
  | .syncReply .ok response => response.logs
  | _ => []

/-- The events of a server's life, and its restarts between them. -/
inductive LifeEvent
  | event (e : Event)
  | restart
deriving DecidableEq, Repr

def LifeEvent.events : LifeEvent → List Event
  | .event e => [e]
  | .restart => []

namespace ServerImpl

variable {s : ServerImpl} {X : Int → Prop} {c : Constants} {serverId : Int}

def live (s : ServerImpl) : LifeEvent → ServerImpl
  | .event e => s.handle e
  | .restart => s.restart

/-- The server that started fresh and lived through `es`. -/
def life (c : Constants) (serverId : Int) (es : List LifeEvent) : ServerImpl := es.foldl live (fresh c serverId)

/-- `paxos_index` and the WAL are in order in every state of every life. -/
theorem counted_life (c : Constants) (serverId : Int) (es : List LifeEvent) : (life c serverId es).ledger.Counted := by
  refine List.foldlRecOn (motive := fun s : ServerImpl => s.ledger.Counted) es live (.fresh c _) ?_
  intro s hs ev _
  cases ev with
  | event e => exact counted_handle hs e
  | restart => exact s.counted_restart

/-- Handling an event keeps memory and disk in step, if its cross-shard tids are in `X`, its intra-shard ones are
not, and what it syncs is of the four kinds. -/
theorem Settled.handle (h : s.Settled X c serverId) {e : Event}
    (hcross : ∀ t ∈ e.crossTids s.ledger.isClientInCluster, 0 < t ∧ X t)
    (hintra : ∀ t ∈ e.intraTids s.ledger.isClientInCluster, ¬ X t)
    (hkinds : ∀ x ∈ e.synced, x.toWALEntry.logged = true) : (s.handle e).Settled X c serverId := by
  have hfeeds : s.Feeds (Ledger.crossIn X) (Ledger.syncIn X) e := by
    refine ⟨?_, ?_, ?_, ?_, fun _ _ _ _ hp => hp, fun _ _ _ _ hp => hp, ?_⟩
    · intro b hb hc _
      exact h.requests.current b hb hc
    · intro b _ _ htype
      cases htype
    · rintro request rfl r hr hhere _
      exact hcross r.tid (List.mem_map.mpr ⟨r, List.mem_filter.mpr ⟨hr, hhere⟩, rfl⟩)
    · intro r _ _ htype
      cases htype
    · rintro response rfl x hx
      refine ⟨hkinds x hx, ?_, ?_⟩
      · intro htype
        exact hcross x.tid (List.mem_map.mpr ⟨x, List.mem_filter.mpr ⟨hx, decide_eq_true htype⟩, rfl⟩)
      · intro htype
        exact hintra x.tid (List.mem_map.mpr ⟨x, List.mem_filter.mpr ⟨hx, decide_eq_true htype⟩, rfl⟩)
  have hevent : e.Carries fun isCross t _ => isCross = true → 0 < t ∧ X t := by
    cases e with
    | input x =>
      cases x with
      | transfer call request => exact fun hc => absurd hc Bool.false_ne_true
      | tpcPrepare call request => exact fun _ => hcross request.tid (List.mem_singleton_self _)
      | _ => trivial
    | acceptCall request => exact fun r _ => ⟨false, fun hc => absurd hc Bool.false_ne_true⟩
    | _ => trivial
  obtain ⟨hconst, hcluster⟩ := s.handle_shard e
  refine ⟨?_, hconst.trans h.constants, hcluster.trans h.clusterId, ?_, handle_carries h.requests hevent,
    handle_dbBallotNum h.ballotNum e⟩
  · exact (s.handle_moves e).identity.1.trans h.identity
  · exact reflTransGen_invariant (motive := Ledger.Durable X) (fun _ _ hstep hl => hl.step hstep)
      (handle_ledger hfeeds) h.durable

theorem Settled.fresh (X : Int → Prop) (c : Constants) (serverId : Int) :
    (ServerImpl.fresh c serverId).Settled X c serverId where
  identity := rfl
  constants := rfl
  clusterId := rfl
  durable := by
    refine ⟨.empty, fun _ => rfl, fun _ => rfl, rfl, ?_, ?_⟩
    · intro a ha
      have hclient : isShardClient c (getClusterIdFromServerId c serverId) a := ha
      exact (if_pos hclient).trans (congrArg some (if_pos hclient).symm)
    · intro t p hp
      simp [ServerImpl.fresh, Ledger.fresh, WAL.empty] at hp
  requests := ⟨fun _ hb => absurd hb List.not_mem_nil, fun _ hb => absurd hb List.not_mem_nil,
    fun _ hr => absurd hr List.not_mem_nil⟩
  ballotNum := rfl

/-- The tids of a life that are intra-shard to the server. -/
def intraTidsOf (c : Constants) (serverId : Int) (es : List LifeEvent) : List Int :=
  (es.flatMap LifeEvent.events).flatMap
    (Event.intraTids fun a => isClientInCluster c a (getClusterIdFromServerId c serverId))

def crossTidsOf (c : Constants) (serverId : Int) (es : List LifeEvent) : List Int :=
  (es.flatMap LifeEvent.events).flatMap
    (Event.crossTids fun a => isClientInCluster c a (getClusterIdFromServerId c serverId))

/-- The cross-shard tids of a life are positive and none of its intra-shard ones, and its syncs bring only the
four kinds of entries that servers log. -/
structure TidsApart (c : Constants) (serverId : Int) (es : List LifeEvent) : Prop where
  positive : ∀ t ∈ crossTidsOf c serverId es, 0 < t
  apart : ∀ t ∈ intraTidsOf c serverId es, t ∉ crossTidsOf c serverId es
  kinds : ∀ x ∈ (es.flatMap LifeEvent.events).flatMap Event.synced, x.toWALEntry.logged = true

theorem settled_life {es : List LifeEvent} (h : TidsApart c serverId es) :
    (life c serverId es).Settled (fun t => t ∈ crossTidsOf c serverId es) c serverId := by
  refine List.foldlRecOn (motive := Settled (fun t => t ∈ crossTidsOf c serverId es) c serverId) es live
    (.fresh _ c serverId) ?_
  intro s hs ev hev
  cases ev with
  | restart => exact hs.restart
  | event e =>
    have hmem : e ∈ es.flatMap LifeEvent.events := List.mem_flatMap.mpr ⟨_, hev, List.mem_singleton_self e⟩
    have hshard : s.ledger.isClientInCluster = fun a => isClientInCluster c a (getClusterIdFromServerId c serverId) := by
      funext a
      rw [Ledger.isClientInCluster, hs.constants, hs.clusterId]
    refine hs.handle ?_ ?_ ?_
    · intro t ht
      rw [hshard] at ht
      have hin : t ∈ crossTidsOf c serverId es := List.mem_flatMap.mpr ⟨e, hmem, ht⟩
      exact ⟨h.positive t hin, hin⟩
    · intro t ht
      rw [hshard] at ht
      exact h.apart t (List.mem_flatMap.mpr ⟨e, hmem, ht⟩)
    · intro x hx
      exact h.kinds x (List.mem_flatMap.mpr ⟨e, hmem, hx⟩)

end ServerImpl

/-- **A restart restores the durable state**, at any event boundary of any life, restarts included. -/
theorem restart_restores (c : Constants) (serverId : Int) (es : List LifeEvent)
    (h : ServerImpl.TidsApart c serverId es) :
    (ServerImpl.life c serverId es).Restores (ServerImpl.life c serverId es).restart :=
  (ServerImpl.settled_life h).restores

/-- Server 2 accepts a cross-shard prepare and an intra-shard transfer, commits the round, restarts, hears the
decision, and syncs two entries. -/
def restartedInBetween : List LifeEvent :=
  [.event (.prepareCall ⟨⟨1, 1⟩, -1⟩), .event (.acceptCall ⟨⟨1, 1⟩, [⟨⟨1, 1001, 3⟩, 7⟩, ⟨⟨2, 3, 4⟩, 8⟩]⟩),
   .event (.commitCall ⟨⟨1, 1⟩⟩), .restart, .event (.input (.tpcDecision 7 true)),
   .event (.syncReply .ok { ack := true,
                            logs := [⟨⟨5, 2001, 1⟩, 9, .cross, .prepared, 2, 3⟩, ⟨⟨2, 5, 1⟩, 10, .intra, .committed, 2, 3⟩],
                            lastInsertedBallot := ⟨2, 3⟩ })]

theorem restart_restores_restartedInBetween :
    (ServerImpl.life ⟨3, 3⟩ 2 restartedInBetween).Restores (ServerImpl.life ⟨3, 3⟩ 2 restartedInBetween).restart :=
  restart_restores ⟨3, 3⟩ 2 restartedInBetween ⟨by decide +kernel, by decide +kernel, by decide +kernel⟩

/-! ## What is not on disk -/

/-- Line `i` of the file is a `CS_PREPARE`, and no later `CS_COMMIT` or `CS_ABORT` has its tid. -/
structure UndecidedAt (file : List WalLine) (i : Nat) (l : WalLine) : Prop where
  line : file[i]? = some l
  prepare : l.op = .keyed .cross .prepared
  later : ∀ j l', i < j → file[j]? = some l' → l'.tid = l.tid →
    l'.op ≠ .keyed .cross .committed ∧ l'.op ≠ .keyed .cross .aborted

/-- Every undecided transaction of the file has its accounts locked and its timeout running. -/
def ServerImpl.PendingRestored (s : ServerImpl) : Prop :=
  ∀ i l, UndecidedAt s.ledger.wal.file i l →
    (∀ a, a = l.txn.sender ∨ a = l.txn.receiver → s.ledger.isClientInCluster a = true → a ∈ s.ledger.locks) ∧
      (s.ledger.prepareTimestamps[l.tid]?).isSome = true

/-- **A restart restores the pending 2PC state exactly if there is none**: whatever the file says, `locks` and
`prepareTimestamps` start empty. -/
theorem pending_restored_iff (c : Constants) (serverId : Int) (es : List LifeEvent) :
    (ServerImpl.life c serverId es).restart.PendingRestored ↔
      ∀ i l, ¬ UndecidedAt (ServerImpl.life c serverId es).ledger.wal.file i l := by
  constructor
  · intro h i l hundecided
    have htimer := (h i l hundecided).2
    have hnone : (ServerImpl.life c serverId es).restart.ledger.prepareTimestamps = ∅ := rfl
    simp [hnone] at htimer
  · intro h i l hundecided
    exact absurd hundecided (h i l)

/-- Server 2 has accepted a cross-shard prepare when it restarts. -/
theorem pending_lost :
    ¬ ∀ es : List LifeEvent, (ServerImpl.life ⟨3, 3⟩ 2 es).restart.PendingRestored := by
  intro h
  have hpending := h [.event (.prepareCall ⟨⟨1, 1⟩, -1⟩), .event (.acceptCall ⟨⟨1, 1⟩, [⟨⟨1, 1001, 3⟩, 7⟩]⟩)]
  have hline : UndecidedAt [⟨.keyed .cross .prepared, 7, 1, 1, ⟨1, 1001, 3⟩⟩] 0
      ⟨.keyed .cross .prepared, 7, 1, 1, ⟨1, 1001, 3⟩⟩ := by
    refine ⟨rfl, rfl, ?_⟩
    intro j l' hj hl'
    rw [List.getElem?_eq_none (show [_].length ≤ j from hj)] at hl'
    cases hl'
  have hlocks := (hpending 0 _ hline).1 1 (.inl rfl) (by decide +kernel)
  exact absurd hlocks (Finset.notMem_empty 1)

end MultiPaxosDB
