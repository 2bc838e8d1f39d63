/-
# MultiPaxosDB.Wal — the write-ahead log (`wal.cc`) as a file of lines and an index of pending 2PC.

`WAL` is the class of `wal.h`: the file, here the list of its lines, and `transferIndex`, the map
from a pending transaction id to the position of its `PREPARE` line.  A position is a line number —
what `tellp` reports before an append and what `getTransactionFromFile` seeks to.  Whether the file
opens for reading and for appending is part of the state, because the operations branch on it: a
failed open makes `tellp` return `-1` and drops the line, and each operation answers it its own way.

The rest of the development never looks into the file.  It uses `pendingEntry w t`, the entry a
decision on `t` would read back, and the equations below that say how each operation moves it; they
hold for every file whose index is in step with it (`WAL.Ok`), which every operation preserves.
-/
import Std.Data.ExtTreeMap
import MultiPaxosDB.Types

namespace MultiPaxosDB

open Std (ExtTreeMap)

/-- The ordered maps keyed by a transaction id. -/
abbrev TidMap (V : Type) := ExtTreeMap Int V compare

/-- The keyword of a line: `IN_COMMIT`, or one of the `IS_`/`CS_` keywords, which are made of the
type and the status (`CS_PREPARE` is `keyed .cross .prepared`; an unset status adds nothing). -/
inductive WalOp
  | inCommit
  | keyed (type : TransactionType) (status : TransactionStatus)
deriving DecidableEq, Repr

/-- One line of the file. -/
structure WalLine where
  op : WalOp
  tid : Int
  ballotNum : Int
  ballotServerId : Int
  txn : Transaction
deriving DecidableEq, Repr

structure WAL where
  file : List WalLine
  transferIndex : TidMap Int
  canRead : Bool
  canWrite : Bool

/-- A fresh WAL: no file content, nothing pending, and I/O that works. -/
def WAL.empty : WAL := { file := [], transferIndex := ∅, canRead := true, canWrite := true }

/-- The entry `{ -1, -1, -1, { -1, -1, -1 }, CROSS, NO_STATUS }` that reports a failure. -/
def WALEntry.sentinel : WALEntry :=
  { tid := -1, ballotNum := -1, ballotServerId := -1, txn := ⟨-1, -1, -1⟩, type := .cross,
    status := .noStatus }

/-- The line at a stream position, if the seek and the read succeed. -/
def WAL.lineAt (w : WAL) (position : Int) : Option WalLine :=
  if 0 ≤ position then w.file[position.toNat]? else none

namespace WAL

/-- `WAL::getTransactionFromFile`.  After a failed seek or at the end of the file the extraction
leaves the C++ locals unset; the model reads them as zeros. -/
def getTransactionFromFile (w : WAL) (position : Int) : WALEntry :=
  if w.canRead then
    match w.lineAt position with
    | some l => { tid := l.tid, ballotNum := l.ballotNum, ballotServerId := l.ballotServerId,
                  txn := l.txn, type := .cross, status := .prepared }
    | none => { tid := 0, ballotNum := 0, ballotServerId := 0, txn := ⟨0, 0, 0⟩, type := .cross,
                status := .prepared }
  else .sentinel

/-- `outFile.tellp()` on a stream just opened for appending. -/
def tellp (w : WAL) : Int := if w.canWrite then (w.file.length : Int) else -1

/-- `outFile << line`, which writes nothing on a stream that failed to open, together with the index
the operation leaves behind. -/
def put (w : WAL) (l : WalLine) (index : TidMap Int) : WAL :=
  { w with file := if w.canWrite then w.file ++ [l] else w.file, transferIndex := index }

/-- `WAL::prepareTransaction` — indexes the tid and writes the line; a failed open is only logged. -/
def prepareTransaction (w : WAL) (request : TransferReq) (ballot : Ballot) : WAL × WALEntry :=
  (w.put { op := .keyed .cross .prepared, tid := request.tid, ballotNum := ballot.num,
           ballotServerId := ballot.serverId, txn := request.txn }
      (w.transferIndex.insert request.tid w.tellp),
   { tid := request.tid, ballotNum := ballot.num, ballotServerId := ballot.serverId,
     txn := request.txn, type := .cross, status := .prepared })

/-- `WAL::commitTransaction(TransferReq&, Ballot&)` — the intra-shard commit. -/
def commitTransaction (w : WAL) (request : TransferReq) (ballot : Ballot) : WAL × WALEntry :=
  if w.canWrite then
    (w.put { op := .inCommit, tid := request.tid, ballotNum := ballot.num,
             ballotServerId := ballot.serverId, txn := request.txn } w.transferIndex,
     { tid := request.tid, ballotNum := ballot.num, ballotServerId := ballot.serverId,
       txn := request.txn, type := .intra, status := .committed })
  else (w, .sentinel)

/-- The common body of `commitTransaction(TpcTid&)` and `abortTransaction`: look the tid up, read its
prepare line back, write the decision line, drop the tid from the index. -/
def decideTransaction (w : WAL) (tid : Int) (status : TransactionStatus) : WAL × WALEntry :=
  match w.transferIndex[tid]? with
  | none => (w, .sentinel)
  | some position =>
    let txn := w.getTransactionFromFile position
    if w.canWrite then
      (w.put { op := .keyed .cross status, tid := tid, ballotNum := txn.ballotNum,
               ballotServerId := txn.ballotServerId, txn := txn.txn } (w.transferIndex.erase tid),
       { txn with status := status })
    else (w, .sentinel)

/-- `WAL::commitTransaction(TpcTid&)`. -/
def commitTransactionTid (w : WAL) (tid : Int) : WAL × WALEntry := w.decideTransaction tid .committed

/-- `WAL::abortTransaction`. -/
def abortTransaction (w : WAL) (tid : Int) : WAL × WALEntry := w.decideTransaction tid .aborted

/-- `WAL::insertEntry` — an entry received by catch-up sync. -/
def insertEntry (w : WAL) (entry : WALEntry) : WAL :=
  if w.canWrite then
    w.put { op := .keyed entry.type entry.status, tid := entry.tid, ballotNum := entry.ballotNum,
            ballotServerId := entry.ballotServerId, txn := entry.txn }
      (match entry.status with
        | .prepared => w.transferIndex.insert entry.tid w.tellp
        | .committed => w.transferIndex.erase entry.tid
        | .aborted => w.transferIndex.erase entry.tid
        | .noStatus => w.transferIndex)
  else w

/-! ## The pending transactions -/

/-- The prepared entry a decision on `tid` would read back, if `tid` is pending. -/
def pendingEntry (w : WAL) (tid : Int) : Option WALEntry :=
  w.transferIndex[tid]?.map w.getTransactionFromFile

theorem pendingEntry_of_index {w : WAL} {tid p : Int} (h : w.transferIndex[tid]? = some p) :
    w.pendingEntry tid = some (w.getTransactionFromFile p) := by
  rw [pendingEntry, h]
  rfl

theorem pendingEntry_of_not_indexed {w : WAL} {tid : Int} (h : w.transferIndex[tid]? = none) :
    w.pendingEntry tid = none := by
  rw [pendingEntry, h]
  rfl

theorem pendingEntry_empty (tid : Int) : WAL.empty.pendingEntry tid = none :=
  pendingEntry_of_not_indexed ExtTreeMap.getElem?_empty

/-- The index is in step with the file: the I/O works and every indexed position is a line of that
transaction. -/
structure Ok (w : WAL) : Prop where
  canRead : w.canRead = true
  canWrite : w.canWrite = true
  line : ∀ t p, w.transferIndex[t]? = some p → ∃ l, w.lineAt p = some l ∧ l.tid = t

theorem Ok.empty : Ok WAL.empty :=
  { canRead := rfl, canWrite := rfl, line := by intro t p h; simp [WAL.empty] at h }

theorem lineAt_put {w : WAL} {l l' : WalLine} {p : Int} (index : TidMap Int)
    (h : w.lineAt p = some l) : (w.put l' index).lineAt p = some l := by
  unfold lineAt at h ⊢
  split at h
  · rename_i hp
    have hlt : p.toNat < w.file.length := by
      by_contra hge
      rw [List.getElem?_eq_none (by omega)] at h
      exact absurd h (by simp)
    rw [if_pos hp]
    cases hw : w.canWrite with
    | true => simpa [put, hw, List.getElem?_append_left hlt] using h
    | false => simpa [put, hw] using h
  · exact absurd h (by simp)

theorem lineAt_put_tellp {w : WAL} (hw : w.canWrite = true) (l : WalLine) (index : TidMap Int) :
    (w.put l index).lineAt w.tellp = some l := by
  simp [put, lineAt, tellp, hw]

/-- Reading back an indexed position is unaffected by a later append. -/
theorem Ok.getTransactionFromFile_put {w : WAL} (h : w.Ok) {t p : Int} (l : WalLine)
    (index : TidMap Int) (hp : w.transferIndex[t]? = some p) :
    (w.put l index).getTransactionFromFile p = w.getTransactionFromFile p := by
  obtain ⟨l', hl', -⟩ := h.line t p hp
  have hread : (w.put l index).canRead = w.canRead := rfl
  simp only [getTransactionFromFile, hread, lineAt_put index hl', hl']

theorem Ok.pendingEntry_spec {w : WAL} (h : w.Ok) {t : Int} {e : WALEntry}
    (he : w.pendingEntry t = some e) : e.tid = t ∧ e.type = .cross ∧ e.status = .prepared := by
  simp only [pendingEntry, Option.map_eq_some_iff] at he
  obtain ⟨p, hp, rfl⟩ := he
  obtain ⟨l, hl, rfl⟩ := h.line t p hp
  simp [getTransactionFromFile, h.canRead, hl]

/-- The entries of all transactions that are prepared and undecided: one per tid of the index. -/
def undecided (w : WAL) : List WALEntry :=
  w.transferIndex.toList.map fun p => w.getTransactionFromFile p.2

theorem mem_undecided {w : WAL} {e : WALEntry} : e ∈ w.undecided ↔ ∃ t, w.pendingEntry t = some e := by
  simp only [undecided, pendingEntry, List.mem_map, Option.map_eq_some_iff, Prod.exists,
    ExtTreeMap.mem_toList_iff_getElem?_eq_some]

theorem Ok.mem_undecided_iff {w : WAL} (h : w.Ok) {e : WALEntry} :
    e ∈ w.undecided ↔ w.pendingEntry e.tid = some e := by
  rw [mem_undecided]
  constructor
  · rintro ⟨t, ht⟩
    rw [(h.pendingEntry_spec ht).1]
    exact ht
  · intro ht
    exact ⟨e.tid, ht⟩

theorem Ok.nodup_undecided {w : WAL} (h : w.Ok) : w.undecided.Nodup := by
  have htids : w.undecided.map WALEntry.tid = w.transferIndex.keys := by
    rw [undecided, List.map_map, ← ExtTreeMap.map_fst_toList_eq_keys]
    refine List.map_congr_left ?_
    rintro ⟨t, p⟩ hmem
    have hp := ExtTreeMap.mem_toList_iff_getElem?_eq_some.mp hmem
    exact (h.pendingEntry_spec (pendingEntry_of_index hp)).1
  have hkeys : (w.undecided.map WALEntry.tid).Nodup := by
    rw [htids]
    exact ExtTreeMap.nodup_keys
  exact hkeys.of_map WALEntry.tid

/-- The undecided entries, as a collection, are what is pending. -/
theorem Ok.perm_undecided {w w' : WAL} (h : w.Ok) (h' : w'.Ok)
    (hsame : ∀ t, w'.pendingEntry t = w.pendingEntry t) : w'.undecided.Perm w.undecided := by
  refine (List.perm_ext_iff_of_nodup h'.nodup_undecided h.nodup_undecided).mpr ?_
  intro e
  rw [h'.mem_undecided_iff, h.mem_undecided_iff, hsame]

/-- One pending transaction more. -/
theorem Ok.perm_undecided_cons {w w' : WAL} (h : w.Ok) (h' : w'.Ok) {e : WALEntry}
    (hnew : w.pendingEntry e.tid = none)
    (hpending : ∀ t, w'.pendingEntry t = if t = e.tid then some e else w.pendingEntry t) :
    w'.undecided.Perm (e :: w.undecided) := by
  have hnot : e ∉ w.undecided := by
    rw [h.mem_undecided_iff, hnew]
    simp
  refine (List.perm_ext_iff_of_nodup h'.nodup_undecided (List.nodup_cons.mpr ⟨hnot, h.nodup_undecided⟩)).mpr ?_
  intro x
  rw [h'.mem_undecided_iff, hpending, List.mem_cons, h.mem_undecided_iff]
  split
  · rename_i heq
    rw [heq, hnew]
    simp [eq_comm]
  · rename_i hne
    constructor
    · exact Or.inr
    · rintro (rfl | hx)
      · exact absurd rfl hne
      · exact hx

/-- Every operation appends one line and replaces the index.  If each tid of the new index is either
an old one at its old position or the tid of the new line at the position of that line, the file and
the index stay in step. -/
theorem Ok.put {w : WAL} (h : w.Ok) (l : WalLine) (index : TidMap Int)
    (hindex : ∀ t p, index[t]? = some p →
      w.transferIndex[t]? = some p ∨ (p = w.tellp ∧ l.tid = t)) :
    (w.put l index).Ok where
  canRead := h.canRead
  canWrite := h.canWrite
  line := by
    intro t p hp
    rcases hindex t p hp with hold | ⟨rfl, htid⟩
    · obtain ⟨l', hl', htid⟩ := h.line t p hold
      exact ⟨l', lineAt_put index hl', htid⟩
    · exact ⟨l, lineAt_put_tellp h.canWrite l index, htid⟩

/-- A tid whose index entry did not move reads back what it read before. -/
theorem Ok.pendingEntry_put {w : WAL} (h : w.Ok) (l : WalLine) {index : TidMap Int} {t : Int}
    (hindex : index[t]? = w.transferIndex[t]?) :
    (w.put l index).pendingEntry t = w.pendingEntry t := by
  have hidx : (w.put l index).transferIndex = index := rfl
  simp only [pendingEntry, hidx, hindex]
  cases hp : w.transferIndex[t]? with
  | none => rfl
  | some p => exact congrArg some (h.getTransactionFromFile_put l index hp)

/-- A tid the new index puts at the new line reads that line back. -/
theorem Ok.pendingEntry_put_tellp {w : WAL} (h : w.Ok) (l : WalLine) {index : TidMap Int} {t : Int}
    (hindex : index[t]? = some w.tellp) :
    (w.put l index).pendingEntry t =
      some { tid := l.tid, ballotNum := l.ballotNum, ballotServerId := l.ballotServerId,
             txn := l.txn, type := .cross, status := .prepared } := by
  have hidx : (w.put l index).transferIndex = index := rfl
  have hread : (w.put l index).canRead = true := h.canRead
  simp only [pendingEntry, hidx, hindex, Option.map_some, getTransactionFromFile, if_pos hread,
    lineAt_put_tellp h.canWrite l index]

/-! ### `prepareTransaction` and the intra-shard `commitTransaction` -/

/-- The entry `prepareTransaction` builds from a request. -/
def preparedEntry (request : TransferReq) (ballot : Ballot) : WALEntry :=
  { tid := request.tid, ballotNum := ballot.num, ballotServerId := ballot.serverId,
    txn := request.txn, type := .cross, status := .prepared }

/-- The entry of an intra-shard commit of a request. -/
def committedEntry (request : TransferReq) (ballot : Ballot) : WALEntry :=
  { tid := request.tid, ballotNum := ballot.num, ballotServerId := ballot.serverId,
    txn := request.txn, type := .intra, status := .committed }

theorem getElem?_insert_tid {V : Type} (m : TidMap V) (k t : Int) (v : V) :
    (m.insert k v)[t]? = if t = k then some v else m[t]? := by
  rw [ExtTreeMap.getElem?_insert]
  simp only [Std.compare_eq_iff_eq, @eq_comm Int k t]

theorem getElem?_erase_tid {V : Type} (m : TidMap V) (k t : Int) :
    (m.erase k)[t]? = if t = k then none else m[t]? := by
  rw [ExtTreeMap.getElem?_erase]
  simp only [Std.compare_eq_iff_eq, @eq_comm Int k t]

theorem erase_insert_tid {V : Type} (m : TidMap V) (k : Int) (v : V) : (m.insert k v).erase k = m.erase k := by
  refine ExtTreeMap.ext_getElem? ?_
  intro t
  rw [getElem?_erase_tid, getElem?_erase_tid, getElem?_insert_tid]
  split <;> rfl

section Keys

variable {V : Type} {X : Int → Prop} {m : TidMap V} {k : Int}

theorem keys_insert (h : ∀ t v, m[t]? = some v → X t) (hk : X k) (v : V) :
    ∀ t u, (m.insert k v)[t]? = some u → X t := by
  intro t u hu
  rw [getElem?_insert_tid] at hu
  split at hu
  · rename_i heq
    rw [heq]
    exact hk
  · exact h t u hu

theorem keys_erase (h : ∀ t v, m[t]? = some v → X t) (k : Int) :
    ∀ t u, (m.erase k)[t]? = some u → X t := by
  intro t u hu
  rw [getElem?_erase_tid] at hu
  split at hu
  · cases hu
  · exact h t u hu

/-- Erasing what is no key changes nothing. -/
theorem erase_of_not_key (h : ∀ t v, m[t]? = some v → X t) (hk : ¬ X k) : m.erase k = m := by
  refine ExtTreeMap.ext_getElem? ?_
  intro t
  rw [getElem?_erase_tid]
  split
  · rename_i heq
    cases hv : m[t]? with
    | none => rfl
    | some v => exact absurd (heq ▸ h t v hv) hk
  · rfl

end Keys

theorem Ok.prepareTransaction {w : WAL} (h : w.Ok) (request : TransferReq) (ballot : Ballot) :
    (w.prepareTransaction request ballot).1.Ok := by
  refine h.put _ _ ?_
  intro t p hp
  rw [getElem?_insert_tid] at hp
  split at hp
  · rename_i heq
    exact .inr ⟨(Option.some.inj hp).symm, heq.symm⟩
  · exact .inl hp

theorem Ok.pendingEntry_prepareTransaction {w : WAL} (h : w.Ok) (request : TransferReq)
    (ballot : Ballot) (t : Int) :
    (w.prepareTransaction request ballot).1.pendingEntry t =
      if t = request.tid then some (preparedEntry request ballot) else w.pendingEntry t := by
  split
  · rename_i heq
    exact h.pendingEntry_put_tellp _ (by rw [getElem?_insert_tid, if_pos heq])
  · rename_i hne
    exact h.pendingEntry_put _ (by rw [getElem?_insert_tid, if_neg hne])

theorem Ok.commitTransaction_eq {w : WAL} (h : w.Ok) (request : TransferReq) (ballot : Ballot) :
    w.commitTransaction request ballot =
      (w.put { op := .inCommit, tid := request.tid, ballotNum := ballot.num,
               ballotServerId := ballot.serverId, txn := request.txn } w.transferIndex,
       committedEntry request ballot) := by
  rw [WAL.commitTransaction, if_pos h.canWrite]
  rfl

theorem Ok.commitTransaction {w : WAL} (h : w.Ok) (request : TransferReq) (ballot : Ballot) :
    (w.commitTransaction request ballot).1.Ok := by
  rw [h.commitTransaction_eq]
  exact h.put _ _ fun t p hp => .inl hp

theorem Ok.pendingEntry_commitTransaction {w : WAL} (h : w.Ok) (request : TransferReq)
    (ballot : Ballot) (t : Int) :
    (w.commitTransaction request ballot).1.pendingEntry t = w.pendingEntry t := by
  rw [h.commitTransaction_eq]
  exact h.pendingEntry_put _ rfl

/-! ### Decisions -/

/-- A decision on a tid that is not pending reports the sentinel and changes nothing. -/
theorem decideTransaction_none {w : WAL} {tid : Int} (status : TransactionStatus)
    (h : w.pendingEntry tid = none) : w.decideTransaction tid status = (w, .sentinel) := by
  have hidx : w.transferIndex[tid]? = none := by
    simpa [pendingEntry] using h
  simp [decideTransaction, hidx]

/-- No decision makes a tid pending. -/
theorem pendingEntry_decideTransaction_none {w : WAL} (tid : Int) (status : TransactionStatus) {t : Int}
    (h : w.pendingEntry t = none) : (w.decideTransaction tid status).1.pendingEntry t = none := by
  have hidx : w.transferIndex[t]? = none := by
    simpa [pendingEntry] using h
  have hafter : (w.decideTransaction tid status).1.transferIndex[t]? = none := by
    unfold decideTransaction
    split
    · exact hidx
    · dsimp only
      split
      · show (w.transferIndex.erase tid)[t]? = none
        rw [getElem?_erase_tid, hidx, ite_self]
      · exact hidx
  rw [pendingEntry, hafter]
  rfl

/-- A decision on a pending tid returns the prepared entry with the new status. -/
theorem Ok.decideTransaction_snd {w : WAL} (h : w.Ok) {tid : Int} {e : WALEntry}
    (status : TransactionStatus) (he : w.pendingEntry tid = some e) :
    (w.decideTransaction tid status).2 = { e with status := status } := by
  simp only [pendingEntry, Option.map_eq_some_iff] at he
  obtain ⟨p, hp, rfl⟩ := he
  simp [decideTransaction, hp, h.canWrite]

theorem Ok.decideTransaction {w : WAL} (h : w.Ok) (tid : Int) (status : TransactionStatus) :
    (w.decideTransaction tid status).1.Ok := by
  cases hp : w.transferIndex[tid]? with
  | none => simpa [WAL.decideTransaction, hp] using h
  | some p =>
    simp only [WAL.decideTransaction, hp, if_pos h.canWrite]
    refine h.put _ _ ?_
    intro t q hq
    rw [getElem?_erase_tid] at hq
    split at hq
    · exact absurd hq (by simp)
    · exact .inl hq

/-- Whatever the status, the decided tid is no longer pending and no other tid moved. -/
theorem Ok.pendingEntry_decideTransaction {w : WAL} (h : w.Ok) (tid : Int)
    (status : TransactionStatus) (t : Int) :
    (w.decideTransaction tid status).1.pendingEntry t =
      if t = tid then none else w.pendingEntry t := by
  cases hp : w.transferIndex[tid]? with
  | none =>
    have hself : (w.decideTransaction tid status).1 = w := by simp [WAL.decideTransaction, hp]
    rw [hself]
    split
    · rename_i heq
      simp [pendingEntry, heq, hp]
    · rfl
  | some p =>
    simp only [WAL.decideTransaction, hp, if_pos h.canWrite]
    split
    · rename_i heq
      simp [pendingEntry, WAL.put, heq]
    · rename_i hne
      exact h.pendingEntry_put _ (by rw [getElem?_erase_tid, if_neg hne])

/-! ### `insertEntry` -/

theorem Ok.insertEntry {w : WAL} (h : w.Ok) (entry : WALEntry) : (w.insertEntry entry).Ok := by
  rw [WAL.insertEntry, if_pos h.canWrite]
  refine h.put _ _ ?_
  intro t p hp
  cases hs : entry.status with
  | prepared =>
    rw [hs, getElem?_insert_tid] at hp
    split at hp
    · rename_i heq
      exact .inr ⟨(Option.some.inj hp).symm, heq.symm⟩
    · exact .inl hp
  | committed =>
    rw [hs, getElem?_erase_tid] at hp
    split at hp
    · exact absurd hp (by simp)
    · exact .inl hp
  | aborted =>
    rw [hs, getElem?_erase_tid] at hp
    split at hp
    · exact absurd hp (by simp)
    · exact .inl hp
  | noStatus =>
    rw [hs] at hp
    exact .inl hp

/-- The entry that is pending for the tid of a synced entry once it has been inserted: itself when it
is a prepare, nothing after a decision. -/
theorem Ok.pendingEntry_insertEntry {w : WAL} (h : w.Ok) (entry : WALEntry) (t : Int) :
    (w.insertEntry entry).pendingEntry t =
      if t = entry.tid then
        match entry.status with
        | .prepared => some { entry with type := .cross }
        | .noStatus => w.pendingEntry t
        | _ => none
      else w.pendingEntry t := by
  rw [WAL.insertEntry, if_pos h.canWrite]
  by_cases heq : t = entry.tid
  · rw [if_pos heq]
    cases hs : entry.status with
    | prepared =>
      rw [h.pendingEntry_put_tellp _ (by rw [getElem?_insert_tid, if_pos heq])]
    | committed => simp [pendingEntry, WAL.put, heq]
    | aborted => simp [pendingEntry, WAL.put, heq]
    | noStatus => exact h.pendingEntry_put _ rfl
  · rw [if_neg heq]
    refine h.pendingEntry_put _ ?_
    cases entry.status with
    | prepared => simp only [getElem?_insert_tid, if_neg heq]
    | committed => simp only [getElem?_erase_tid, if_neg heq]
    | aborted => simp only [getElem?_erase_tid, if_neg heq]
    | noStatus => rfl

end WAL

end MultiPaxosDB
