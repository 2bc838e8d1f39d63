/-
# MultiPaxosDB.WalPending — the file and its index as a map of pending transactions.

What the 2PC half of the WAL is for is a map: `prepare` puts a tid with its ballot and transaction, a decision
takes it out and hands it back.  `PendingMap` is that map, and `WalCall` an operation on it.

`Tracks` connects the map to the lines: the entry a decision would read back is the one in the map, and a scan of
the file would build the index that is in memory.  Each call keeps it, `recover` because of the second half, and a
synced intra-shard commit because its tid is no cross-shard one.  With `Encodes` below it, the bytes and the byte
offsets refine the map (`WalFile.refines_pending`).
-/
import MultiPaxosDB.WalText

namespace MultiPaxosDB

open Lib
open Std (ExtTreeMap)

/-! ## Calls, at three levels -/

/-- An operation of the WAL; `decide` is `commitTransaction(TpcTid&)` or `abortTransaction`. -/
inductive WalCall
  | prepare (request : TransferReq) (ballot : Ballot)
  | commit (request : TransferReq) (ballot : Ballot)
  | decide (tid : Int) (isCommit : Bool)
  | insert (entry : WALEntry)
  | recover (ballotNum : Int)
deriving DecidableEq, Repr

namespace WalCall

/-- The arguments have the types of the source: tids are 64-bit, all other fields 32-bit. -/
def Fits : WalCall → Prop
  | .prepare request ballot => (WAL.preparedEntry request ballot).line.Fits
  | .commit request ballot => (WAL.committedEntry request ballot).line.Fits
  | .decide tid _ => InRange 64 tid
  | .insert entry => entry.line.Fits
  | .recover ballotNum => InRange 32 ballotNum

instance : DecidablePred Fits
  | .prepare _ _ => inferInstanceAs (Decidable (WalLine.Fits _))
  | .commit _ _ => inferInstanceAs (Decidable (WalLine.Fits _))
  | .decide _ _ => inferInstanceAs (Decidable (InRange _ _))
  | .insert _ => inferInstanceAs (Decidable (WalLine.Fits _))
  | .recover _ => inferInstanceAs (Decidable (InRange _ _))

/-- The tids of cross-shard transactions are those in `X`, and only entries that servers log are inserted. -/
def Within (X : Int → Prop) : WalCall → Prop
  | .prepare request _ => X request.tid
  | .commit request _ => ¬ X request.tid
  | .decide _ _ => True
  | .insert entry => entry.logged = true ∧ (X entry.tid ↔ entry.type = .cross)
  | .recover _ => True

end WalCall

/-- `commitTransaction(tid)` or `abortTransaction(tid)`. -/
def WalFile.decision (f : WalFile) (tid : Int) (isCommit : Bool) : WalFile × WALEntry :=
  if isCommit then f.commitTransactionTid tid else f.abortTransaction tid

def WalFile.call (f : WalFile) : WalCall → WalFile
  | .prepare request ballot => (f.prepareTransaction request ballot).1
  | .commit request ballot => (f.commitTransaction request ballot).1
  | .decide tid isCommit => (f.decision tid isCommit).1
  | .insert entry => f.insertEntry entry
  | .recover ballotNum => (f.recover ballotNum).1

/-- The same call on the lines. -/
def WAL.call (w : WAL) : WalCall → WAL
  | .prepare request ballot => (w.prepareTransaction request ballot).1
  | .commit request ballot => (w.commitTransaction request ballot).1
  | .decide tid isCommit => (w.decideTransaction tid (Ledger.decisionStatus isCommit)).1
  | .insert entry => w.insertEntry entry
  | .recover ballotNum => { w with transferIndex := (w.recover ballotNum).transferIndex }

/-- The pending transactions, each with the ballot it was prepared under. -/
abbrev PendingMap := Int → Option (Ballot × Transaction)

namespace PendingMap

def empty : PendingMap := fun _ => none

/-- What a call is for. -/
def call (m : PendingMap) : WalCall → PendingMap
  | .prepare request ballot => Function.update m request.tid (some (ballot, request.txn))
  | .commit _ _ => m
  | .decide tid _ => Function.update m tid none
  | .insert entry =>
    match entry.status with
    | .prepared => Function.update m entry.tid (some (⟨entry.ballotNum, entry.ballotServerId⟩, entry.txn))
    | .committed => Function.update m entry.tid none
    | .aborted => Function.update m entry.tid none
    | .noStatus => m
  | .recover _ => m

end PendingMap

/-! ## The bytes follow the lines -/

theorem WalFile.decision_eq (f : WalFile) (tid : Int) (isCommit : Bool) :
    f.decision tid isCommit = f.decideTransaction tid (Ledger.decisionStatus isCommit) := by
  cases isCommit with
  | true => rfl
  | false => rfl

theorem WalFile.Encodes.call {f : WalFile} {w : WAL} (h : f.Encodes w) {c : WalCall} (hc : c.Fits) :
    (f.call c).Encodes (w.call c) := by
  cases c with
  | prepare request ballot => exact h.prepareTransaction request ballot hc
  | commit request ballot => exact h.commitTransaction request ballot hc
  | decide tid isCommit =>
    show (f.decision tid isCommit).1.Encodes _
    rw [f.decision_eq]
    exact (h.decideTransaction tid _).1
  | insert entry => exact h.insertEntry entry hc
  | recover ballotNum => exact h.recover ballotNum

/-! ## The lines follow the map -/

/-- The prepared entry of a transaction in the map. -/
def PendingMap.entry (t : Int) (p : Ballot × Transaction) : WALEntry := WAL.preparedEntry ⟨p.2, t⟩ p.1

/-- What is pending in the WAL is what is in the map, and a scan of the file would index just that. -/
structure WAL.Tracks (X : Int → Prop) (w : WAL) (m : PendingMap) : Prop where
  ok : w.Ok
  pending : ∀ t, w.pendingEntry t = (m t).map (PendingMap.entry t)
  scanned : ∀ b, (Recovery.scan b w.file).transferIndex = w.transferIndex
  cross : ∀ t p : Int, w.transferIndex[t]? = some p → X t

namespace WAL.Tracks

variable {X : Int → Prop} {w w' : WAL} {m m' : PendingMap}

theorem empty : WAL.empty.Tracks X PendingMap.empty where
  ok := WAL.Ok.empty
  pending := WAL.pendingEntry_empty
  scanned := fun _ => rfl
  cross := fun t p hp => by simp [WAL.empty] at hp

/-- A line that a scan reads as the change the operation made to the index. -/
theorem scanned_put (h : w.Tracks X m) {l : WalLine} {index : TidMap Int}
    (hline : ∀ r : Recovery, r.transferIndex = w.transferIndex →
      (r.readLine l w.file.length).transferIndex = index) (b : Int) :
    (Recovery.scan b (w.put l index).file).transferIndex = index := by
  rw [WAL.put, if_pos h.ok.canWrite, Recovery.scan_append]
  exact hline _ (h.scanned b)

theorem position (h : w.Tracks X m) (r : Recovery) (hr : r.transferIndex = w.transferIndex) (tid : Int) :
    r.transferIndex.insert tid w.file.length = w.transferIndex.insert tid w.tellp := by
  rw [hr, WAL.tellp, if_pos h.ok.canWrite]

/-- The map after an update, entry by entry. -/
theorem map_update (t tid : Int) (v : Option (Ballot × Transaction)) :
    (Function.update m tid v t).map (PendingMap.entry t) =
      if t = tid then v.map (PendingMap.entry tid) else (m t).map (PendingMap.entry t) := by
  by_cases heq : t = tid
  · subst heq
    rw [if_pos rfl, Function.update_self]
  · rw [if_neg heq, Function.update_of_ne heq]

theorem prepare (h : w.Tracks X m) {request : TransferReq} {ballot : Ballot} (htid : X request.tid) :
    (w.call (.prepare request ballot)).Tracks X (m.call (.prepare request ballot)) where
  ok := h.ok.prepareTransaction request ballot
  pending := by
    intro t
    show (w.prepareTransaction request ballot).1.pendingEntry t = _
    rw [h.ok.pendingEntry_prepareTransaction, PendingMap.call, map_update, h.pending t]
    rfl
  scanned := h.scanned_put fun r hr => h.position r hr request.tid
  cross := WAL.keys_insert h.cross htid _

theorem commit (h : w.Tracks X m) (request : TransferReq) (ballot : Ballot) :
    (w.call (.commit request ballot)).Tracks X (m.call (.commit request ballot)) := by
  have hcall : w.call (.commit request ballot) =
      w.put { op := .inCommit, tid := request.tid, ballotNum := ballot.num, ballotServerId := ballot.serverId,
              txn := request.txn } w.transferIndex := by
    show (w.commitTransaction request ballot).1 = _
    rw [h.ok.commitTransaction_eq]
  refine ⟨h.ok.commitTransaction request ballot, ?_, ?_, ?_⟩
  · intro t
    exact (h.ok.pendingEntry_commitTransaction request ballot t).trans (h.pending t)
  · rw [hcall]
    exact h.scanned_put fun r hr => hr
  · rw [hcall]
    exact h.cross

theorem decide (h : w.Tracks X m) (tid : Int) (isCommit : Bool) :
    (w.call (.decide tid isCommit)).Tracks X (m.call (.decide tid isCommit)) := by
  have hpending : ∀ t, (w.call (.decide tid isCommit)).pendingEntry t =
      (m.call (.decide tid isCommit) t).map (PendingMap.entry t) := by
    intro t
    show (w.decideTransaction tid _).1.pendingEntry t = _
    rw [h.ok.pendingEntry_decideTransaction, PendingMap.call, map_update, h.pending t]
    rfl
  have hok : (w.call (.decide tid isCommit)).Ok := h.ok.decideTransaction tid _
  cases hp : w.transferIndex[tid]? with
  | none =>
    have hself : w.call (.decide tid isCommit) = w := by
      simp only [WAL.call, WAL.decideTransaction, hp]
    rw [hself] at hpending ⊢
    exact ⟨h.ok, hpending, h.scanned, h.cross⟩
  | some p =>
    have hcall : w.call (.decide tid isCommit) =
        w.put { op := .keyed .cross (Ledger.decisionStatus isCommit), tid := tid,
                ballotNum := (w.getTransactionFromFile p).ballotNum,
                ballotServerId := (w.getTransactionFromFile p).ballotServerId,
                txn := (w.getTransactionFromFile p).txn } (w.transferIndex.erase tid) := by
      simp only [WAL.call, WAL.decideTransaction, hp, if_pos h.ok.canWrite]
    rw [hcall] at hpending hok ⊢
    refine ⟨hok, hpending, h.scanned_put ?_, WAL.keys_erase h.cross tid⟩
    intro r hr
    rw [← hr]
    cases isCommit with
    | true => rfl
    | false => rfl

theorem insert (h : w.Tracks X m) {entry : WALEntry} (hkind : entry.logged = true)
    (htid : X entry.tid ↔ entry.type = .cross) :
    (w.call (.insert entry)).Tracks X (m.call (.insert entry)) := by
  have hpending := h.ok.pendingEntry_insertEntry entry
  have hok : (w.insertEntry entry).Ok := h.ok.insertEntry entry
  have hcall : w.insertEntry entry = w.put _ _ := if_pos h.ok.canWrite
  show (w.insertEntry entry).Tracks X _
  obtain ⟨tid, ballotNum, ballotServerId, txn, type, status⟩ := entry
  cases type with
  | intra =>
    cases status with
    | committed =>
      -- the tid of an intra-shard commit is not pending, so erasing it changes nothing
      have hnot : ¬ X tid := fun hx => by cases htid.mp hx
      have hsame : w.insertEntry ⟨tid, ballotNum, ballotServerId, txn, .intra, .committed⟩ =
          w.put ⟨.keyed .intra .committed, tid, ballotNum, ballotServerId, txn⟩ w.transferIndex := by
        exact hcall.trans (congrArg _ (WAL.erase_of_not_key h.cross hnot))
      refine ⟨hok, ?_, ?_, ?_⟩
      · intro t
        rw [hpending, PendingMap.call, map_update, h.pending t]
        rfl
      · rw [hsame]
        exact h.scanned_put fun r hr => hr
      · rw [hsame]
        exact h.cross
    | noStatus | prepared | aborted => cases hkind
  | cross =>
    have hx : X tid := htid.mpr rfl
    cases status with
    | noStatus => cases hkind
    | prepared =>
      refine ⟨hok, ?_, ?_, ?_⟩
      · intro t
        rw [hpending, PendingMap.call, map_update, h.pending t]
        rfl
      · rw [hcall]
        exact h.scanned_put fun r hr => h.position r hr tid
      · rw [hcall]
        exact WAL.keys_insert h.cross hx _
    | committed | aborted =>
      refine ⟨hok, ?_, ?_, ?_⟩
      · intro t
        rw [hpending, PendingMap.call, map_update, h.pending t]
        rfl
      · rw [hcall]
        exact h.scanned_put fun r hr => by rw [← hr]; rfl
      · rw [hcall]
        exact WAL.keys_erase h.cross tid

/-- `recover` builds the index that is there. -/
theorem recover (h : w.Tracks X m) (b : Int) :
    (w.call (.recover b)).Tracks X (m.call (.recover b)) := by
  have hsame : w.call (.recover b) = w := by
    simp only [WAL.call, WAL.recover, if_pos h.ok.canRead, h.scanned b]
  rw [hsame]
  exact h

theorem call (h : w.Tracks X m) {c : WalCall} (hc : c.Within X) : (w.call c).Tracks X (m.call c) := by
  cases c with
  | prepare request ballot => exact h.prepare hc
  | commit request ballot => exact h.commit request ballot
  | decide tid isCommit => exact h.decide tid isCommit
  | insert entry => exact h.insert hc.1 hc.2
  | recover b => exact h.recover b

end WAL.Tracks

/-! ## The index points at the latest prepare -/

/-- A scan indexes a tid at its latest `CS_PREPARE` line. -/
theorem Recovery.latest_scan {b : Int} {file : List WalLine} {t p : Int}
    (h : (scan b file).transferIndex[t]? = some p) :
    ∃ before l after, file = before ++ l :: after ∧ p = before.length ∧ l.op = .keyed .cross .prepared ∧ l.tid = t ∧
      ∀ l' ∈ after, l'.op = .keyed .cross .prepared → l'.tid ≠ t := by
  induction file using List.reverseRecOn with
  | nil => simp [scan] at h
  | append_singleton file l ih =>
    -- a line that leaves the index entry alone is no later prepare of `t`
    have hkept : (scan b file).transferIndex[t]? = some p → (l.op = .keyed .cross .prepared → l.tid ≠ t) →
        ∃ before l' after, file ++ [l] = before ++ l' :: after ∧ p = before.length ∧
          l'.op = .keyed .cross .prepared ∧ l'.tid = t ∧
          ∀ l'' ∈ after, l''.op = .keyed .cross .prepared → l''.tid ≠ t := by
      intro hold hother
      obtain ⟨before, l', after, rfl, hp, hop, htid, hlater⟩ := ih hold
      refine ⟨before, l', after ++ [l], by rw [List.append_assoc, List.cons_append], hp, hop, htid, ?_⟩
      intro l'' hl''
      rcases List.mem_append.mp hl'' with hmem | hlast
      · exact hlater l'' hmem
      · rw [List.mem_singleton.mp hlast]
        exact hother
    have herased : ((scan b file).transferIndex.erase l.tid)[t]? = some p →
        (scan b file).transferIndex[t]? = some p := by
      intro herase
      rw [WAL.getElem?_erase_tid] at herase
      split at herase
      · cases herase
      · exact herase
    rw [scan_append] at h
    unfold readLine at h
    dsimp only at h
    split at h
    · rename_i hop
      exact hkept h fun hprep => by rw [hop] at hprep; cases hprep
    · rename_i hop
      exact hkept h fun hprep => by rw [hop] at hprep; cases hprep
    · rename_i hop
      rw [show (push _ _).transferIndex = (scan b file).transferIndex.insert l.tid (file.length : Int) from rfl,
        WAL.getElem?_insert_tid] at h
      split at h
      · rename_i htid
        exact ⟨file, l, [], rfl, (Option.some.inj h).symm, hop, htid.symm, fun _ hl' => absurd hl' List.not_mem_nil⟩
      · rename_i htid
        exact hkept h fun _ heq => htid heq.symm
    · rename_i hop
      exact hkept (herased h) fun hprep => by rw [hop] at hprep; cases hprep
    · rename_i hop
      exact hkept (herased h) fun hprep => by rw [hop] at hprep; cases hprep
    · rename_i hprepared _ _
      exact hkept h fun hprep => absurd hprep hprepared

/-! ## The refinement -/

/-- The latest `CS_PREPARE` line of `t` in the file is that of `p`, and it starts at the byte `position`. -/
def LatestPrepare (file : List WalLine) (t : Int) (p : Ballot × Transaction) (position : Int) : Prop :=
  ∃ before after, file = before ++ (PendingMap.entry t p).line :: after ∧
    position = ((encode before).length : Int) ∧ ∀ l ∈ after, l.op = .keyed .cross .prepared → l.tid ≠ t

/-- The bytes and the index refine the map: each pending tid is at the offset of its latest prepare and is
decided with what the map has for it, and on any other tid a decision does nothing. -/
structure WalFile.Refines (f : WalFile) (m : PendingMap) : Prop where
  latest : ∃ file : List WalLine, (∀ l ∈ file, l.Fits) ∧ f.bytes = encode file ∧
    ∀ t p, m t = some p → ∃ position, f.transferIndex[t]? = some position ∧ LatestPrepare file t p position
  absent : ∀ t, m t = none → f.transferIndex[t]? = none
  decided : ∀ t p isCommit, m t = some p →
    (f.decision t isCommit).2 = { PendingMap.entry t p with status := Ledger.decisionStatus isCommit } ∧
      ∀ u : Int, (f.decision t isCommit).1.transferIndex[u]? = if u = t then none else f.transferIndex[u]?
  undecided : ∀ t isCommit, m t = none → f.decision t isCommit = (f, .sentinel)

namespace WalFile

variable {X : Int → Prop} {f : WalFile} {w : WAL} {m : PendingMap}

theorem Encodes.index_none (h : f.Encodes w) (htracks : w.Tracks X m) {t : Int} (ht : m t = none) :
    f.transferIndex[t]? = none := by
  have hpending := htracks.pending t
  rw [ht, Option.map_none, WAL.pendingEntry, Option.map_eq_none_iff] at hpending
  rw [h.index t, hpending]
  rfl

/-- The offset of a pending tid is that of its latest prepare. -/
theorem Encodes.latest (h : f.Encodes w) (htracks : w.Tracks X m) {t : Int} {p : Ballot × Transaction}
    (ht : m t = some p) : ∃ position, f.transferIndex[t]? = some position ∧ LatestPrepare w.file t p position := by
  have hpending := htracks.pending t
  rw [ht, Option.map_some, WAL.pendingEntry, Option.map_eq_some_iff] at hpending
  obtain ⟨position, hindex, hentry⟩ := hpending
  obtain ⟨before, l, after, hfile, rfl, hop, htid, hlater⟩ :=
    Recovery.latest_scan (b := 0) (by rw [htracks.scanned]; exact hindex)
  -- the line at that position is the one the entry was read from
  have hline : w.lineAt before.length = some l := by
    rw [WAL.lineAt, if_pos (Int.natCast_nonneg _), Int.toNat_natCast, hfile, List.getElem?_append_right le_rfl,
      Nat.sub_self]
    rfl
  have hl : l = (PendingMap.entry t p).line := by
    rw [WAL.getTransactionFromFile, if_pos h.ok.canRead, hline] at hentry
    rw [← hentry]
    obtain ⟨op, tid, ballotNum, ballotServerId, txn⟩ := l
    cases hop
    rfl
  refine ⟨_, by rw [h.index t, hindex, Option.map_some], before, after, by rw [hfile, hl], ?_, hlater⟩
  rw [offset, Int.toNat_natCast, hfile, List.take_left]

theorem Encodes.decided (h : f.Encodes w) (htracks : w.Tracks X m) {t : Int} {p : Ballot × Transaction}
    (ht : m t = some p) (isCommit : Bool) :
    (f.decision t isCommit).2 = { PendingMap.entry t p with status := Ledger.decisionStatus isCommit } := by
  have hpending := htracks.pending t
  rw [ht, Option.map_some] at hpending
  rw [f.decision_eq, (h.decideTransaction t _).2, h.ok.decideTransaction_snd _ hpending]

/-- A decision on a tid that is not in the index. -/
theorem decision_none {t : Int} (h : f.transferIndex[t]? = none) (isCommit : Bool) :
    f.decision t isCommit = (f, .sentinel) := by
  rw [f.decision_eq, WalFile.decideTransaction, h]

theorem index_decision (f : WalFile) (t : Int) (isCommit : Bool) (u : Int) :
    (f.decision t isCommit).1.transferIndex[u]? = if u = t then none else f.transferIndex[u]? := by
  cases hp : f.transferIndex[t]? with
  | none =>
    rw [decision_none hp]
    split
    · rename_i heq
      rw [heq]
      exact hp
    · rfl
  | some position =>
    rw [f.decision_eq, WalFile.decideTransaction, hp]
    exact WAL.getElem?_erase_tid f.transferIndex t u

theorem Encodes.refines (h : f.Encodes w) (htracks : w.Tracks X m) : f.Refines m where
  latest := ⟨w.file, h.fits, h.bytes, fun _ _ => h.latest htracks⟩
  absent := fun _ => h.index_none htracks
  decided := fun t _ isCommit ht => ⟨h.decided htracks ht isCommit, f.index_decision t isCommit⟩
  undecided := by
    intro t isCommit ht
    exact decision_none (h.index_none htracks ht) isCommit

/-- A run keeps the three levels together. -/
theorem run_tracks (calls : List WalCall) (h : f.Encodes w) (htracks : w.Tracks X m)
    (hfits : ∀ c ∈ calls, c.Fits) (hcalls : ∀ c ∈ calls, c.Within X) :
    ∃ w' : WAL, (calls.foldl call f).Encodes w' ∧ w'.Tracks X (calls.foldl PendingMap.call m) := by
  induction calls generalizing f w m with
  | nil => exact ⟨w, h, htracks⟩
  | cons c calls ih =>
    exact ih (h.call (hfits c List.mem_cons_self)) (htracks.call (hcalls c List.mem_cons_self))
      (fun c' hc' => hfits c' (List.mem_cons_of_mem c hc')) fun c' hc' => hcalls c' (List.mem_cons_of_mem c hc')

/-- **The WAL is a map of pending transactions**, whatever the calls. -/
theorem refines_pending (X : Int → Prop) (calls : List WalCall) (hfits : ∀ c ∈ calls, c.Fits)
    (hcalls : ∀ c ∈ calls, c.Within X) :
    (calls.foldl call empty).Refines (calls.foldl PendingMap.call .empty) := by
  obtain ⟨w, hencodes, htracks⟩ := run_tracks calls encodes_empty (X := X) .empty hfits hcalls
  exact hencodes.refines htracks

/-- Two transactions are prepared, one of them by a sync, the first is decided twice and prepared again, and the
file is scanned. -/
def sevenCalls : List WalCall :=
  [.prepare ⟨⟨1, 1001, 5⟩, 7⟩ ⟨1, 2⟩, .commit ⟨⟨1, 2, 3⟩, 8⟩ ⟨1, 2⟩,
   .insert ⟨9, 2, 3, ⟨2, 2001, 4⟩, .cross, .prepared⟩, .decide 7 true, .decide 7 false,
   .prepare ⟨⟨1, 1001, 6⟩, 7⟩ ⟨4, 1⟩, .recover 0]

theorem refines_pending_sevenCalls :
    (sevenCalls.foldl call empty).Refines (sevenCalls.foldl PendingMap.call .empty) ∧
      sevenCalls.foldl PendingMap.call .empty 7 = some (⟨4, 1⟩, ⟨1, 1001, 6⟩) :=
  ⟨refines_pending (fun t => t = 7 ∨ t = 9) sevenCalls (by decide) (by simp [sevenCalls, WalCall.Within, WALEntry.logged,
    isPaxosEntry]), by decide⟩

end WalFile

end MultiPaxosDB
