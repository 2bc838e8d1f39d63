/-
# MultiPaxosDB.WalText — the write-ahead log as the bytes of a file.

`WAL` takes the file as a list of lines and a position as a line number.  In the source a line is text: a
keyword and six decimal numbers with a blank before each, ended by a newline; a position is a byte offset, from
`tellp` before an append or from `tellg` before a line is read; and a record is read back by `seekg`, `getline`
and a chain of `>>`.  `WalFile` is the class at that level, for a file that opens.

`Encodes f w` relates the two: the bytes are the text of the lines, and each indexed offset is where the line of
that number starts.  Every operation keeps it and returns the same entry at both levels (`Encodes.call`,
`Encodes.decideTransaction`), and the loop of `recover` over the bytes fills in what the scan of the lines does
(`scanText_encode`).
-/
import MultiPaxosDB.Lib.Decimal
import MultiPaxosDB.Lib.Lines
import MultiPaxosDB.Recovery

namespace MultiPaxosDB

open Lib
open Std (ExtTreeMap)

/-! ## Lines of text -/

/-- What `insertEntry` appends to `IS_` or `CS_`. -/
def TransactionStatus.word : TransactionStatus → List Char
  | .noStatus => []
  | .prepared => "PREPARE".toList
  | .committed => "COMMIT".toList
  | .aborted => "ABORT".toList

def WalOp.text : WalOp → List Char
  | .inCommit => "IN_COMMIT".toList
  | .keyed .intra status => "IS_".toList ++ status.word
  | .keyed .cross status => "CS_".toList ++ status.word

namespace WalLine

/-- The numbers of a line, in the order in which they are written. -/
def fields (l : WalLine) : List Int :=
  [l.tid, l.ballotNum, l.ballotServerId, l.txn.sender, l.txn.receiver, l.txn.amount]

/-- `op << " " << tid << " " << ballot_num << … << " " << amount`, without the newline. -/
def text (l : WalLine) : List Char := l.op.text ++ fieldsText l.fields

end WalLine

/-- The bytes of a file of lines. -/
def encode (file : List WalLine) : List Char := unlines (file.map WalLine.text)

/-- A `long` and five `int`s. -/
def fieldWidths : List ℕ := [64, 32, 32, 32, 32, 32]

/-- The numbers of the line have the types of the source. -/
def WalLine.Fits (l : WalLine) : Prop := List.Forall₂ InRange fieldWidths l.fields

instance (l : WalLine) : Decidable l.Fits := inferInstanceAs (Decidable (List.Forall₂ _ _ _))

/-- `iss >> op >> tid >> ballot_num >> ballot_server_id >> sender >> receiver >> amount`: the keyword and the
entry as `recover` first fills it in, if all seven reads succeed. -/
def parseLine (line : List Char) : Option (List Char × WALEntry) :=
  match readWord line with
  | none => none
  | some (op, rest) =>
    match readInts fieldWidths rest with
    | some ([tid, ballotNum, ballotServerId, sender, receiver, amount], _) =>
      some (op, { tid := tid, ballotNum := ballotNum, ballotServerId := ballotServerId,
                  txn := ⟨sender, receiver, amount⟩, type := .cross, status := .noStatus })
    | _ => none

/-! ## `WAL::recover` on bytes -/

namespace Recovery

/-- The loop body of `WAL::recover`, at the offset `position`. -/
def readText (r : Recovery) (position : ℕ) (line : List Char) : Recovery :=
  if line = [] then r
  else match parseLine line with
    | none => r
    | some (op, entry) =>
      let seen := { r with ballotNum := max r.ballotNum entry.ballotNum }
      if op = "IN_COMMIT".toList ∨ op = "IS_COMMIT".toList then
        seen.push { entry with type := .intra, status := .committed }
      else if op = "CS_PREPARE".toList then
        push { seen with transferIndex := r.transferIndex.insert entry.tid position }
          { entry with type := .cross, status := .prepared }
      else if op = "CS_COMMIT".toList then
        push { seen with transferIndex := r.transferIndex.erase entry.tid }
          { entry with type := .cross, status := .committed }
      else if op = "CS_ABORT".toList then
        push { seen with transferIndex := r.transferIndex.erase entry.tid }
          { entry with type := .cross, status := .aborted }
      else seen

/-- The loop of `WAL::recover` over the bytes of the file, from a ballot number. -/
def scanText (ballotNum : Int) (bytes : List Char) : Recovery :=
  (linesOf bytes).foldl (fun r p => r.readText p.1 p.2)
    { transferIndex := ∅, lastInserted := -1, ballotNum := ballotNum, log := [] }

end Recovery

/-! ## The class -/

/-- The WAL with its file as bytes and its index of byte offsets. -/
structure WalFile where
  bytes : List Char
  transferIndex : TidMap Int

namespace WalFile

def empty : WalFile := { bytes := [], transferIndex := ∅ }

/-- `WAL::recover`: the index is rebuilt, and the rest goes to the server. -/
def recover (f : WalFile) (ballotNum : Int) : WalFile × Recovery :=
  let r := Recovery.scanText ballotNum f.bytes
  ({ f with transferIndex := r.transferIndex }, r)

/-- `WAL::getTransactionFromFile`.  If the extraction fails the C++ locals are unset; the model reads them as
zeros. -/
def getTransactionFromFile (f : WalFile) (position : Int) : WALEntry :=
  match parseLine (lineAt f.bytes position.toNat) with
  | some (_, e) => { e with type := .cross, status := .prepared }
  | none => { tid := 0, ballotNum := 0, ballotServerId := 0, txn := ⟨0, 0, 0⟩, type := .cross,
              status := .prepared }

/-- `outFile.tellp()` on a stream just opened for appending. -/
def tellp (f : WalFile) : Int := (f.bytes.length : Int)

/-- `outFile << line << "\n"`, together with the index the operation leaves behind. -/
def put (f : WalFile) (l : WalLine) (index : TidMap Int) : WalFile :=
  { bytes := f.bytes ++ encode [l], transferIndex := index }

/-- `WAL::prepareTransaction`. -/
def prepareTransaction (f : WalFile) (request : TransferReq) (ballot : Ballot) : WalFile × WALEntry :=
  (f.put { op := .keyed .cross .prepared, tid := request.tid, ballotNum := ballot.num,
           ballotServerId := ballot.serverId, txn := request.txn }
      (f.transferIndex.insert request.tid f.tellp),
   { tid := request.tid, ballotNum := ballot.num, ballotServerId := ballot.serverId,
     txn := request.txn, type := .cross, status := .prepared })

/-- `WAL::commitTransaction(TransferReq&, Ballot&)`. -/
def commitTransaction (f : WalFile) (request : TransferReq) (ballot : Ballot) : WalFile × WALEntry :=
  (f.put { op := .inCommit, tid := request.tid, ballotNum := ballot.num,
           ballotServerId := ballot.serverId, txn := request.txn } f.transferIndex,
   { tid := request.tid, ballotNum := ballot.num, ballotServerId := ballot.serverId,
     txn := request.txn, type := .intra, status := .committed })

/-- The common body of `commitTransaction(TpcTid&)` and `abortTransaction`. -/
def decideTransaction (f : WalFile) (tid : Int) (status : TransactionStatus) : WalFile × WALEntry :=
  match f.transferIndex[tid]? with
  | none => (f, .sentinel)
  | some position =>
    let txn := f.getTransactionFromFile position
    (f.put { op := .keyed .cross status, tid := tid, ballotNum := txn.ballotNum,
             ballotServerId := txn.ballotServerId, txn := txn.txn } (f.transferIndex.erase tid),
     { txn with status := status })

/-- `WAL::commitTransaction(TpcTid&)`. -/
def commitTransactionTid (f : WalFile) (tid : Int) : WalFile × WALEntry := f.decideTransaction tid .committed

/-- `WAL::abortTransaction`. -/
def abortTransaction (f : WalFile) (tid : Int) : WalFile × WALEntry := f.decideTransaction tid .aborted

/-- `WAL::insertEntry`. -/
def insertEntry (f : WalFile) (entry : WALEntry) : WalFile :=
  f.put { op := .keyed entry.type entry.status, tid := entry.tid, ballotNum := entry.ballotNum,
          ballotServerId := entry.ballotServerId, txn := entry.txn }
    (match entry.status with
      | .prepared => f.transferIndex.insert entry.tid f.tellp
      | .committed => f.transferIndex.erase entry.tid
      | .aborted => f.transferIndex.erase entry.tid
      | .noStatus => f.transferIndex)

end WalFile

/-- The line of `insertEntry`. -/
def WALEntry.line (e : WALEntry) : WalLine :=
  { op := .keyed e.type e.status, tid := e.tid, ballotNum := e.ballotNum, ballotServerId := e.ballotServerId,
    txn := e.txn }

/-! ## What is written is read back -/

theorem isSpace_text (op : WalOp) : ∀ ch ∈ op.text, isSpace ch = false := by
  have hall : op.text.all (fun ch => !isSpace ch) = true := by
    cases op with
    | inCommit => decide
    | keyed type status => cases type <;> cases status <;> decide
  intro ch hch
  simpa using List.all_eq_true.mp hall ch hch

theorem text_ne_nil (op : WalOp) : op.text ≠ [] := by
  cases op with
  | inCommit => decide
  | keyed type status => cases type <;> cases status <;> decide

theorem newline_not_mem_text (l : WalLine) : '\n' ∉ l.text := by
  intro h
  rcases List.mem_append.mp h with hop | hfields
  · exact absurd (isSpace_text l.op _ hop) (by decide)
  · exact newline_not_mem_fieldsText l.fields hfields

/-- The chain of reads over a word and whatever follows it. -/
theorem parseLine_word {word s : List Char} (hne : word ≠ []) (hword : ∀ ch ∈ word, isSpace ch = false)
    (hs : ∀ ch ∈ s.head?, isSpace ch = true) :
    parseLine (word ++ s) =
      match readInts fieldWidths s with
      | some ([tid, ballotNum, ballotServerId, sender, receiver, amount], _) =>
        some (word, { tid := tid, ballotNum := ballotNum, ballotServerId := ballotServerId,
                      txn := ⟨sender, receiver, amount⟩, type := .cross, status := .noStatus })
      | _ => none := by
  unfold parseLine
  rw [readWord_word hne hword hs]

theorem isSpace_head_fieldsText (zs : List Int) : ∀ ch ∈ (fieldsText zs).head?, isSpace ch = true := by
  cases zs with
  | nil => exact fun ch hch => nomatch hch
  | cons z zs =>
    rw [fieldsText_cons]
    intro ch hch
    cases hch
    decide

theorem parseLine_fields {word : List Char} (hne : word ≠ []) (hword : ∀ ch ∈ word, isSpace ch = false)
    {l : WalLine} (h : l.Fits) :
    parseLine (word ++ fieldsText l.fields) = some (word, l.entry .cross .noStatus) := by
  have hread : readInts fieldWidths (fieldsText l.fields) = some (l.fields, []) := by
    have hall := readInts_fieldsText h blocked_nil.stopsDigits
    rwa [List.append_nil] at hall
  rw [parseLine_word hne hword (isSpace_head_fieldsText l.fields), hread]
  rfl

theorem parseLine_text {l : WalLine} (h : l.Fits) : parseLine l.text = some (l.op.text, l.entry .cross .noStatus) :=
  parseLine_fields (text_ne_nil l.op) (isSpace_text l.op) h

namespace Recovery

/-- The loop body on the text of a line is the loop body on the line. -/
theorem readText_text {l : WalLine} (h : l.Fits) (r : Recovery) (position : ℕ) :
    r.readText position l.text = r.readLine l position := by
  have hne : l.text ≠ [] := by
    rw [WalLine.text]
    exact List.append_ne_nil_of_left_ne_nil (text_ne_nil l.op) _
  unfold readText readLine
  rw [if_neg hne, parseLine_text h]
  obtain ⟨op, tid, ballotNum, ballotServerId, txn⟩ := l
  cases op with
  | inCommit => rfl
  | keyed type status => cases type <;> cases status <;> rfl

/-- A line more at the end of the file is one more turn of the loop. -/
theorem scanText_unlines_append (b : Int) {xs : List (List Char)} (hxs : ∀ x ∈ xs, '\n' ∉ x) {x : List Char}
    (hx : '\n' ∉ x) :
    scanText b (unlines (xs ++ [x])) = (scanText b (unlines xs)).readText (unlines xs).length x := by
  have hall : ∀ y ∈ xs ++ [x], '\n' ∉ y := by
    intro y hy
    rcases List.mem_append.mp hy with hold | hnew
    · exact hxs y hold
    · rw [List.mem_singleton.mp hnew]
      exact hx
  have hlines := linesOf_unlines hall (List.not_mem_nil (a := '\n'))
  have hbefore := linesOf_unlines hxs (List.not_mem_nil (a := '\n'))
  rw [List.append_nil, if_pos rfl, List.append_nil] at hlines hbefore
  rw [scanText, scanText, hlines, hbefore, numbered_append, List.foldl_append, Nat.zero_add]
  rfl

/-- What follows the last newline is one more turn too. -/
theorem scanText_unlines_tail (b : Int) {xs : List (List Char)} (hxs : ∀ x ∈ xs, '\n' ∉ x) {tail : List Char}
    (htail : '\n' ∉ tail) :
    scanText b (unlines xs ++ tail) = (scanText b (unlines xs)).readText (unlines xs).length tail := by
  have hbefore := linesOf_unlines hxs (List.not_mem_nil (a := '\n'))
  rw [List.append_nil, if_pos rfl, List.append_nil] at hbefore
  rw [scanText, scanText, linesOf_unlines hxs htail, hbefore, List.foldl_append]
  by_cases hnil : tail = []
  · rw [if_pos hnil, List.foldl_nil, readText, if_pos hnil]
  · rw [if_neg hnil]
    rfl

end Recovery

theorem newline_not_mem_texts (file : List WalLine) : ∀ x ∈ file.map WalLine.text, '\n' ∉ x := by
  intro x hx
  obtain ⟨l, -, rfl⟩ := List.mem_map.mp hx
  exact newline_not_mem_text l

theorem encode_append (file file' : List WalLine) : encode (file ++ file') = encode file ++ encode file' := by
  rw [encode, List.map_append, unlines_append]
  rfl

theorem encode_cons (l : WalLine) (file : List WalLine) : encode (l :: file) = l.text ++ '\n' :: encode file :=
  unlines_cons l.text _

/-- Where a line starts. -/
def offset (file : List WalLine) (position : Int) : Int := ((encode (file.take position.toNat)).length : Int)

theorem offset_append {file : List WalLine} {position : Int} (h : position.toNat ≤ file.length)
    (file' : List WalLine) : offset (file ++ file') position = offset file position := by
  rw [offset, List.take_append_of_le_length h]
  rfl

theorem offset_length (file : List WalLine) : offset file file.length = ((encode file).length : Int) := by
  rw [offset, Int.toNat_natCast, List.take_length]

/-- The file around the line at a position. -/
theorem WAL.split_of_lineAt {w : WAL} {p : Int} {l : WalLine} (h : w.lineAt p = some l) :
    w.file = w.file.take p.toNat ++ l :: w.file.drop (p.toNat + 1) := by
  unfold lineAt at h
  split at h
  · obtain ⟨hlt, rfl⟩ := List.getElem?_eq_some_iff.mp h
    rw [← List.drop_eq_getElem_cons hlt, List.take_append_drop]
  · cases h

theorem WAL.mem_of_lineAt {w : WAL} {p : Int} {l : WalLine} (h : w.lineAt p = some l) : l ∈ w.file := by
  rw [split_of_lineAt h]
  exact List.mem_append_right _ List.mem_cons_self

theorem WAL.Ok.toNat_le {w : WAL} (h : w.Ok) {t p : Int} (hp : w.transferIndex[t]? = some p) :
    p.toNat ≤ w.file.length := by
  obtain ⟨l, hline, -⟩ := h.line t p hp
  have hlen := congrArg List.length (split_of_lineAt hline)
  rw [List.length_append, List.length_take, List.length_cons] at hlen
  omega

/-- The byte-level loop fills in what the scan of the lines does, with offsets for line numbers. -/
structure Recovery.Encodes (file : List WalLine) (r r' : Recovery) : Prop where
  index : ∀ t : Int, r.transferIndex[t]? = r'.transferIndex[t]?.map (offset file)
  lastInserted : r.lastInserted = r'.lastInserted
  ballotNum : r.ballotNum = r'.ballotNum
  log : r.log = r'.log

namespace Recovery

/-- An index of line numbers below the end, in offsets. -/
theorem index_append {file : List WalLine} {index index' : TidMap Int}
    (hindex : ∀ t : Int, index[t]? = index'[t]?.map (offset file))
    (hbelow : ∀ (t p : Int), index'[t]? = some p → p.toNat ≤ file.length) (file' : List WalLine) (t : Int) :
    index[t]? = index'[t]?.map (offset (file ++ file')) := by
  rw [hindex t]
  cases hp : index'[t]? with
  | none => rfl
  | some p => rw [Option.map_some, Option.map_some, offset_append (hbelow t p hp)]

theorem index_insert {file : List WalLine} {index index' : TidMap Int}
    (hindex : ∀ t : Int, index[t]? = index'[t]?.map (offset file)) {p q : Int} (hpq : q = offset file p) (tid t : Int) :
    (index.insert tid q)[t]? = (index'.insert tid p)[t]?.map (offset file) := by
  rw [WAL.getElem?_insert_tid, WAL.getElem?_insert_tid]
  split
  · rw [hpq]
    rfl
  · exact hindex t

theorem index_erase {file : List WalLine} {index index' : TidMap Int}
    (hindex : ∀ t : Int, index[t]? = index'[t]?.map (offset file)) (tid t : Int) :
    (index.erase tid)[t]? = (index'.erase tid)[t]?.map (offset file) := by
  rw [WAL.getElem?_erase_tid, WAL.getElem?_erase_tid]
  split
  · rfl
  · exact hindex t

theorem Encodes.readLine {file : List WalLine} {r r' : Recovery} (h : r.Encodes file r')
    (hbelow : ∀ (t p : Int), r'.transferIndex[t]? = some p → p.toNat ≤ file.length) (l : WalLine) :
    (r.readLine l (encode file).length).Encodes (file ++ [l]) (r'.readLine l file.length) := by
  have hkeep := index_append h.index hbelow [l]
  have hseen : max r.ballotNum l.ballotNum = max r'.ballotNum l.ballotNum := by rw [h.ballotNum]
  have hlast : (r.log.length : Int) = r'.log.length := by rw [h.log]
  have hpush : ∀ e : WALEntry, r.log ++ [e] = r'.log ++ [e] := fun e => by rw [h.log]
  have hposition : ((encode file).length : Int) = offset (file ++ [l]) file.length := by
    rw [offset_append (by simp), offset_length]
  unfold Recovery.readLine
  dsimp only
  split
  · exact ⟨hkeep, hlast, hseen, hpush _⟩
  · exact ⟨hkeep, hlast, hseen, hpush _⟩
  · exact ⟨index_insert hkeep hposition l.tid, hlast, hseen, hpush _⟩
  · exact ⟨index_erase hkeep l.tid, hlast, hseen, hpush _⟩
  · exact ⟨index_erase hkeep l.tid, hlast, hseen, hpush _⟩
  · exact ⟨hkeep, h.lastInserted, hseen, h.log⟩

/-- **`recover` on the bytes of a file** is the scan of its lines. -/
theorem scanText_encode (b : Int) {file : List WalLine} (hfits : ∀ l ∈ file, l.Fits) :
    (scanText b (encode file)).Encodes file (scan b file) := by
  induction file using List.reverseRecOn with
  | nil => exact ⟨fun t => by simp [scanText, scan, encode, unlines, linesOf, linesFrom], rfl, rfl, rfl⟩
  | append_singleton file l ih =>
    have hbefore := ih fun l' hl' => hfits l' (List.mem_append_left _ hl')
    have hl : l.Fits := hfits l (List.mem_append_right _ List.mem_cons_self)
    have htext : scanText b (encode (file ++ [l])) = (scanText b (encode file)).readLine l (encode file).length := by
      rw [encode, List.map_append, List.map_singleton,
        scanText_unlines_append b (newline_not_mem_texts file) (newline_not_mem_text l), readText_text hl]
      rfl
    rw [htext, scan_append]
    exact hbefore.readLine (fun t p hp => (ok_scan b file).toNat_le hp) l

end Recovery

/-! ## The two levels -/

/-- The bytes are the text of the lines, and each indexed offset is where the line of that number starts. -/
structure WalFile.Encodes (f : WalFile) (w : WAL) : Prop where
  ok : w.Ok
  fits : ∀ l ∈ w.file, l.Fits
  bytes : f.bytes = encode w.file
  index : ∀ t : Int, f.transferIndex[t]? = w.transferIndex[t]?.map (offset w.file)

namespace WalFile

variable {f : WalFile} {w : WAL}

theorem encodes_empty : empty.Encodes WAL.empty where
  ok := WAL.Ok.empty
  fits := fun _ hl => nomatch hl
  bytes := rfl
  index := fun t => by simp [empty, WAL.empty]

namespace Encodes

theorem tellp (h : f.Encodes w) : f.tellp = offset w.file w.tellp := by
  rw [WAL.tellp, if_pos h.ok.canWrite, offset_length, WalFile.tellp, h.bytes]

/-- A record is read back from its offset as the line is from its number. -/
theorem getTransactionFromFile (h : f.Encodes w) {t p : Int} (hp : w.transferIndex[t]? = some p) :
    f.getTransactionFromFile (offset w.file p) = w.getTransactionFromFile p := by
  obtain ⟨l, hline, -⟩ := h.ok.line t p hp
  have hfits : l.Fits := h.fits l (WAL.mem_of_lineAt hline)
  have hread : Lib.lineAt f.bytes (offset w.file p).toNat = l.text := by
    have hbytes : f.bytes = encode (w.file.take p.toNat) ++ l.text ++ '\n' :: encode (w.file.drop (p.toNat + 1)) := by
      rw [h.bytes]
      nth_rewrite 1 [WAL.split_of_lineAt hline]
      rw [encode_append, encode_cons, List.append_assoc]
    rw [hbytes, offset, Int.toNat_natCast]
    exact lineAt_offset _ (newline_not_mem_text l) _
  rw [WalFile.getTransactionFromFile, hread, parseLine_text hfits, WAL.getTransactionFromFile, if_pos h.ok.canRead,
    hline]
  rfl

/-- Each operation writes a line and replaces the index; the new index has the same tids at both levels. -/
theorem put (h : f.Encodes w) {l : WalLine} (hl : l.Fits) {index index' : TidMap Int}
    (hok : (w.put l index').Ok) (hindex : ∀ t : Int, index[t]? = index'[t]?.map (offset (w.file ++ [l]))) :
    (f.put l index).Encodes (w.put l index') := by
  have hfile : (w.put l index').file = w.file ++ [l] := by
    rw [WAL.put, if_pos h.ok.canWrite]
  refine ⟨hok, ?_, ?_, ?_⟩
  · rw [hfile]
    intro l' hl'
    rcases List.mem_append.mp hl' with hold | hnew
    · exact h.fits l' hold
    · rw [List.mem_singleton.mp hnew]
      exact hl
  · rw [hfile, encode_append, ← h.bytes]
    rfl
  · rw [hfile]
    exact hindex

/-- The index as it is, after one line more. -/
theorem index_append (h : f.Encodes w) (l : WalLine) (t : Int) :
    f.transferIndex[t]? = w.transferIndex[t]?.map (offset (w.file ++ [l])) :=
  Recovery.index_append h.index (fun _ _ => h.ok.toNat_le) [l] t

theorem tellp_append (h : f.Encodes w) (l : WalLine) : f.tellp = offset (w.file ++ [l]) w.tellp := by
  rw [h.tellp, offset_append]
  rw [WAL.tellp, if_pos h.ok.canWrite, Int.toNat_natCast]

theorem prepareTransaction (h : f.Encodes w) (request : TransferReq) (ballot : Ballot)
    (hl : (WAL.preparedEntry request ballot).line.Fits) :
    (f.prepareTransaction request ballot).1.Encodes (w.prepareTransaction request ballot).1 := by
  refine h.put hl (h.ok.prepareTransaction request ballot) ?_
  exact Recovery.index_insert (h.index_append _) (h.tellp_append _) request.tid

theorem commitTransaction (h : f.Encodes w) (request : TransferReq) (ballot : Ballot)
    (hl : (WAL.committedEntry request ballot).line.Fits) :
    (f.commitTransaction request ballot).1.Encodes (w.commitTransaction request ballot).1 := by
  have hok := h.ok.commitTransaction request ballot
  rw [h.ok.commitTransaction_eq] at hok ⊢
  refine h.put ?_ hok (h.index_append _)
  exact hl

/-- A decision appends the same line at both levels and returns the same entry. -/
theorem decideTransaction (h : f.Encodes w) (tid : Int) (status : TransactionStatus) :
    (f.decideTransaction tid status).1.Encodes (w.decideTransaction tid status).1 ∧
      (f.decideTransaction tid status).2 = (w.decideTransaction tid status).2 := by
  have hok := h.ok.decideTransaction tid status
  unfold WalFile.decideTransaction WAL.decideTransaction at *
  cases hp : w.transferIndex[tid]? with
  | none =>
    rw [h.index tid, hp]
    exact ⟨h, rfl⟩
  | some p =>
    rw [hp] at hok
    rw [h.index tid, hp, Option.map_some]
    simp only [if_pos h.ok.canWrite] at hok ⊢
    rw [h.getTransactionFromFile hp]
    refine ⟨h.put ?_ hok (Recovery.index_erase (h.index_append _) tid), rfl⟩
    obtain ⟨l, hline, htid⟩ := h.ok.line tid p hp
    have hfits : l.Fits := h.fits l (WAL.mem_of_lineAt hline)
    rw [WAL.getTransactionFromFile, if_pos h.ok.canRead, hline, ← htid]
    exact hfits

theorem insertEntry (h : f.Encodes w) (entry : WALEntry) (hl : entry.line.Fits) :
    (f.insertEntry entry).Encodes (w.insertEntry entry) := by
  have hok := h.ok.insertEntry entry
  unfold WAL.insertEntry at *
  rw [if_pos h.ok.canWrite] at hok ⊢
  refine h.put hl hok ?_
  have hkeep := h.index_append entry.line
  cases entry.status with
  | noStatus => exact hkeep
  | prepared => exact Recovery.index_insert hkeep (h.tellp_append _) entry.tid
  | committed => exact Recovery.index_erase hkeep entry.tid
  | aborted => exact Recovery.index_erase hkeep entry.tid

/-- After `recover` the index is the one the scan of the lines builds. -/
theorem recover (h : f.Encodes w) (b : Int) :
    (f.recover b).1.Encodes { w with transferIndex := (w.recover b).transferIndex } := by
  obtain ⟨file, index, canRead, canWrite⟩ := w
  obtain ⟨hread, hwrite, -⟩ := h.ok
  cases hread
  cases hwrite
  refine ⟨Recovery.ok_scan b file, h.fits, h.bytes, ?_⟩
  have hscan := Recovery.scanText_encode b h.fits
  rw [← h.bytes] at hscan
  exact hscan.index

end Encodes

end WalFile

end MultiPaxosDB
