/-
# MultiPaxosDB.CsvReader — `csv_reader.cc`: the sets of transactions in a CSV file, one a call.

A row has four columns: the number of a set, a transaction, the servers that are up and the leaders.  Only the first
row of a set has all four; the others have the transaction.  A set ends where the next one starts, so `readNextSet`
reads one row too many and keeps it in `nextTransactionSet` for the next call.

A stream is its lines that are not read yet.  `std::stoi` and `vector::at` throw, and an exception leaves
`readNextSet` with the number advanced, the sets swapped and the lines up to the bad one consumed; so the reader is
returned beside the result, and `t` is what the call assigned to it, if it did.  `currentSetNo` is an integer: signed
overflow of an `int` is undefined in the source.  The size that is returned is converted to `int`.
-/
import MultiPaxosDB.Lib.Columns
import MultiPaxosDB.Lib.Decimal
import MultiPaxosDB.Lib.Lines
import MultiPaxosDB.Types

namespace MultiPaxosDB

open Lib

/-! ## One line -/

/-- `types::CSVLine`. -/
structure CSVLine where
  setNo : Int
  transaction : Transaction
  servers : List (List Char)
  leaders : List (List Char)
deriving DecidableEq, Repr

/-- `types::TransactionSet`. -/
structure TransactionSet where
  setNo : Int
  transactions : List Transaction
  servers : List (List Char)
  leaders : List (List Char)
  disconnected : List (List Char)
deriving DecidableEq, Repr

/-- The exceptions of `std::stoi` and `vector::at`. -/
inductive CsvError
  | invalidArgument
  | outOfRange
deriving DecidableEq, Repr

/-- `std::stoi` — what follows the digits is ignored. -/
def stoi (s : List Char) : Except CsvError Int :=
  match readInt 32 s with
  | some (z, _) => .ok z
  | none =>
    if (readSign (s.dropWhile isSpace)).2.takeWhile Char.isDigit = [] then .error .invalidArgument
    else .error .outOfRange

/-- `std::stoi` takes the integers that fit an `int`; the others are out of range. -/
theorem stoi_showInt (z : Int) : stoi (showInt z) = if InRange 32 z then .ok z else .error .outOfRange := by
  have hread := readInt_showInt_eq 32 z blocked_nil.stopsDigits
  rw [List.append_nil] at hread
  rw [stoi, hread]
  by_cases hz : InRange 32 z
  · rw [if_pos hz, if_pos hz]
  · have hdigits : ∀ ch ∈ Nat.toDigits 10 z.natAbs, ch.isDigit = true := fun _ => isDigit_of_mem_digits
    have hsign := readSign_showSign z [] Nat.toDigits_ne_nil hdigits
    rw [List.append_nil] at hsign
    have htake : (readSign ((showInt z).dropWhile isSpace)).2.takeWhile Char.isDigit = Nat.toDigits 10 z.natAbs := by
      rw [showInt, hsign]
      exact (span_digits hdigits blocked_nil.stopsDigits).1
    rw [if_neg hz, if_neg hz]
    exact if_neg (by rw [htake]; exact Nat.toDigits_ne_nil)

/-- `v.at(i)`. -/
def vectorAt {α : Type} (v : List α) (i : ℕ) : Except CsvError α :=
  match v[i]? with
  | some x => .ok x
  | none => .error .outOfRange

/-- `CSVReader::stripLineEndings`. -/
def stripLineEndings (line : List Char) : List Char := line.filter fun c => !(c == '\r' || c == '\n' || c == ' ')

/-- The loop of `parseTransaction`. -/
def transactionFields : Splitter Char where
  skip := fun c => c == '(' || c == ')' || c == ' '
  quote := fun _ => false
  separator := ','

/-- The loop of `parseServers`. -/
def serverFields : Splitter Char where
  skip := fun c => c == '[' || c == ']' || c == ' '
  quote := fun _ => false
  separator := ','

/-- The loop of `parseCSVLine`. -/
def csvColumns : Splitter Char where
  skip := fun _ => false
  quote := fun c => c == '"'
  separator := ','

/-- `CSVReader::parseTransaction`. -/
def parseTransaction (column : List Char) : Except CsvError Transaction := do
  let fields := transactionFields.split column
  let sender ← stoi (← vectorAt fields 0)
  let receiver ← stoi (← vectorAt fields 1)
  let amount ← stoi (← vectorAt fields 2)
  return { sender := sender, receiver := receiver, amount := amount }

/-- `CSVReader::parseServers`. -/
def parseServers (column : List Char) : List (List Char) := serverFields.split column

/-- `if (!column.empty()) servers = parseServers(column)`. -/
def parseListed (column : List Char) : List (List Char) := if column = [] then [] else parseServers column

/-- `if (!column.empty()) setNumber = std::stoi(column)`, from −1. -/
def parseSetNumber (column : List Char) : Except CsvError Int := if column = [] then .ok (-1) else stoi column

/-- `CSVReader::parseCSVLine`. -/
def parseCSVLine (line : List Char) : Except CsvError CSVLine := do
  let columns := csvColumns.split line
  -- there is always a first column; the other three may be missing
  let setNumber ← parseSetNumber (← vectorAt columns 0)
  let t ← parseTransaction (← vectorAt columns 1)
  let aliveServers := parseListed (← vectorAt columns 2)
  let leaders := parseListed (← vectorAt columns 3)
  return { setNo := setNumber, transaction := t, servers := aliveServers, leaders := leaders }

/-- What the reader makes of a line of the file. -/
def parseRow (line : List Char) : Except CsvError CSVLine := parseCSVLine (stripLineEndings line)

/-! ## The reader -/

structure CSVReader where
  file : List (List Char)
  currentSetNo : Int
  currentTransactionSet : TransactionSet
  nextTransactionSet : TransactionSet
deriving DecidableEq, Repr

/-- The lines of a file, as `getline` delivers them. -/
def fileLines (bytes : List Char) : List (List Char) := (linesOf bytes).map Prod.snd

namespace CSVReader

/-- The constructor, on a file that opens. -/
def ofFile (bytes : List Char) : CSVReader where
  file := fileLines bytes
  currentSetNo := 0
  currentTransactionSet := ⟨0, [], [], [], []⟩
  nextTransactionSet := ⟨0, [], [], [], []⟩

/-- `readNextSet` up to its loop.  The leaders of the next set are swapped but not cleared. -/
def advance (r : CSVReader) : CSVReader :=
  { r with
    currentSetNo := r.currentSetNo + 1
    currentTransactionSet := { r.currentTransactionSet with
      servers := r.nextTransactionSet.servers
      leaders := r.nextTransactionSet.leaders
      transactions := r.nextTransactionSet.transactions }
    nextTransactionSet := { r.nextTransactionSet with
      servers := []
      leaders := r.currentTransactionSet.leaders
      transactions := [] } }

/-- The first row of a set. -/
def openSet (set : TransactionSet) (l : CSVLine) : TransactionSet :=
  { set with transactions := set.transactions ++ [l.transaction], servers := l.servers, leaders := l.leaders }

/-- Any other row. -/
def addRow (set : TransactionSet) (l : CSVLine) : TransactionSet :=
  { set with transactions := set.transactions ++ [l.transaction] }

/-- The loop of `readNextSet`; an exception ends it with the lines read so far consumed. -/
def readRows (r : CSVReader) : List (List Char) → CSVReader × Except CsvError Unit
  | [] => ({ r with file := [] }, .ok ())
  | line :: rest =>
    match parseRow line with
    | .error e => ({ r with file := rest }, .error e)
    | .ok l =>
      -- a second row with the number of the current set replaces its servers and leaders
      if l.setNo = r.currentSetNo then
        readRows { r with currentTransactionSet := openSet r.currentTransactionSet l } rest
      else if l.setNo = r.currentSetNo + 1 then
        ({ r with file := rest, nextTransactionSet := openSet r.nextTransactionSet l }, .ok ())
      else readRows { r with currentTransactionSet := addRow r.currentTransactionSet l } rest

/-- The names in `server_ids`, in the order of the map, that `t.servers` does not have. -/
def disconnectedFrom (known servers : List (List Char)) : List (List Char) :=
  known.filter fun s => !servers.contains s

/-- `readNextSet` after its loop. -/
def deliver (known : List (List Char)) (r : CSVReader) : Int × Option TransactionSet :=
  let current := r.currentTransactionSet
  if current.transactions = [] then (0, none)
  else (int32 current.transactions.length, some {
    setNo := r.currentSetNo
    servers := current.servers
    leaders := current.leaders
    transactions := current.transactions
    disconnected := disconnectedFrom known current.servers })

/-- `CSVReader::readNextSet(t)`: what it returns, and what it assigns to `t`. -/
def readNextSet (known : List (List Char)) (r : CSVReader) : CSVReader × Except CsvError (Int × Option TransactionSet) :=
  let read := readRows r.advance r.file
  (read.1, read.2.map fun _ => deliver known read.1)

/-! ## Calls one after the other -/

/-- The outcome of the call after `m` calls, with exceptions caught. -/
def outcome (known : List (List Char)) (r : CSVReader) : ℕ → Except CsvError (Int × Option TransactionSet)
  | 0 => (r.readNextSet known).2
  | m + 1 => outcome known (r.readNextSet known).1 m

/-- The set that `mainloop` hands to the client after a call. -/
def processed : Except CsvError (Int × Option TransactionSet) → Option TransactionSet
  | .ok (size, t) => if size = 0 then none else t
  | .error _ => none

variable {known : List (List Char)} {r : CSVReader} {line : List Char} {rest : List (List Char)} {l : CSVLine}

/-! ## The loop, row by row -/

theorem readRows_current (hline : parseRow line = .ok l) (hno : l.setNo = r.currentSetNo) :
    readRows r (line :: rest) =
      readRows { r with currentTransactionSet := openSet r.currentTransactionSet l } rest := by
  simp only [readRows, hline, hno, if_true]

theorem readRows_next (hline : parseRow line = .ok l) (hno : l.setNo = r.currentSetNo + 1) :
    readRows r (line :: rest) =
      ({ r with file := rest, nextTransactionSet := openSet r.nextTransactionSet l }, .ok ()) := by
  have hne : l.setNo ≠ r.currentSetNo := by omega
  simp only [readRows, hline, hno, if_neg (hno ▸ hne), if_true]

theorem readRows_other (hline : parseRow line = .ok l) (hcur : l.setNo ≠ r.currentSetNo)
    (hnext : l.setNo ≠ r.currentSetNo + 1) :
    readRows r (line :: rest) =
      readRows { r with currentTransactionSet := addRow r.currentTransactionSet l } rest := by
  simp only [readRows, hline, if_neg hcur, if_neg hnext]

theorem readRows_malformed {e : CsvError} (hline : parseRow line = .error e) :
    readRows r (line :: rest) = ({ r with file := rest }, .error e) := by
  simp only [readRows, hline]

/-- A row that does not open the next set goes to the current one. -/
theorem readRows_row (hline : parseRow line = .ok l) (hnext : l.setNo ≠ r.currentSetNo + 1) (rest : List (List Char)) :
    ∃ set : TransactionSet, set.transactions = r.currentTransactionSet.transactions ++ [l.transaction] ∧
      readRows r (line :: rest) = readRows { r with currentTransactionSet := set } rest := by
  by_cases hcur : l.setNo = r.currentSetNo
  · exact ⟨_, rfl, readRows_current hline hcur⟩
  · exact ⟨_, rfl, readRows_other hline hcur hnext⟩

/-- The loop keeps the number, and only adds to the current set. -/
theorem readRows_adds (r : CSVReader) (lines : List (List Char)) :
    (readRows r lines).1.currentSetNo = r.currentSetNo ∧
      r.currentTransactionSet.transactions <+: (readRows r lines).1.currentTransactionSet.transactions := by
  induction lines generalizing r with
  | nil => exact ⟨rfl, List.prefix_rfl⟩
  | cons line rest ih =>
    cases hline : parseRow line with
    | error e =>
      rw [readRows_malformed hline]
      exact ⟨rfl, List.prefix_rfl⟩
    | ok l =>
      by_cases hnext : l.setNo = r.currentSetNo + 1
      · rw [readRows_next hline hnext]
        exact ⟨rfl, List.prefix_rfl⟩
      · obtain ⟨set, hset, hread⟩ := readRows_row hline hnext rest
        rw [hread]
        obtain ⟨hno, hadds⟩ := ih { r with currentTransactionSet := set }
        refine ⟨hno, List.IsPrefix.trans ?_ hadds⟩
        exact ⟨[l.transaction], hset.symm⟩

/-- Every call advances the number, also one that throws. -/
theorem currentSetNo_readNextSet (known : List (List Char)) (r : CSVReader) :
    (r.readNextSet known).1.currentSetNo = r.currentSetNo + 1 := (readRows_adds r.advance r.file).1

theorem readNextSet_ok {r' : CSVReader} (h : readRows r.advance r.file = (r', .ok ())) :
    r.readNextSet known = (r', .ok (deliver known r')) := by
  rw [readNextSet, h]
  rfl

theorem readNextSet_error {r' : CSVReader} {e : CsvError} (h : readRows r.advance r.file = (r', .error e)) :
    r.readNextSet known = (r', .error e) := by
  rw [readNextSet, h]
  rfl

/-- What a call hands out has its number, and the transactions it has read. -/
theorem processed_readNextSet {t : TransactionSet} (h : processed (r.readNextSet known).2 = some t) :
    t.setNo = r.currentSetNo + 1 ∧
      t.transactions = (readRows r.advance r.file).1.currentTransactionSet.transactions := by
  have hno := (readRows_adds r.advance r.file).1
  cases hread : (readRows r.advance r.file).2 with
  | error e =>
    rw [readNextSet_error (Prod.ext rfl hread)] at h
    cases h
  | ok _ =>
    rw [readNextSet_ok (Prod.ext rfl hread), processed, deliver] at h
    split_ifs at h
    cases h
    exact ⟨hno, rfl⟩

/-- The call after `m` calls hands out no set but that with its number. -/
theorem setNo_outcome {m : ℕ} {t : TransactionSet} (h : processed (outcome known r m) = some t) :
    t.setNo = r.currentSetNo + m + 1 := by
  induction m generalizing r with
  | zero =>
    rw [(processed_readNextSet h).1]
    simp
  | succ m ih =>
    rw [ih h, currentSetNo_readNextSet]
    push_cast
    omega

end CSVReader

end MultiPaxosDB
