/-
# MultiPaxosDB.CsvSets — a run of `readNextSet` over the rows of numbered sets.

`numberedRows n sets` are the rows of a file of sets from number `n` on.  Between two calls the reader is before some
sets (`Before`): either nothing of them is read, or just the first row of the first of them, which is then in
`nextTransactionSet`.  A call reads the rows of one set (`Before.reads`) and stops at the row that opens the next one
(`Before.call`).

For the last of the sets it is the line behind it that decides.  If that is no row of the next set the set is not
returned as it is: a bad line throws away all that was read of it, any other row is taken for one of its own.  So the
sets before a malformed line come back, each once, exactly if that line is not the first behind them
(`returned_before_malformed_iff`).
-/
import MultiPaxosDB.CsvReader

namespace MultiPaxosDB

open Lib CSVReader

/-! ## Sets and their rows -/

/-- A set of a file: at least one transaction, the servers that are up, the leaders. -/
structure CsvSet where
  first : Transaction
  others : List Transaction
  servers : List (List Char)
  leaders : List (List Char)
deriving DecidableEq, Repr

namespace CsvSet

def transactions (s : CsvSet) : List Transaction := s.first :: s.others

def firstRow (s : CsvSet) (n : Int) : CSVLine := ⟨n, s.first, s.servers, s.leaders⟩

def otherRow (t : Transaction) : CSVLine := ⟨-1, t, [], []⟩

/-- What a caller gets for set number `n`. -/
def returned (s : CsvSet) (known : List (List Char)) (n : Int) : TransactionSet where
  setNo := n
  transactions := s.transactions
  servers := s.servers
  leaders := s.leaders
  disconnected := disconnectedFrom known s.servers

end CsvSet

/-- The rows of sets that are numbered from `n` on. -/
def numberedRows : Int → List CsvSet → List CSVLine
  | _, [] => []
  | n, s :: sets => s.firstRow n :: (s.others.map CsvSet.otherRow ++ numberedRows (n + 1) sets)

/-- Counting on from the next number. -/
theorem number_shift (n : Int) (m : ℕ) : n + 1 + (m : Int) = n + ((m + 1 : ℕ) : Int) := by
  push_cast
  omega

theorem numberedRows_append (n : Int) (sets sets' : List CsvSet) :
    numberedRows n (sets ++ sets') = numberedRows n sets ++ numberedRows (n + sets.length) sets' := by
  induction sets generalizing n with
  | nil => simp [numberedRows]
  | cons s sets ih =>
    rw [List.cons_append, numberedRows, numberedRows, ih, number_shift, List.cons_append, List.append_assoc]
    rfl

/-- A row is the first of a set, with the number of the set, or another one of a set. -/
theorem mem_numberedRows {n : Int} {sets : List CsvSet} {l : CSVLine} (h : l ∈ numberedRows n sets) :
    ∃ s ∈ sets, (∃ i : ℕ, i < sets.length ∧ l = s.firstRow (n + i)) ∨ ∃ t ∈ s.others, l = CsvSet.otherRow t := by
  induction sets generalizing n with
  | nil => cases h
  | cons s sets ih =>
    rcases List.mem_cons.mp h with rfl | h
    · exact ⟨s, List.mem_cons_self, .inl ⟨0, Nat.succ_pos _, by simp⟩⟩
    rcases List.mem_append.mp h with h | h
    · obtain ⟨t, ht, rfl⟩ := List.mem_map.mp h
      exact ⟨s, List.mem_cons_self, .inr ⟨t, ht, rfl⟩⟩
    · obtain ⟨s', hs', hrow⟩ := ih h
      refine ⟨s', List.mem_cons_of_mem s hs', ?_⟩
      rcases hrow with ⟨i, hi, rfl⟩ | hother
      · exact .inl ⟨i + 1, Nat.succ_lt_succ hi, congrArg _ (number_shift n i)⟩
      · exact .inr hother

/-- The lines of a file are read as these rows. -/
def ReadAs (lines : List (List Char)) (rows : List CSVLine) : Prop :=
  List.Forall₂ (fun line row => parseRow line = .ok row) lines rows

instance (lines : List (List Char)) (rows : List CSVLine) : Decidable (ReadAs lines rows) :=
  inferInstanceAs (Decidable (List.Forall₂ _ lines rows))

namespace CSVReader

variable {known : List (List Char)} {r : CSVReader} {s : CsvSet} {sets : List CsvSet} {later : List (List Char)}

/-! ## The reader between two calls -/

/-- The sets before these are returned; the rows of these are next, and the first one may be read ahead. -/
inductive Before (r : CSVReader) : List CsvSet → List (List Char) → Prop
  | start {sets lines later} (next : r.nextTransactionSet.transactions = [])
      (rows : ReadAs lines (numberedRows (r.currentSetNo + 1) sets)) (file : r.file = lines ++ later) :
      Before r sets later
  | ahead {s sets lines later} (next : r.nextTransactionSet.transactions = [s.first])
      (servers : r.nextTransactionSet.servers = s.servers) (leaders : r.nextTransactionSet.leaders = s.leaders)
      (rows : ReadAs lines (s.others.map CsvSet.otherRow ++ numberedRows (r.currentSetNo + 1 + 1) sets))
      (file : r.file = lines ++ later) : Before r (s :: sets) later

/-- The current set is `s`, under number `n`. -/
structure Holds (r : CSVReader) (n : Int) (s : CsvSet) : Prop where
  number : r.currentSetNo = n
  transactions : r.currentTransactionSet.transactions = s.transactions
  servers : r.currentTransactionSet.servers = s.servers
  leaders : r.currentTransactionSet.leaders = s.leaders

/-- The rows of a set after the first go to it. -/
theorem Holds.others {n : Int} (h : Holds r n s) (hn : 0 ≤ n) {lines : List (List Char)} {more : List Transaction}
    (hlines : ReadAs lines (more.map CsvSet.otherRow)) (rest : List (List Char)) :
    ∃ r', Holds r' n { s with others := s.others ++ more } ∧ r'.nextTransactionSet = r.nextTransactionSet ∧
      readRows r (lines ++ rest) = readRows r' rest := by
  induction more generalizing r s lines with
  | nil =>
    obtain rfl := List.forall₂_nil_right_iff.mp hlines
    rw [List.append_nil]
    exact ⟨r, h, rfl, rfl⟩
  | cons t more ih =>
    obtain ⟨line, lines, hline, hrest, rfl⟩ := List.forall₂_cons_right_iff.mp hlines
    -- the number −1 is neither that of this set nor that of the next
    have hother : (CsvSet.otherRow t).setNo ≠ r.currentSetNo ∧ (CsvSet.otherRow t).setNo ≠ r.currentSetNo + 1 := by
      have hno : (CsvSet.otherRow t).setNo = -1 := rfl
      have hnumber := h.number
      omega
    have hadded : Holds { r with currentTransactionSet := addRow r.currentTransactionSet (CsvSet.otherRow t) } n
        { s with others := s.others ++ [t] } :=
      ⟨h.number, congrArg (· ++ [t]) h.transactions, h.servers, h.leaders⟩
    obtain ⟨r', hholds, hnext, hread⟩ := ih hadded hrest
    refine ⟨r', ?_, hnext, ?_⟩
    · rwa [List.append_assoc, List.singleton_append] at hholds
    · rw [List.cons_append, readRows_other hline hother.1 hother.2, hread]

theorem readAs_append {lines : List (List Char)} {rows rows' : List CSVLine} (h : ReadAs lines (rows ++ rows')) :
    ∃ ls ls', lines = ls ++ ls' ∧ ReadAs ls rows ∧ ReadAs ls' rows' := by
  refine ⟨lines.take rows.length, lines.drop rows.length, (List.take_append_drop _ _).symm, ?_, ?_⟩
  · have htake := List.forall₂_take rows.length h
    rwa [List.take_left] at htake
  · have hdrop := List.forall₂_drop rows.length h
    rwa [List.drop_left] at hdrop

/-- A call reads the next set, and comes to what stands behind it. -/
theorem Before.reads (h : r.Before (s :: sets) later) (hn : 0 ≤ r.currentSetNo) :
    ∃ r' lines, Holds r' (r.currentSetNo + 1) s ∧ r'.nextTransactionSet.transactions = [] ∧
      ReadAs lines (numberedRows (r.currentSetNo + 1 + 1) sets) ∧
      readRows r.advance r.file = readRows r' (lines ++ later) := by
  cases h with
  | start hnext hrows hfile =>
    -- only before the first set: its first row is still in the file
    obtain ⟨line, rest, hline, hrest, rfl⟩ := List.forall₂_cons_right_iff.mp hrows
    obtain ⟨others, lines, rfl, hothers, hlines⟩ := readAs_append hrest
    have hopened : Holds { r.advance with currentTransactionSet := openSet r.advance.currentTransactionSet (s.firstRow
        (r.currentSetNo + 1)) } (r.currentSetNo + 1) { s with others := [] } :=
      ⟨rfl, congrArg (· ++ [s.first]) hnext, rfl, rfl⟩
    obtain ⟨r', hholds, hnext', hread⟩ := hopened.others (by omega) hothers (lines ++ later)
    refine ⟨r', lines, hholds, by rw [hnext']; rfl, hlines, ?_⟩
    rw [hfile, List.cons_append, readRows_current hline rfl, List.append_assoc, hread]
  | ahead hnext hservers hleaders hrows hfile =>
    -- the call before has read the first row, and the swap makes it the current set
    obtain ⟨others, lines, rfl, hothers, hlines⟩ := readAs_append hrows
    have hopened : Holds r.advance (r.currentSetNo + 1) { s with others := [] } := ⟨rfl, hnext, hservers, hleaders⟩
    obtain ⟨r', hholds, hnext', hread⟩ := hopened.others (by omega) hothers (lines ++ later)
    refine ⟨r', lines, hholds, by rw [hnext']; rfl, hlines, ?_⟩
    rw [hfile, List.append_assoc, hread]

/-- A set that is held is delivered. -/
theorem Holds.deliver {n : Int} (h : Holds r n s) (known : List (List Char)) :
    deliver known r = (int32 s.transactions.length, some (s.returned known n)) := by
  have hne : s.transactions ≠ [] := List.cons_ne_nil _ _
  simp only [CSVReader.deliver, h.number, h.transactions, h.servers, h.leaders, if_neg hne]
  rfl

/-- The row that opens the next set ends the call. -/
theorem Holds.opened {n : Int} (h : Holds r n s) {line : List Char} {l : CSVLine} (hline : parseRow line = .ok l)
    (hno : l.setNo = n + 1) (rest : List (List Char)) :
    ∃ r', readRows r (line :: rest) = (r', .ok ()) ∧ Holds r' n s ∧ r'.file = rest ∧
      r'.nextTransactionSet = openSet r.nextTransactionSet l :=
  ⟨_, readRows_next hline (by rw [h.number]; exact hno), ⟨h.number, h.transactions, h.servers, h.leaders⟩, rfl, rfl⟩

/-- **A call returns the next set** if another one comes after it, and is then before that. -/
theorem Before.call {s' : CsvSet} (h : r.Before (s :: s' :: sets) later) (hn : 0 ≤ r.currentSetNo)
    (known : List (List Char)) :
    (r.readNextSet known).1.Before (s' :: sets) later ∧
      (r.readNextSet known).2 = .ok (int32 s.transactions.length, some (s.returned known (r.currentSetNo + 1))) := by
  obtain ⟨r', lines, hholds, hnext, hlines, hread⟩ := h.reads hn
  obtain ⟨line, lines, hline, hrest, rfl⟩ := List.forall₂_cons_right_iff.mp hlines
  -- this row of the next set is read ahead; whatever leaders were left in its place are overwritten
  obtain ⟨r'', hopen, hholds', hfile, hnext'⟩ := hholds.opened hline rfl (lines ++ later)
  rw [readNextSet_ok (hread.trans hopen)]
  refine ⟨.ahead ?_ ?_ ?_ ?_ hfile, congrArg _ (hholds'.deliver known)⟩
  · rw [hnext', openSet, hnext]
    rfl
  · rw [hnext']
    rfl
  · rw [hnext']
    rfl
  · rw [hholds'.number]
    exact hrest

/-- The last set of a file is returned at its end. -/
theorem Before.call_end (h : r.Before (s :: sets) []) (hn : 0 ≤ r.currentSetNo) (known : List (List Char)) :
    (r.readNextSet known).1.Before sets [] ∧
      (r.readNextSet known).2 = .ok (int32 s.transactions.length, some (s.returned known (r.currentSetNo + 1))) := by
  cases sets with
  | cons s' sets => exact h.call hn known
  | nil =>
    obtain ⟨r', lines, hholds, hnext, hlines, hread⟩ := h.reads hn
    obtain rfl := List.forall₂_nil_right_iff.mp hlines
    rw [readNextSet_ok (hread.trans rfl)]
    have hend : Holds { r' with file := [] } (r.currentSetNo + 1) s :=
      ⟨hholds.number, hholds.transactions, hholds.servers, hholds.leaders⟩
    exact ⟨.start hnext .nil rfl, congrArg _ (hend.deliver known)⟩

/-- After it no call returns anything. -/
theorem Before.call_none (h : r.Before [] []) (known : List (List Char)) :
    (r.readNextSet known).1.Before [] [] ∧ (r.readNextSet known).2 = .ok (0, none) := by
  cases h with
  | start hnext hrows hfile =>
    obtain rfl := List.forall₂_nil_right_iff.mp hrows
    have hread : readRows r.advance r.file = ({ r.advance with file := [] }, .ok ()) := by
      rw [hfile]
      rfl
    rw [readNextSet_ok hread]
    exact ⟨.start rfl .nil rfl, congrArg _ (if_pos hnext)⟩

/-! ## What stands behind the last set -/

/-- The first line is a row that opens set `n`. -/
def Opens (n : Int) (later : List (List Char)) : Prop :=
  ∃ line rest l, later = line :: rest ∧ parseRow line = .ok l ∧ l.setNo = n

/-- **The last set comes back** exactly if the line behind it opens the next one. -/
theorem Before.last_iff (h : r.Before [s] later) (hn : 0 ≤ r.currentSetNo) (hlater : later ≠ []) :
    processed (r.readNextSet known).2 = some (s.returned known (r.currentSetNo + 1)) ↔
      int32 s.transactions.length ≠ 0 ∧ Opens (r.currentSetNo + 1 + 1) later := by
  obtain ⟨r', lines, hholds, -, hlines, hread⟩ := h.reads hn
  obtain rfl := List.forall₂_nil_right_iff.mp hlines
  obtain ⟨line, rest, rfl⟩ := List.exists_cons_of_ne_nil hlater
  rw [List.nil_append] at hread
  cases hline : parseRow line with
  | error e =>
    -- all that was read of the set is thrown away
    rw [readNextSet_error (hread.trans (readRows_malformed hline))]
    refine ⟨fun hsome => (by cases hsome), ?_⟩
    rintro ⟨-, line', rest', l, heq, hl, -⟩
    obtain ⟨rfl, rfl⟩ := List.cons.inj heq
    rw [hline] at hl
    cases hl
  | ok l =>
    by_cases hno : l.setNo = r.currentSetNo + 1 + 1
    · obtain ⟨r'', hopen, hholds', -, -⟩ := hholds.opened hline hno rest
      rw [readNextSet_ok (hread.trans hopen), hholds'.deliver known, processed]
      have hopens : Opens (r.currentSetNo + 1 + 1) (line :: rest) := ⟨line, rest, l, rfl, hline, hno⟩
      by_cases hsize : int32 s.transactions.length = 0
      · simp [hsize]
      · simp [hsize, hopens]
    · -- the row is taken for one of the set, which is then longer
      refine ⟨fun hsome => ?_, ?_⟩
      · obtain ⟨set, hset, hrow⟩ := readRows_row (r := r') hline (by rw [hholds.number]; exact hno) rest
        have hlonger := (readRows_adds { r' with currentTransactionSet := set } rest).2.length_le
        have hsame : s.transactions = _ := (processed_readNextSet hsome).2
        rw [hread, hrow] at hsame
        rw [← hsame] at hlonger
        simp only [hset, hholds.transactions, List.length_append, List.length_singleton] at hlonger
        omega
      · rintro ⟨-, line', rest', l', heq, hl, hno'⟩
        obtain ⟨rfl, rfl⟩ := List.cons.inj heq
        rw [hline] at hl
        cases hl
        exact absurd hno' hno

/-! ## Whole runs -/

/-- A file that ends with the sets: one a call, and then none. -/
theorem Before.outcomes (h : r.Before sets []) (hn : 0 ≤ r.currentSetNo) (known : List (List Char)) (m : ℕ) :
    outcome known r m = match sets[m]? with
      | some s => .ok (int32 s.transactions.length, some (s.returned known (r.currentSetNo + 1 + m)))
      | none => .ok (0, none) := by
  induction m generalizing r sets with
  | zero =>
    cases sets with
    | nil => exact (h.call_none known).2
    | cons s sets => simpa [outcome] using (h.call_end hn known).2
  | succ m ih =>
    have hnumber := currentSetNo_readNextSet known r
    rw [outcome]
    cases sets with
    | nil => exact ih (h.call_none known).1 (by omega)
    | cons s sets =>
      rw [ih (h.call_end hn known).1 (by omega), hnumber, number_shift, List.getElem?_cons_succ]

/-- The sets come back, one a call. -/
def ReturnsAll (known : List (List Char)) (r : CSVReader) (sets : List CsvSet) : Prop :=
  ∀ i (hi : i < sets.length),
    processed (outcome known r i) = some (sets[i].returned known (r.currentSetNo + 1 + i))

theorem returnsAll_cons : ReturnsAll known r (s :: sets) ↔
    processed (r.readNextSet known).2 = some (s.returned known (r.currentSetNo + 1)) ∧
      ReturnsAll known (r.readNextSet known).1 sets := by
  unfold ReturnsAll
  rw [currentSetNo_readNextSet]
  constructor
  · intro h
    refine ⟨by simpa [outcome] using h 0 (Nat.succ_pos _), fun i hi => ?_⟩
    rw [number_shift]
    exact h (i + 1) (Nat.succ_lt_succ hi)
  · rintro ⟨hfirst, hrest⟩ i hi
    cases i with
    | zero => simpa [outcome] using hfirst
    | succ i =>
      rw [← number_shift]
      exact hrest i (Nat.lt_of_succ_lt_succ hi)

/-- All come back exactly if the first line behind them opens the next set. -/
theorem Before.returnsAll_iff (h : r.Before sets later) (hn : 0 ≤ r.currentSetNo) (hlater : later ≠ []) :
    ReturnsAll known r sets ↔ (∀ s ∈ sets, int32 s.transactions.length ≠ 0) ∧
      (sets = [] ∨ Opens (r.currentSetNo + 1 + sets.length) later) := by
  induction sets generalizing r with
  | nil => simp [ReturnsAll]
  | cons s sets ih =>
    rw [returnsAll_cons]
    cases sets with
    | nil =>
      rw [h.last_iff hn hlater]
      simp [ReturnsAll]
    | cons s' sets =>
      obtain ⟨hbefore, hcall⟩ := h.call hn known
      have hnumber := currentSetNo_readNextSet known r
      have hbehind : r.currentSetNo + 1 + 1 + ((s' :: sets).length : Int) =
          r.currentSetNo + 1 + ((s :: s' :: sets).length : Int) := number_shift _ _
      have hfirst : processed (r.readNextSet known).2 = some (s.returned known (r.currentSetNo + 1)) ↔
          int32 s.transactions.length ≠ 0 := by
        rw [hcall, processed]
        simp
      rw [hfirst, ih hbefore (by omega), hnumber, hbehind, List.forall_mem_cons]
      simp [and_assoc]

/-- The sets of a file are numbered from 1. -/
theorem number_ofFile (bytes : List Char) (i : ℕ) : (CSVReader.ofFile bytes).currentSetNo + 1 + (i : Int) = i + 1 := by
  show (0 : Int) + 1 + i = i + 1
  omega

end CSVReader

/-! ## Sets before a malformed line -/

/-- `parseCSVLine` throws on the line. -/
def Malformed (line : List Char) : Prop := ∃ e, parseRow line = .error e

/-- The set is handed out, and no other set under its number. -/
def ReturnedOnce (known : List (List Char)) (r : CSVReader) (t : TransactionSet) : Prop :=
  ∃ m, processed (outcome known r m) = some t ∧
    ∀ m' t', processed (outcome known r m') = some t' → t'.setNo = t.setNo → m' = m

/-- It can be handed out only by the call with its number. -/
theorem returnedOnce_iff {known : List (List Char)} {r : CSVReader} {t : TransactionSet} {i : ℕ}
    (hno : t.setNo = r.currentSetNo + i + 1) : ReturnedOnce known r t ↔ processed (outcome known r i) = some t := by
  have hcall : ∀ m t', processed (outcome known r m) = some t' → t'.setNo = t.setNo → m = i := by
    intro m t' hm hsame
    have := setNo_outcome hm
    omega
  constructor
  · rintro ⟨m, hm, -⟩
    obtain rfl := hcall m t hm rfl
    exact hm
  · intro h
    exact ⟨i, h, hcall⟩

/-- **A malformed line and the sets before it**: for every file of well formed rows of sets 1 to j and later lines, one of
them malformed (in whatever sense), all the sets are returned, complete and once, exactly if the first of the later
lines opens set j + 1 and no number of transactions is zero as an `int`. -/
theorem returned_before_malformed_iff (known : List (List Char)) (bytes : List Char) (sets : List CsvSet)
    (lines later : List (List Char)) (malformed : List Char → Prop) (hfile : fileLines bytes = lines ++ later)
    (hrows : ReadAs lines (numberedRows 1 sets)) (hbad : ∃ line ∈ later, malformed line) :
    (∀ i (hi : i < sets.length), ReturnedOnce known (CSVReader.ofFile bytes) (sets[i].returned known (i + 1))) ↔
      (∀ s ∈ sets, int32 s.transactions.length ≠ 0) ∧ (sets = [] ∨ Opens (sets.length + 1) later) := by
  have hbefore : (CSVReader.ofFile bytes).Before sets later := .start rfl hrows hfile
  have hlater : later ≠ [] := by
    rintro rfl
    obtain ⟨line, hmem, -⟩ := hbad
    cases hmem
  rw [← number_ofFile bytes, ← hbefore.returnsAll_iff (show (0 : Int) ≤ 0 from le_rfl) hlater]
  refine forall_congr' fun i => forall_congr' fun hi => ?_
  rw [returnedOnce_iff (i := i) ?_, number_ofFile]
  show (i : Int) + 1 = 0 + i + 1
  omega

/-- A set with one transfer, and its row. -/
def oneTransfer : CsvSet := ⟨⟨1, 2, 3⟩, [], ["S1".toList, "S2".toList], ["S1".toList]⟩

def oneTransferRow (n : List Char) : List Char := n ++ ",\"(1, 2, 3)\",\"[S1, S2]\",\"[S1]\"".toList

/-- Set 1 comes back from a file with a blank line behind the first row of set 2. -/
theorem returned_before_malformed_iff_opened :
    ReturnedOnce ["S1".toList] (CSVReader.ofFile (unlines [oneTransferRow ['1'], oneTransferRow ['2'], []]))
      (oneTransfer.returned ["S1".toList] 1) := by
  refine (returned_before_malformed_iff ["S1".toList] (unlines [oneTransferRow ['1'], oneTransferRow ['2'], []])
    [oneTransfer] [oneTransferRow ['1']] [oneTransferRow ['2'], []] Malformed (by decide +kernel) (by decide +kernel)
    ⟨[], by simp, .outOfRange, by decide +kernel⟩).mpr ⟨?_, .inr ?_⟩ 0 Nat.one_pos
  · intro s hs
    obtain rfl := List.mem_singleton.mp hs
    decide +kernel
  · exact ⟨oneTransferRow ['2'], [[]], oneTransfer.firstRow 2, rfl, by decide +kernel, rfl⟩

/-- A blank line at the end of the file is enough to lose the last set. -/
theorem set_lost_to_blank_line :
    ¬ ∀ (known : List (List Char)) (bytes : List Char) (sets : List CsvSet) (lines later : List (List Char)),
      fileLines bytes = lines ++ later → ReadAs lines (numberedRows 1 sets) → (∃ line ∈ later, Malformed line) →
        ∀ i (hi : i < sets.length), ReturnedOnce known (CSVReader.ofFile bytes) (sets[i].returned known (i + 1)) := by
  intro h
  have hreturned := h ["S1".toList] (unlines [oneTransferRow ['1'], []]) [oneTransfer] [oneTransferRow ['1']] [[]]
    (by decide +kernel) (by decide +kernel) ⟨[], by simp, .outOfRange, by decide +kernel⟩ 0 Nat.one_pos
  have hlost : processed (outcome ["S1".toList] (CSVReader.ofFile (unlines [oneTransferRow ['1'], []])) 0) = none := by
    decide +kernel
  rw [returnedOnce_iff (i := 0) rfl, hlost] at hreturned
  cases hreturned

end MultiPaxosDB
