/-
# MultiPaxosDB.CsvRoundTrip — sets as they are printed, and what the reader makes of them.

The format is that of `test.csv`: the number of the set, the quoted transaction, the quoted servers and leaders on the
first row, and only the quoted transaction on the others.  A line may have blanks anywhere and a carriage return at its
end, and the last newline of the file may be missing.  What can be printed so and told apart when it is read is a
`DocumentedSet`.

The reader undoes the printing of a row (`parseRow_prints`), and so the calls return the sets
(`csv_sets_round_trip`) — as long as the numbers of the sets, and the numbers of their transactions, are of type `int`.
-/
import MultiPaxosDB.CsvSets

namespace MultiPaxosDB

open Lib CSVReader

/-! ## Printed rows -/

def quoted (s : List Char) : List Char := '"' :: (s ++ ['"'])

def transactionText (t : Transaction) : List Char :=
  '(' :: ([','].intercalate [showInt t.sender, showInt t.receiver, showInt t.amount] ++ [')'])

def serversText (names : List (List Char)) : List Char := '[' :: ([','].intercalate names ++ [']'])

/-- The number of a set, which only a first row has. -/
def numberCell (n : Int) : List Char := if n = -1 then [] else showInt n

/-- The text of a list of names, which only a first row has. -/
def listText (names : List (List Char)) : List Char := if names = [] then [] else serversText names

def listCell (names : List (List Char)) : List Char := if names = [] then [] else quoted (serversText names)

/-- A row without blanks. -/
def rowText (l : CSVLine) : List Char :=
  [','].intercalate [numberCell l.setNo, quoted (transactionText l.transaction), listCell l.servers, listCell l.leaders]

/-- A line with the text of a row: there may be blanks, and a carriage return. -/
def Prints (l : CSVLine) (line : List Char) : Prop :=
  line.filter (fun ch => ch != ' ') = rowText l ∨ line.filter (fun ch => ch != ' ') = rowText l ++ ['\r']

instance (l : CSVLine) (line : List Char) : Decidable (Prints l line) := inferInstanceAs (Decidable (_ ∨ _))

/-- Three values of type `int`. -/
def Transaction.IntFields (t : Transaction) : Prop := InRange 32 t.sender ∧ InRange 32 t.receiver ∧ InRange 32 t.amount

instance (t : Transaction) : Decidable t.IntFields := inferInstanceAs (Decidable (_ ∧ _))

/-- The characters that a name must not have: comma, quote, blank, brackets and line breaks. -/
def reservedChars : List Char := [',', '"', ' ', '[', ']', '\r', '\n']

def PlainName (name : List Char) : Prop := name.all (fun ch => !reservedChars.contains ch) = true

instance (name : List Char) : Decidable (PlainName name) := inferInstanceAs (Decidable (_ = _))

structure PlainNames (l : CSVLine) : Prop where
  servers : ∀ name ∈ l.servers, PlainName name
  leaders : ∀ name ∈ l.leaders, PlainName name

/-- A row that can be told from its text. -/
structure Printable (l : CSVLine) : Prop extends PlainNames l where
  number : InRange 32 l.setNo
  transaction : l.transaction.IntFields

/-! ## The characters of a row -/

/-- The characters that stand between quotes. -/
def isPlain (ch : Char) : Bool := ch != '"' && ch != ' ' && ch != '\r' && ch != '\n'

theorem PlainName.ne {name : List Char} (h : PlainName name) {ch c : Char} (hch : ch ∈ name)
    (hc : c ∈ reservedChars) : ch ≠ c := by
  rintro rfl
  have hnot := List.all_eq_true.mp h ch hch
  rw [List.contains_iff_mem.mpr hc] at hnot
  cases hnot

theorem PlainName.isPlain {name : List Char} (h : PlainName name) : ∀ ch ∈ name, isPlain ch = true := by
  intro ch hch
  have hne := fun c hc => h.ne (c := c) hch hc
  simp only [MultiPaxosDB.isPlain, Bool.and_eq_true, bne_iff_ne]
  exact ⟨⟨⟨hne _ (by decide), hne _ (by decide)⟩, hne _ (by decide)⟩, hne _ (by decide)⟩

theorem isPlain_showInt (z : Int) : ∀ ch ∈ showInt z, isPlain ch = true := by
  intro ch hch
  have hne := fun c => ne_of_mem_showInt (c := c) hch
  simp only [isPlain, Bool.and_eq_true, bne_iff_ne]
  exact ⟨⟨⟨hne _ (by decide) (by decide), hne _ (by decide) (by decide)⟩, hne _ (by decide) (by decide)⟩,
    hne _ (by decide) (by decide)⟩

theorem isPlain_transactionText (t : Transaction) : ∀ ch ∈ transactionText t, isPlain ch = true := by
  refine forall_mem_bracketed (by decide) (by decide) (forall_mem_intercalate ?_ ?_)
  · exact List.forall_mem_singleton.mpr (by decide)
  · rw [List.forall_mem_cons, List.forall_mem_cons, List.forall_mem_singleton]
    exact ⟨isPlain_showInt _, isPlain_showInt _, isPlain_showInt _⟩

theorem isPlain_serversText {names : List (List Char)} (h : ∀ name ∈ names, PlainName name) :
    ∀ ch ∈ serversText names, isPlain ch = true := by
  refine forall_mem_bracketed (by decide) (by decide) (forall_mem_intercalate ?_ ?_)
  · exact List.forall_mem_singleton.mpr (by decide)
  · exact fun name hname => (h name hname).isPlain

/-- `stripLineEndings` keeps the character. -/
def isKept (ch : Char) : Bool := !(ch == '\r' || ch == '\n' || ch == ' ')

theorem isKept_of_isPlain {ch : Char} (h : isPlain ch = true) : isKept ch = true := by
  simp only [isPlain, Bool.and_eq_true, bne_iff_ne] at h
  simp [isKept, h]

theorem isKept_quoted {s : List Char} (h : ∀ ch ∈ s, isPlain ch = true) : ∀ ch ∈ quoted s, isKept ch = true :=
  forall_mem_bracketed (by decide) (by decide) fun ch hch => isKept_of_isPlain (h ch hch)

theorem isKept_listCell {names : List (List Char)} (h : ∀ name ∈ names, PlainName name) :
    ∀ ch ∈ listCell names, isKept ch = true := by
  unfold listCell
  split
  · exact fun ch hch => absurd hch List.not_mem_nil
  · exact isKept_quoted (isPlain_serversText h)

theorem isPlain_numberCell (n : Int) : ∀ ch ∈ numberCell n, isPlain ch = true := by
  unfold numberCell
  split
  · exact fun ch hch => absurd hch List.not_mem_nil
  · exact isPlain_showInt n

/-- A row has no blank and no line break of its own. -/
theorem isKept_rowText {l : CSVLine} (h : PlainNames l) : ∀ ch ∈ rowText l, isKept ch = true := by
  refine forall_mem_intercalate (List.forall_mem_singleton.mpr (by decide)) ?_
  simp only [List.forall_mem_cons]
  exact ⟨fun ch hch => isKept_of_isPlain (isPlain_numberCell _ ch hch), isKept_quoted (isPlain_transactionText _),
    isKept_listCell h.servers, isKept_listCell h.leaders, fun _ hnil => absurd hnil List.not_mem_nil⟩

/-! ## Reading a row back -/

theorem parseSetNumber_numberCell {n : Int} (hn : InRange 32 n) : parseSetNumber (numberCell n) = .ok n := by
  unfold numberCell
  split
  · rename_i heq
    rw [heq]
    rfl
  · have hne : showInt n ≠ [] := List.append_ne_nil_of_right_ne_nil _ Nat.toDigits_ne_nil
    rw [parseSetNumber, if_neg hne, stoi_showInt, if_pos hn]

theorem parseTransaction_transactionText {t : Transaction} (ht : t.IntFields) :
    parseTransaction (transactionText t) = .ok t := by
  have hplain : ∀ z, transactionFields.Reads (showInt z) (showInt z) := fun z => by
    refine Splitter.reads_plain fun ch hch => ?_
    have hne := fun c => ne_of_mem_showInt (c := c) hch
    simp [transactionFields, hne]
  have hsplit : transactionFields.split (transactionText t) =
      [showInt t.sender, showInt t.receiver, showInt t.amount] := by
    rw [transactionText, Splitter.split_bracketed _ (by decide) (by decide)]
    exact Splitter.split_intercalate rfl rfl (.cons (hplain _) (.cons (hplain _) (.cons (hplain _) .nil)))
      (List.cons_ne_nil _ _)
  obtain ⟨hs, hr, ha⟩ := ht
  unfold parseTransaction
  rw [hsplit]
  show (do
    let sender ← stoi (showInt t.sender)
    let receiver ← stoi (showInt t.receiver)
    let amount ← stoi (showInt t.amount)
    return ⟨sender, receiver, amount⟩) = Except.ok t
  rw [stoi_showInt t.sender, stoi_showInt t.receiver, stoi_showInt t.amount, if_pos hs, if_pos hr, if_pos ha]
  rfl

theorem parseServers_serversText {names : List (List Char)} (hne : names ≠ []) (h : ∀ name ∈ names, PlainName name) :
    parseServers (serversText names) = names := by
  have hplain : ∀ name ∈ names, serverFields.Reads name name := fun name hname => by
    refine Splitter.reads_plain fun ch hch => ?_
    have hne := fun c hc => (h name hname).ne (c := c) hch hc
    simp only [serverFields, Bool.or_eq_false_iff, beq_eq_false_iff_ne]
    exact ⟨⟨⟨hne _ (by decide), hne _ (by decide)⟩, hne _ (by decide)⟩, trivial, hne _ (by decide)⟩
  rw [parseServers, serversText, Splitter.split_bracketed _ (by decide) (by decide)]
  exact Splitter.split_intercalate rfl rfl (List.forall₂_same.mpr hplain) hne

theorem parseListed_listText {names : List (List Char)} (h : ∀ name ∈ names, PlainName name) :
    parseListed (listText names) = names := by
  unfold listText
  split
  · rename_i heq
    rw [heq]
    rfl
  · rename_i hne
    rw [parseListed, if_neg (show serversText names ≠ [] from List.cons_ne_nil _ _), parseServers_serversText hne h]

theorem reads_numberCell (n : Int) : csvColumns.Reads (numberCell n) (numberCell n) := by
  unfold numberCell
  split
  · exact Splitter.reads_nil
  · refine Splitter.reads_plain fun ch hch => ?_
    have hne := fun c => ne_of_mem_showInt (c := c) hch
    simp [csvColumns, hne]

theorem reads_quoted {s : List Char} (h : ∀ ch ∈ s, isPlain ch = true) : csvColumns.Reads (quoted s) s := by
  refine Splitter.reads_quoted rfl rfl fun ch hch => ⟨rfl, ?_⟩
  have hplain := h ch hch
  simp only [isPlain, Bool.and_eq_true, bne_iff_ne] at hplain
  simp [csvColumns, hplain]

theorem reads_listCell {names : List (List Char)} (h : ∀ name ∈ names, PlainName name) :
    csvColumns.Reads (listCell names) (listText names) := by
  unfold listCell listText
  split
  · exact Splitter.reads_nil
  · exact reads_quoted (isPlain_serversText h)

/-- The columns of a printed row. -/
theorem split_rowText {l : CSVLine} (h : PlainNames l) : csvColumns.split (rowText l) =
    [numberCell l.setNo, transactionText l.transaction, listText l.servers, listText l.leaders] :=
  Splitter.split_intercalate rfl rfl (.cons (reads_numberCell _) (.cons (reads_quoted (isPlain_transactionText _))
    (.cons (reads_listCell h.servers) (.cons (reads_listCell h.leaders) .nil)))) (List.cons_ne_nil _ _)

theorem parseCSVLine_rowText {l : CSVLine} (h : Printable l) : parseCSVLine (rowText l) = .ok l := by
  unfold parseCSVLine
  rw [split_rowText h.toPlainNames]
  show (do
    let setNumber ← parseSetNumber (numberCell l.setNo)
    let t ← parseTransaction (transactionText l.transaction)
    return ⟨setNumber, t, parseListed (listText l.servers), parseListed (listText l.leaders)⟩) = Except.ok l
  rw [parseSetNumber_numberCell h.number, parseTransaction_transactionText h.transaction,
    parseListed_listText h.servers, parseListed_listText h.leaders]
  rfl

theorem stripLineEndings_blanks (line : List Char) :
    stripLineEndings (line.filter fun ch => ch != ' ') = stripLineEndings line := by
  rw [stripLineEndings, stripLineEndings, List.filter_filter]
  refine List.filter_congr fun ch _ => ?_
  cases hblank : ch == ' ' <;> simp [hblank, bne]

/-- **The reader undoes the printing of a row**, whatever the blanks and the line end. -/
theorem parseRow_prints {l : CSVLine} (h : Printable l) {line : List Char} (hline : Prints l line) :
    parseRow line = .ok l := by
  have hkept : stripLineEndings (rowText l) = rowText l := List.filter_eq_self.mpr (isKept_rowText h.toPlainNames)
  have hstrip : stripLineEndings line = rowText l := by
    rw [← stripLineEndings_blanks]
    rcases hline with heq | heq
    · rw [heq, hkept]
    · rw [heq, stripLineEndings, List.filter_append]
      show stripLineEndings (rowText l) ++ [] = rowText l
      rw [hkept, List.append_nil]
  rw [parseRow, hstrip, parseCSVLine_rowText h]

/-- A row is printed by its text. -/
theorem prints_rowText {l : CSVLine} (h : PlainNames l) : Prints l (rowText l) := by
  refine .inl (List.filter_eq_self.mpr fun ch hch => ?_)
  have hkept := isKept_rowText h ch hch
  simp only [isKept, Bool.not_eq_true', Bool.or_eq_false_iff, beq_eq_false_iff_ne] at hkept
  simp [hkept]

/-- A printed line is one line of a file, and not an empty one. -/
theorem line_of_prints {l : CSVLine} (h : PlainNames l) {line : List Char} (hline : Prints l line) :
    '\n' ∉ line ∧ line ≠ [] := by
  have hne : rowText l ≠ [] := by
    rw [rowText, List.intercalate_cons_cons]
    exact List.append_ne_nil_of_left_ne_nil (List.append_ne_nil_of_right_ne_nil _ (List.cons_ne_nil _ _)) _
  constructor
  · intro hmem
    have hfilter : '\n' ∈ line.filter fun ch => ch != ' ' := List.mem_filter.mpr ⟨hmem, by decide⟩
    have hrow : '\n' ∉ rowText l := fun hin => absurd (isKept_rowText h _ hin) (by decide)
    rcases hline with heq | heq
    · exact hrow (heq ▸ hfilter)
    · rcases List.mem_append.mp (heq ▸ hfilter) with hin | hin
      · exact hrow hin
      · exact absurd hin (by decide)
  · rintro rfl
    rcases hline with heq | heq
    · exact hne heq.symm
    · exact List.append_ne_nil_of_left_ne_nil hne _ heq.symm

/-! ## Printed sets -/

/-- A set that the format can express. -/
structure DocumentedSet extends CsvSet where
  fits : ∀ t ∈ toCsvSet.transactions, t.IntFields
  servers_ne : servers ≠ []
  leaders_ne : leaders ≠ []
  servers_plain : ∀ name ∈ servers, PlainName name
  leaders_plain : ∀ name ∈ leaders, PlainName name

/-- The file has the rows of the sets, numbered from 1, in lines that end with `\n` or `\r\n`. -/
def FileOf (sets : List DocumentedSet) (bytes : List Char) : Prop :=
  ∃ lines, List.Forall₂ Prints (numberedRows 1 (sets.map DocumentedSet.toCsvSet)) lines ∧
    (bytes = unlines lines ∨ bytes ++ ['\n'] = unlines lines)

section Rows

variable {n : Int} {sets : List DocumentedSet} {l : CSVLine}

theorem plainNames_of_mem (h : l ∈ numberedRows n (sets.map DocumentedSet.toCsvSet)) : PlainNames l := by
  obtain ⟨_, hs, hrow⟩ := mem_numberedRows h
  obtain ⟨s, -, rfl⟩ := List.mem_map.mp hs
  rcases hrow with ⟨i, -, rfl⟩ | ⟨t, -, rfl⟩
  · exact ⟨s.servers_plain, s.leaders_plain⟩
  · exact ⟨fun _ hnil => absurd hnil List.not_mem_nil, fun _ hnil => absurd hnil List.not_mem_nil⟩

theorem printable_of_mem (hn : 0 ≤ n) (hlast : n + sets.length ≤ 2 ^ 31)
    (h : l ∈ numberedRows n (sets.map DocumentedSet.toCsvSet)) : Printable l := by
  obtain ⟨_, hs, hrow⟩ := mem_numberedRows h
  obtain ⟨s, -, rfl⟩ := List.mem_map.mp hs
  obtain ⟨hfirst, hothers⟩ := List.forall_mem_cons.mp s.fits
  rw [List.length_map] at hrow
  have hnames := plainNames_of_mem h
  rcases hrow with ⟨i, hi, rfl⟩ | ⟨t, ht, rfl⟩
  · refine ⟨hnames, ⟨?_, ?_⟩, hfirst⟩
    · show -2 ^ 31 ≤ n + i
      omega
    · show n + i < 2 ^ 31
      omega
  · exact ⟨hnames, show InRange 32 (-1) by decide, hothers t ht⟩

/-- Printed rows whose numbers fit are read back. -/
theorem readAs_of_prints {lines : List (List Char)} (hn : 0 ≤ n) (hlast : n + sets.length ≤ 2 ^ 31)
    (hlines : List.Forall₂ Prints (numberedRows n (sets.map DocumentedSet.toCsvSet)) lines) :
    ReadAs lines (numberedRows n (sets.map DocumentedSet.toCsvSet)) := by
  have hall := (List.forall₂_and_left _ _).mpr ⟨fun l hl => printable_of_mem hn hlast hl, hlines⟩
  exact (hall.imp fun l line hl => parseRow_prints hl.1 hl.2).flip

/-- The lines of a printed file. -/
theorem fileLines_of_prints {lines : List (List Char)} {bytes : List Char}
    (hlines : List.Forall₂ Prints (numberedRows n (sets.map DocumentedSet.toCsvSet)) lines)
    (hbytes : bytes = unlines lines ∨ bytes ++ ['\n'] = unlines lines) : fileLines bytes = lines := by
  have hall := (List.forall₂_and_left _ _).mpr ⟨fun l hl => plainNames_of_mem hl, hlines⟩
  have hboth : List.Forall₂ (fun line _ => ('\n' ∉ line ∧ line ≠ []) ∧ True) lines
      (numberedRows n (sets.map DocumentedSet.toCsvSet)) :=
    (hall.imp fun l line hl => ⟨line_of_prints hl.1 hl.2, trivial⟩).flip
  exact map_snd_linesOf ((List.forall₂_and_left _ _).mp hboth).1 hbytes

end Rows

/-- A printed file is read as its rows. -/
theorem FileOf.before {sets : List DocumentedSet} {bytes : List Char} (h : FileOf sets bytes)
    (hcount : sets.length < 2 ^ 31) :
    (CSVReader.ofFile bytes).Before (sets.map DocumentedSet.toCsvSet) [] := by
  obtain ⟨lines, hlines, hbytes⟩ := h
  refine .start rfl (readAs_of_prints (n := 1) (by decide) (by omega) hlines) ?_
  rw [List.append_nil]
  exact fileLines_of_prints hlines hbytes

/-- As many calls as there are sets return them in order, each with its number, its transactions, its servers and leaders
and the known servers it does not list; every later call returns 0. -/
structure RoundTrips (known : List (List Char)) (bytes : List Char) (sets : List DocumentedSet) : Prop where
  returns : ∀ m (hm : m < sets.length), outcome known (CSVReader.ofFile bytes) m =
    .ok (sets[m].transactions.length, some (sets[m].returned known (m + 1)))
  then_none : ∀ m, sets.length ≤ m → outcome known (CSVReader.ofFile bytes) m = .ok (0, none)

/-- **Printed sets come back**, if neither the sets nor the transactions of one are more than an `int` counts. -/
theorem csv_sets_round_trip (known : List (List Char)) (sets : List DocumentedSet) (bytes : List Char)
    (hfile : FileOf sets bytes) (hcount : sets.length < 2 ^ 31)
    (hsize : ∀ s ∈ sets, s.transactions.length < 2 ^ 31) : RoundTrips known bytes sets := by
  have hcalls := (hfile.before hcount).outcomes (show (0 : Int) ≤ 0 from le_rfl) known
  constructor
  · intro m hm
    rw [hcalls, List.getElem?_map, List.getElem?_eq_getElem hm, number_ofFile]
    have hfew := hsize _ (List.getElem_mem hm)
    show Except.ok (int32 sets[m].transactions.length, _) = _
    rw [int32_eq_self (by omega) (by omega)]
  · intro m hm
    rw [hcalls, List.getElem?_map, List.getElem?_eq_none hm]
    rfl

/-- Two sets of `test.csv`, less some of their rows. -/
def documentedSet (first : Transaction) (others : List Transaction) (hfits : ∀ t ∈ first :: others, t.IntFields) :
    DocumentedSet where
  first := first
  others := others
  servers := ["S1".toList, "S3".toList]
  leaders := ["S1".toList]
  fits := hfits
  servers_ne := by decide
  leaders_ne := by decide
  servers_plain := by decide
  leaders_plain := by decide

def printedLines : List (List Char) :=
  ["1,\"(100, 501, 8)\",\"[S1, S3]\",\"[S1]\"\r".toList, ",\"( 1001, 1650,2)\" ,, \r".toList,
    "2,\"(1201, 1111, -5)\",\"[S1,S3]\",\"[ S1 ]\"".toList]

theorem csv_sets_round_trip_two :
    RoundTrips ["S1".toList, "S2".toList, "S3".toList] (unlines printedLines)
      [documentedSet ⟨100, 501, 8⟩ [⟨1001, 1650, 2⟩] (by decide), documentedSet ⟨1201, 1111, -5⟩ [] (by decide)] :=
  csv_sets_round_trip _ _ _ ⟨printedLines, by decide +kernel, .inl rfl⟩ (by decide) (by decide)

theorem prints_numberedRows (n : Int) (sets : List DocumentedSet) :
    List.Forall₂ Prints (numberedRows n (sets.map DocumentedSet.toCsvSet))
      ((numberedRows n (sets.map DocumentedSet.toCsvSet)).map rowText) :=
  List.forall₂_map_right_iff.mpr (List.forall₂_same.mpr fun _ hl => prints_rowText (plainNames_of_mem hl))

/-- If the number of a set is not read, the set before it is not returned. -/
theorem not_roundTrips_of_unread (known : List (List Char)) {sets : List DocumentedSet} {s : DocumentedSet} {e : CsvError}
    (hsets : sets ≠ []) (hcount : sets.length < 2 ^ 31)
    (hunread : parseRow (rowText (s.firstRow (1 + sets.length))) = .error e) :
    ∃ bytes, FileOf (sets ++ [s]) bytes ∧ ¬ RoundTrips known bytes (sets ++ [s]) := by
  have hprints := prints_numberedRows 1 (sets ++ [s])
  refine ⟨_, ⟨_, hprints, .inl rfl⟩, fun htrip => ?_⟩
  have hfile := fileLines_of_prints hprints (.inl rfl)
  generalize unlines _ = bytes at hfile htrip
  rw [List.map_append, numberedRows_append, List.map_append, List.length_map] at hfile
  have hread := readAs_of_prints (by decide) (by omega) (prints_numberedRows 1 sets)
  have hbefore : (CSVReader.ofFile bytes).Before (sets.map DocumentedSet.toCsvSet) _ := .start rfl hread hfile
  -- a round trip would return the sets before it
  have hall : ReturnsAll known (CSVReader.ofFile bytes) (sets.map DocumentedSet.toCsvSet) := by
    intro i hi
    rw [List.length_map] at hi
    have hreturn := htrip.returns i (by rw [List.length_append]; omega)
    rw [List.getElem_append_left hi] at hreturn
    have hsome : (sets[i].transactions.length : Int) ≠ 0 := by
      rw [CsvSet.transactions, List.length_cons]
      omega
    rw [hreturn, number_ofFile, List.getElem_map, processed, if_neg hsome]
  -- but the first line behind them is the row that is not read
  obtain ⟨-, hnone | ⟨line, rest, l, hline, hl, -⟩⟩ := (hbefore.returnsAll_iff (show (0 : Int) ≤ 0 from le_rfl)
    (List.cons_ne_nil _ _)).mp hall
  · exact hsets (List.map_eq_nil_iff.mp hnone)
  · obtain rfl := (List.cons.inj hline).1
    rw [hunread] at hl
    cases hl

/-- A one-row set. -/
def oneRow : DocumentedSet := documentedSet ⟨1, 2, 3⟩ [] (by decide)

/-- The number 2147483648 of a set is no `int`: `std::stoi` throws on its row, in the call for the set before it. -/
theorem sets_past_int_lost :
    ¬ ∀ (known : List (List Char)) (sets : List DocumentedSet) (bytes : List Char),
      FileOf sets bytes → RoundTrips known bytes sets := by
  intro h
  have hne : List.replicate 2147483647 oneRow ≠ [] := by
    rw [Ne, List.replicate_eq_nil_iff]
    decide
  have hunread : parseRow (rowText (oneRow.firstRow (1 + (List.replicate 2147483647 oneRow).length))) =
      .error .outOfRange := by
    rw [List.length_replicate]
    decide +kernel
  obtain ⟨bytes, hfile, hnot⟩ := not_roundTrips_of_unread [] hne (by rw [List.length_replicate]; decide) hunread
  exact hnot (h _ _ bytes hfile)

end MultiPaxosDB
