/-
# MultiPaxosDB.WalTail — a last line that was not written to its end.

A crash may stop a write at any byte, so the file on disk is a prefix of the one that was written: complete lines
and a tail without a newline.  `recover` reads the tail as a line, and skips it if one of its seven tokens does not
parse.  That is no test for completeness.  A tail that reaches the first digit of the amount parses, and is then
recovered with whatever digits of the amount there are (`scanText_torn_iff`).

Nor is the tail cut off before the next append, which goes to the raw end of the file.  The first line that is
written after a restart continues the torn one, and no scan finds it any more, whatever the cut
(`append_torn_iff`).  In the running process nothing shows: the offsets in the index are exact.
-/
import MultiPaxosDB.WalPending

namespace MultiPaxosDB

open Lib
open Std (ExtTreeMap)

/-! ## What a torn line reads as -/

/-- The keywords `recover` makes an entry of. -/
def WalOp.recovered : WalOp → Bool
  | .inCommit => true
  | .keyed .intra .committed => true
  | .keyed .cross .prepared => true
  | .keyed .cross .committed => true
  | .keyed .cross .aborted => true
  | _ => false

/-- The same on words. -/
def isRecovered (op : List Char) : Bool :=
  op ∈ ["IN_COMMIT".toList, "IS_COMMIT".toList, "CS_PREPARE".toList, "CS_COMMIT".toList, "CS_ABORT".toList]

theorem isRecovered_text (op : WalOp) : isRecovered op.text = op.recovered := by
  cases op with
  | inCommit => decide
  | keyed type status => cases type <;> cases status <;> decide

namespace WalLine

/-- The numbers before the amount. -/
def leading (l : WalLine) : List Int := [l.tid, l.ballotNum, l.ballotServerId, l.txn.sender, l.txn.receiver]

/-- The bytes of a line before the first digit of its amount. -/
def amountStart (l : WalLine) : ℕ := l.op.text.length + cutPoint l.leading l.txn.amount

end WalLine

/-- A line cut in its keyword is no line. -/
theorem parseLine_keyword_cut {op : WalOp} {part : List Char} (hpart : part <+: op.text) : parseLine part = none := by
  by_cases hnil : part = []
  · rw [hnil]
    rfl
  · have hword : readWord part = some (part, []) := by
      have hall := readWord_word (s := []) hnil (fun ch hch => isSpace_text op ch (hpart.subset hch))
        (fun ch hch => nomatch hch)
      rwa [List.append_nil] at hall
    unfold parseLine
    rw [hword]
    simp only [readInts_blocked blocked_nil (show fieldWidths ≠ [] by decide)]

/-- **A line cut behind its keyword**, and then whatever no number starts with: it parses if a digit of the amount
is left. -/
theorem parseLine_cut {l : WalLine} (hl : l.Fits) {part s : List Char} (hpart : part <+: l.text)
    (hlong : l.op.text.length < part.length) (hs : Blocked s) :
    (part.length ≤ l.amountStart → parseLine (part ++ s) = none) ∧
      (l.amountStart < part.length → ∃ amount : Int, parseLine (part ++ s) =
        some (l.op.text, { l.entry .cross .noStatus with txn := { l.txn with amount := amount } })) := by
  -- the keyword is there in full: the cut is in the numbers
  obtain ⟨q, rfl⟩ : l.op.text <+: part :=
    List.prefix_of_prefix_length_le (List.prefix_append _ _) hpart hlong.le
  have hq : q <+: fieldsText (l.leading ++ [l.txn.amount]) := (List.prefix_append_right_inj _).mp hpart
  have hhead : ∀ ch ∈ (q ++ s).head?, isSpace ch = true := by
    cases q with
    | nil => simp at hlong
    | cons ch q =>
      intro ch' hch'
      cases hch'
      obtain ⟨r, hr⟩ := hq
      exact isSpace_head_fieldsText _ ch (by rw [← hr]; rfl)
  obtain ⟨hnone, hsome⟩ := readInts_cut hs l.txn.amount l.leading hl hq
  rw [List.append_assoc, parseLine_word (text_ne_nil l.op) (isSpace_text l.op) hhead, List.length_append, WalLine.amountStart]
  constructor
  · intro hlen
    rw [hnone (by omega)]
  · intro hlen
    obtain ⟨amount, hread⟩ := hsome (by omega)
    exact ⟨amount, by rw [hread]; rfl⟩

/-- No number starts with what a line starts with. -/
theorem blocked_text (l : WalLine) : Blocked l.text := by
  have hop : Blocked l.op.text := by
    cases l.op with
    | inCommit =>
      intro ch hch
      cases hch
      decide
    | keyed type status => cases type <;> cases status <;> intro ch hch <;> cases hch <;> decide
  intro ch hch
  refine hop ch ?_
  rw [WalLine.text, List.head?_append_of_ne_nil _ (text_ne_nil l.op)] at hch
  exact hch

namespace Recovery

theorem readText_none {line : List Char} (h : parseLine line = none) (r : Recovery) (position : ℕ) :
    r.readText position line = r := by
  unfold readText
  rw [h]
  exact ite_self _

/-- A line that parses counts for the ballot, and is an entry more if its keyword is one of the five. -/
theorem readText_some {line op : List Char} {e : WALEntry} (h : parseLine line = some (op, e)) (r : Recovery)
    (position : ℕ) :
    (r.readText position line).log.length = r.log.length + (isRecovered op).toNat ∧
      (isRecovered op = false →
        r.readText position line = { r with ballotNum := max r.ballotNum e.ballotNum }) := by
  have hne : line ≠ [] := by
    rintro rfl
    cases h
  have hword : isRecovered op = true ↔ (op = "IN_COMMIT".toList ∨ op = "IS_COMMIT".toList) ∨ op = "CS_PREPARE".toList ∨
      op = "CS_COMMIT".toList ∨ op = "CS_ABORT".toList := by
    simp only [isRecovered, decide_eq_true_eq, List.mem_cons, List.not_mem_nil, or_false, or_assoc]
  have hpush : isRecovered op = true → ∀ (r' : Recovery) (e' : WALEntry), r'.log = r.log →
      (r'.push e').log.length = r.log.length + (isRecovered op).toNat ∧
        (isRecovered op = false → r'.push e' = { r with ballotNum := max r.ballotNum e.ballotNum }) := by
    intro hrec r' e' hlog
    rw [push, hlog, List.length_append, hrec]
    exact ⟨rfl, fun hnot => by cases hnot⟩
  unfold readText
  rw [if_neg hne, h]
  dsimp only
  -- every branch but the last pushes one entry
  split_ifs with hintra hprepare hcommit habort
  · exact hpush (hword.mpr (.inl hintra)) { r with ballotNum := _ } _ rfl
  · exact hpush (hword.mpr (.inr (.inl hprepare))) { r with ballotNum := _, transferIndex := _ } _ rfl
  · exact hpush (hword.mpr (.inr (.inr (.inl hcommit)))) { r with ballotNum := _, transferIndex := _ } _ rfl
  · exact hpush (hword.mpr (.inr (.inr (.inr habort)))) { r with ballotNum := _, transferIndex := _ } _ rfl
  · have hnot : isRecovered op = false := by
      rw [← Bool.not_eq_true, hword]
      rintro (h | h | h | h)
      · exact hintra h
      · exact hprepare h
      · exact hcommit h
      · exact habort h
    rw [hnot]
    exact ⟨rfl, fun _ => rfl⟩

/-! ## A prefix of the file -/

/-- What `recover` hands on: the log, which tids are pending, and the ballot number. -/
structure SameAs (r r' : Recovery) : Prop where
  log : r.log = r'.log
  pending : ∀ t : Int, t ∈ r.transferIndex ↔ t ∈ r'.transferIndex
  ballotNum : r.ballotNum = r'.ballotNum

theorem SameAs.symm {r r' : Recovery} (h : r.SameAs r') : r'.SameAs r :=
  ⟨h.log.symm, fun t => (h.pending t).symm, h.ballotNum.symm⟩

theorem SameAs.trans {r r' r'' : Recovery} (h : r.SameAs r') (h' : r'.SameAs r'') : r.SameAs r'' :=
  ⟨h.log.trans h'.log, fun t => (h.pending t).trans (h'.pending t), h.ballotNum.trans h'.ballotNum⟩

theorem Encodes.sameAs {file : List WalLine} {r r' : Recovery} (h : r.Encodes file r') : r.SameAs r' where
  log := h.log
  pending := by
    intro t
    rw [ExtTreeMap.mem_iff_isSome_getElem?, ExtTreeMap.mem_iff_isSome_getElem?, h.index t, Option.isSome_map]
  ballotNum := h.ballotNum

/-- The recovered ballot number is the saved one or that of some line. -/
theorem le_ballotNum_scan_iff {b z : Int} {file : List WalLine} :
    z ≤ (scan b file).ballotNum ↔ z ≤ b ∨ ∃ l ∈ file, z ≤ l.ballotNum := by
  induction file using List.reverseRecOn with
  | nil => simp [scan]
  | append_singleton file l ih =>
    rw [scan_append, ballotNum_readLine, le_max_iff, ih, or_assoc]
    simp only [List.mem_append, List.mem_singleton, or_and_right, exists_or, exists_eq_left]

/-- What a torn line adds to what has been recovered: nothing if it does not parse, its ballot number if it parses
and has another keyword, else an entry. -/
theorem sameAs_readText_torn {l : WalLine} (hl : l.Fits) {part : List Char} (hpart : part <+: l.text) (r : Recovery)
    (position : ℕ) :
    (r.readText position part).SameAs r ↔
      part.length ≤ l.amountStart ∨ l.op.recovered = false ∧ l.ballotNum ≤ r.ballotNum := by
  by_cases hshort : part.length ≤ l.op.text.length
  · -- not even a keyword and one number
    have hbegins : part <+: l.op.text := List.prefix_of_prefix_length_le hpart (List.prefix_append _ _) hshort
    rw [readText_none (parseLine_keyword_cut hbegins)]
    refine iff_of_true ⟨rfl, fun _ => Iff.rfl, rfl⟩ (.inl ?_)
    rw [WalLine.amountStart]
    omega
  · obtain ⟨hnone, hsome⟩ := parseLine_cut hl hpart (by omega) blocked_nil
    rw [List.append_nil] at hnone hsome
    by_cases hcut : part.length ≤ l.amountStart
    · rw [readText_none (hnone hcut)]
      exact iff_of_true ⟨rfl, fun _ => Iff.rfl, rfl⟩ (.inl hcut)
    · obtain ⟨amount, hparse⟩ := hsome (by omega)
      obtain ⟨hgrows, hskipped⟩ := readText_some hparse r position
      rw [isRecovered_text] at hgrows hskipped
      rw [or_iff_right hcut]
      cases hop : l.op.recovered with
      | true =>
        -- an entry more, whatever digits of the amount are left
        refine iff_of_false ?_ (fun h => nomatch h.1)
        intro hsame
        rw [hsame.log, hop] at hgrows
        exact Nat.succ_ne_self _ hgrows.symm
      | false =>
        -- no entry, but `recover` has raised the ballot number before it looks at the keyword
        rw [hskipped hop]
        constructor
        · intro hsame
          exact ⟨rfl, max_eq_left_iff.mp hsame.ballotNum⟩
        · intro hle
          exact ⟨rfl, fun _ => Iff.rfl, max_eq_left hle.2⟩

end Recovery

/-- A prefix of the bytes is the lines it has the newlines of, and a beginning of the next one. -/
theorem encode_cut {file : List WalLine} {p : List Char} (hp : p <+: encode file) :
    ∃ part, p = encode (file.take (p.count '\n')) ++ part ∧
      (file[p.count '\n']? = none → part = []) ∧ ∀ l, file[p.count '\n']? = some l → part <+: l.text := by
  induction file generalizing p with
  | nil =>
    obtain rfl := List.prefix_nil.mp hp
    exact ⟨[], rfl, fun _ => rfl, fun l hl => nomatch hl⟩
  | cons l file ih =>
    rw [encode_cons] at hp
    by_cases hfirst : p <+: l.text
    · -- the cut is in the first line
      have hcount : p.count '\n' = 0 :=
        List.count_eq_zero.mpr fun hmem => newline_not_mem_text l (hfirst.subset hmem)
      rw [hcount]
      refine ⟨p, rfl, (fun hnone => by cases hnone), ?_⟩
      intro l' hl'
      cases hl'
      exact hfirst
    · obtain ⟨q, rfl⟩ : l.text <+: p :=
        (List.prefix_or_prefix_of_prefix hp (List.prefix_append _ _)).resolve_left hfirst
      cases q with
      | nil =>
        rw [List.append_nil] at hfirst
        exact absurd List.prefix_rfl hfirst
      | cons ch q =>
        obtain ⟨rfl, hq⟩ := List.cons_prefix_cons.mp ((List.prefix_append_right_inj _).mp hp)
        obtain ⟨part, hpart, hend, hnext⟩ := ih hq
        have hcount : (l.text ++ '\n' :: q).count '\n' = q.count '\n' + 1 := by
          rw [List.count_append, List.count_eq_zero.mpr (newline_not_mem_text l), List.count_cons_self, Nat.zero_add]
        rw [hcount]
        refine ⟨part, ?_, hend, hnext⟩
        rw [List.take_succ_cons, encode_cons, List.append_assoc, List.cons_append, ← hpart]

/-- The lines a sequence of calls writes to an empty file. -/
def written (calls : List WalCall) : List WalLine := (calls.foldl WAL.call WAL.empty).file

/-- The lines of the file that are complete in a prefix of its bytes. -/
def complete (calls : List WalCall) (p : List Char) : List WalLine := (written calls).take (p.count '\n')

/-- The line that is cut, if one is. -/
def torn (calls : List WalCall) (p : List Char) : Option WalLine := (written calls)[p.count '\n']?

theorem WalFile.encodes_run (calls : List WalCall) (hfits : ∀ c ∈ calls, c.Fits) :
    (calls.foldl call empty).Encodes (calls.foldl WAL.call WAL.empty) := by
  induction calls using List.reverseRecOn with
  | nil => exact encodes_empty
  | append_singleton calls c ih =>
    rw [List.foldl_append, List.foldl_append]
    exact (ih fun c' hc' => hfits c' (List.mem_append_left _ hc')).call
      (hfits c (List.mem_append_right _ List.mem_cons_self))

/-- **A write that was interrupted at any byte.**  What is recovered is that of the complete lines if and only if
the cut is before the first digit of the amount of the line, or the line has a keyword that `recover` skips and a
ballot number that is not above all others. -/
theorem WalFile.scanText_torn_iff (calls : List WalCall) (hfits : ∀ c ∈ calls, c.Fits) {p : List Char}
    (hp : p <+: (calls.foldl call empty).bytes) (b : Int) :
    (Recovery.scanText b p).SameAs (Recovery.scan b (complete calls p)) ↔
      ∀ l, torn calls p = some l →
        p.length ≤ (encode (complete calls p)).length + l.amountStart ∨
          l.op.recovered = false ∧ (l.ballotNum ≤ b ∨ ∃ l' ∈ complete calls p, l.ballotNum ≤ l'.ballotNum) := by
  have hrun := encodes_run calls hfits
  rw [hrun.bytes] at hp
  obtain ⟨part, hpart, hend, hnext⟩ := encode_cut hp
  have hcomplete : ∀ l ∈ complete calls p, l.Fits := fun l hl => hrun.fits l (List.mem_of_mem_take hl)
  have hencodes := Recovery.scanText_encode b hcomplete
  have hlength : p.length = (encode (complete calls p)).length + part.length := by
    nth_rewrite 1 [hpart]
    exact List.length_append
  cases htorn : torn calls p with
  | none =>
    -- the whole file
    have hwhole : p = encode (complete calls p) := by
      nth_rewrite 1 [hpart]
      rw [hend htorn, List.append_nil]
      rfl
    nth_rewrite 1 [hwhole]
    exact iff_of_true hencodes.sameAs fun l hl => nomatch hl
  | some l =>
    have hl : l.Fits := hrun.fits l (List.mem_of_getElem? htorn)
    have hbegins : part <+: l.text := hnext l htorn
    have hscan : Recovery.scanText b p = (Recovery.scanText b (encode (complete calls p))).readText
        (encode (complete calls p)).length part := by
      nth_rewrite 1 [hpart]
      exact Recovery.scanText_unlines_tail b (newline_not_mem_texts _)
        fun hmem => newline_not_mem_text l (hbegins.subset hmem)
    have htail := Recovery.sameAs_readText_torn hl hbegins (Recovery.scanText b (encode (complete calls p)))
      (encode (complete calls p)).length
    rw [← hscan, hencodes.ballotNum, Recovery.le_ballotNum_scan_iff] at htail
    have htrans : (Recovery.scanText b p).SameAs (Recovery.scan b (complete calls p)) ↔
        (Recovery.scanText b p).SameAs (Recovery.scanText b (encode (complete calls p))) :=
      ⟨fun h => h.trans hencodes.sameAs.symm, fun h => h.trans hencodes.sameAs⟩
    have hcut : part.length ≤ l.amountStart ↔ p.length ≤ (encode (complete calls p)).length + l.amountStart := by
      omega
    rw [htrans, htail, hcut]
    constructor
    · intro h l' hl'
      cases hl'
      exact h
    · exact fun h => h l rfl

/-- One transaction of amount 50 is prepared and the write stops after the first digit of the amount. -/
def onePrepare : List WalCall := [.prepare ⟨⟨1, 1001, 50⟩, 7⟩ ⟨1, 2⟩]

/-- The cut before that digit is harmless. -/
theorem WalFile.scanText_torn_iff_onePrepare :
    (Recovery.scanText 0 "CS_PREPARE 7 1 2 1 1001 ".toList).SameAs
      (Recovery.scan 0 (complete onePrepare "CS_PREPARE 7 1 2 1 1001 ".toList)) :=
  (scanText_torn_iff onePrepare (by decide) (by decide +kernel) 0).mpr (by decide +kernel)

/-- There is no complete line, and yet a transaction of amount 5 is recovered as pending. -/
theorem WalFile.torn_prepare_recovered :
    ¬ ∀ (calls : List WalCall), (∀ c ∈ calls, c.Fits) → ∀ p, p <+: (calls.foldl call empty).bytes → ∀ b,
      (Recovery.scanText b p).SameAs (Recovery.scan b (complete calls p)) := by
  intro h
  have hlog := (h onePrepare (by decide) "CS_PREPARE 7 1 2 1 1001 5".toList (by decide +kernel) 0).log
  have hread : (Recovery.scanText 0 "CS_PREPARE 7 1 2 1 1001 5".toList).log =
      [⟨7, 1, 2, ⟨1, 1001, 5⟩, .cross, .prepared⟩] := by decide +kernel
  rw [hread] at hlog
  exact absurd hlog (by decide +kernel)

/-! ## Appending to a torn tail -/

/-- The entry that is appended through a line. -/
structure WalLine.Writes (l : WalLine) (e : WALEntry) : Prop where
  fits : l.Fits
  entry : l.entry e.type e.status = e
  op : l.op = .keyed e.type e.status ∨ l.op = .inCommit ∧ e.type = .intra ∧ e.status = .committed

theorem WALEntry.writes_line {e : WALEntry} (h : e.line.Fits) : e.line.Writes e := ⟨h, rfl, .inl rfl⟩

theorem WalLine.Writes.fits_all {ms : List WalLine} {es : List WALEntry} (h : List.Forall₂ WalLine.Writes ms es) :
    ∀ m ∈ ms, m.Fits := by
  induction h with
  | nil => exact fun m hm => nomatch hm
  | cons hm _ ih =>
    intro m' hm'
    rcases List.mem_cons.mp hm' with rfl | hrest
    · exact hm.fits
    · exact ih m' hrest

/-- The line is recovered as that entry, or skipped if servers log no such entry. -/
theorem WalLine.Writes.recovered {l : WalLine} {e : WALEntry} (h : l.Writes e) :
    l.recovered = if e.logged then some e else none := by
  obtain ⟨-, hentry, hop⟩ := h
  rcases hop with hkeyed | ⟨hin, htype, hstatus⟩
  · rw [WalLine.recovered, hkeyed, ← hentry]
    rfl
  · rw [htype, hstatus] at hentry
    rw [WalLine.recovered, hin, ← hentry]
    rfl

namespace WalFile

/-- What a call appends to the file, if anything: the entry it returns or was passed; a decision is written under
the tid of the request. -/
def appended (f : WalFile) : WalCall → List WALEntry
  | .prepare request ballot => [(f.prepareTransaction request ballot).2]
  | .commit request ballot => [(f.commitTransaction request ballot).2]
  | .decide tid isCommit => if tid ∈ f.transferIndex then [{ (f.decision tid isCommit).2 with tid := tid }] else []
  | .insert entry => [entry]
  | .recover _ => []

/-- What a sequence of calls appends. -/
def appendedAll : WalFile → List WalCall → List WALEntry
  | _, [] => []
  | f, c :: calls => f.appended c ++ appendedAll (f.call c) calls

theorem type_getTransactionFromFile (f : WalFile) (position : Int) :
    (f.getTransactionFromFile position).type = .cross := by
  unfold getTransactionFromFile
  split
  · rfl
  · rfl

/-- The numbers of a decision are read from the file, so they fit whatever was there. -/
theorem fits_getTransactionFromFile (f : WalFile) (position : Int) {tid : Int} (htid : InRange 64 tid) (op : WalOp) :
    WalLine.Fits { op := op, tid := tid, ballotNum := (f.getTransactionFromFile position).ballotNum,
                   ballotServerId := (f.getTransactionFromFile position).ballotServerId,
                   txn := (f.getTransactionFromFile position).txn } := by
  unfold getTransactionFromFile
  cases hparse : parseLine (Lib.lineAt f.bytes position.toNat) with
  | none =>
    have hzeros : List.Forall₂ InRange [32, 32, 32, 32, 32] [0, 0, 0, 0, 0] := by decide
    exact .cons htid hzeros
  | some parsed =>
    obtain ⟨word, e⟩ := parsed
    unfold parseLine at hparse
    split at hparse
    · cases hparse
    · split at hparse
      · rename_i hread
        cases hparse
        obtain ⟨-, hrest⟩ := List.forall₂_cons.mp (inRange_readInts hread)
        exact .cons htid hrest
      · cases hparse

/-- Each call adds the lines of what it appends to the end of the file. -/
theorem bytes_call (f : WalFile) {c : WalCall} (hc : c.Fits) :
    ∃ ms, (f.call c).bytes = f.bytes ++ encode ms ∧ List.Forall₂ WalLine.Writes ms (f.appended c) := by
  cases c with
  | prepare request ballot => exact ⟨[_], rfl, .cons ⟨hc, rfl, .inl rfl⟩ .nil⟩
  | commit request ballot => exact ⟨[_], rfl, .cons ⟨hc, rfl, .inr ⟨rfl, rfl, rfl⟩⟩ .nil⟩
  | decide tid isCommit =>
    show ∃ ms, (f.decision tid isCommit).1.bytes = _ ∧
      List.Forall₂ _ ms (if tid ∈ f.transferIndex then [{ (f.decision tid isCommit).2 with tid := tid }] else [])
    cases hp : f.transferIndex[tid]? with
    | none =>
      have hnot : tid ∉ f.transferIndex := by rw [ExtTreeMap.mem_iff_isSome_getElem?, hp]; exact Bool.false_ne_true
      rw [decision_none hp, if_neg hnot]
      exact ⟨[], (List.append_nil _).symm, .nil⟩
    | some position =>
      have hmem : tid ∈ f.transferIndex := ExtTreeMap.mem_iff_isSome_getElem?.mpr (by rw [hp]; rfl)
      rw [if_pos hmem, f.decision_eq, WalFile.decideTransaction, hp]
      refine ⟨[_], rfl, .cons ⟨f.fits_getTransactionFromFile position hc _, rfl, .inl ?_⟩ .nil⟩
      exact congrArg (WalOp.keyed · _) (f.type_getTransactionFromFile position).symm
  | insert entry => exact ⟨[_], rfl, .cons (WALEntry.writes_line hc) .nil⟩
  | recover b => exact ⟨[], (List.append_nil _).symm, .nil⟩

theorem bytes_run (f : WalFile) (calls : List WalCall) (hfits : ∀ c ∈ calls, c.Fits) :
    ∃ ms, (calls.foldl call f).bytes = f.bytes ++ encode ms ∧
      List.Forall₂ WalLine.Writes ms (f.appendedAll calls) := by
  induction calls generalizing f with
  | nil => exact ⟨[], (List.append_nil _).symm, .nil⟩
  | cons c calls ih =>
    obtain ⟨ms, hbytes, hms⟩ := f.bytes_call (hfits c List.mem_cons_self)
    obtain ⟨ms', hbytes', hms'⟩ := ih (f.call c) fun c' hc' => hfits c' (List.mem_cons_of_mem c hc')
    refine ⟨ms ++ ms', ?_, List.rel_append hms hms'⟩
    rw [List.foldl_cons, hbytes', hbytes, encode_append, List.append_assoc]

/-! ### In the running process -/

/-- What the map has is in the file, at the offset in the index. -/
def Holds (f : WalFile) (m : PendingMap) : Prop :=
  ∀ t p, m t = some p → ∃ (before : List Char) (l : WalLine) (after : List Char), f.bytes = before ++ l.text ++ '\n' :: after ∧
    f.transferIndex[t]? = some (before.length : Int) ∧ l.Fits ∧ l.entry .cross .prepared = PendingMap.entry t p

/-- One line more, and an index that keeps a tid of the map where it was or puts it at that line. -/
theorem Holds.put {f : WalFile} {m m' : PendingMap} (h : f.Holds m) {l : WalLine} (hl : l.Fits) {index : TidMap Int}
    (hindex : ∀ t p, m' t = some p →
      m t = some p ∧ index[t]? = f.transferIndex[t]? ∨
        index[t]? = some f.tellp ∧ l.entry .cross .prepared = PendingMap.entry t p) : (f.put l index).Holds m' := by
  intro t p ht
  have hbytes : (f.put l index).bytes = f.bytes ++ l.text ++ '\n' :: [] := by
    rw [WalFile.put, encode_cons, List.append_assoc]
    rfl
  rcases hindex t p ht with ⟨hold, hsame⟩ | ⟨hnew, hentry⟩
  · obtain ⟨before, l', after, hfile, hpos, hfits, hentry⟩ := h t p hold
    refine ⟨before, l', after ++ l.text ++ '\n' :: [], ?_, hsame.trans hpos, hfits, hentry⟩
    rw [hbytes, hfile]
    simp only [List.append_assoc, List.cons_append]
  · exact ⟨f.bytes, l, [], hbytes, hnew, hl, hentry⟩

/-- The tid of the line, and all others. -/
theorem Holds.put_insert {f : WalFile} {m : PendingMap} (h : f.Holds m) {l : WalLine} (hl : l.Fits)
    {p : Ballot × Transaction} (hentry : l.entry .cross .prepared = PendingMap.entry l.tid p) :
    (f.put l (f.transferIndex.insert l.tid f.tellp)).Holds (Function.update m l.tid (some p)) := by
  refine h.put hl ?_
  intro t q ht
  rw [WAL.getElem?_insert_tid]
  by_cases heq : t = l.tid
  · rw [heq, Function.update_self] at ht
    cases ht
    rw [if_pos heq, heq]
    exact .inr ⟨rfl, hentry⟩
  · rw [Function.update_of_ne heq] at ht
    rw [if_neg heq]
    exact .inl ⟨ht, rfl⟩

theorem Holds.put_erase {f : WalFile} {m : PendingMap} (h : f.Holds m) {l : WalLine} (hl : l.Fits) (tid : Int) :
    (f.put l (f.transferIndex.erase tid)).Holds (Function.update m tid none) := by
  refine h.put hl ?_
  intro t q ht
  rw [WAL.getElem?_erase_tid]
  by_cases heq : t = tid
  · rw [heq, Function.update_self] at ht
    cases ht
  · rw [Function.update_of_ne heq] at ht
    rw [if_neg heq]
    exact .inl ⟨ht, rfl⟩

end WalFile

/-- Every operation but `recover`. -/
def WalCall.appends : WalCall → Bool
  | .recover _ => false
  | _ => true

namespace WalFile

theorem Holds.call {f : WalFile} {m : PendingMap} (h : f.Holds m) {c : WalCall} (hc : c.Fits)
    (happends : c.appends = true) : (f.call c).Holds (m.call c) := by
  cases c with
  | prepare request ballot => exact h.put_insert (l := (WAL.preparedEntry request ballot).line) hc rfl
  | commit request ballot =>
    refine h.put ?_ fun t p ht => .inl ⟨ht, rfl⟩
    exact hc
  | decide tid isCommit =>
    show (f.decision tid isCommit).1.Holds (Function.update m tid none)
    cases hp : f.transferIndex[tid]? with
    | none =>
      rw [decision_none hp]
      intro t p ht
      by_cases heq : t = tid
      · rw [heq, Function.update_self] at ht
        cases ht
      · rw [Function.update_of_ne heq] at ht
        exact h t p ht
    | some position =>
      rw [f.decision_eq, WalFile.decideTransaction, hp]
      exact h.put_erase (f.fits_getTransactionFromFile position hc _) tid
  | insert entry =>
    obtain ⟨tid, ballotNum, ballotServerId, txn, type, status⟩ := entry
    cases status with
    | noStatus => exact h.put hc fun t p ht => .inl ⟨ht, rfl⟩
    | prepared =>
      exact h.put_insert (l := ⟨.keyed type .prepared, tid, ballotNum, ballotServerId, txn⟩) hc rfl
    | committed => exact h.put_erase hc tid
    | aborted => exact h.put_erase hc tid
  | recover b => cases happends

theorem Holds.run {f : WalFile} {m : PendingMap} (h : f.Holds m) (calls : List WalCall)
    (hfits : ∀ c ∈ calls, c.Fits) (happends : ∀ c ∈ calls, c.appends = true) :
    (calls.foldl WalFile.call f).Holds (calls.foldl PendingMap.call m) := by
  induction calls generalizing f m with
  | nil => exact h
  | cons c calls ih =>
    exact ih (h.call (hfits c List.mem_cons_self) (happends c List.mem_cons_self))
      (fun c' hc' => hfits c' (List.mem_cons_of_mem c hc')) fun c' hc' => happends c' (List.mem_cons_of_mem c hc')

theorem Holds.decided {f : WalFile} {m : PendingMap} (h : f.Holds m) {t : Int} {p : Ballot × Transaction}
    (ht : m t = some p) (isCommit : Bool) :
    (f.decision t isCommit).2 = { PendingMap.entry t p with status := Ledger.decisionStatus isCommit } := by
  obtain ⟨before, l, after, hfile, hpos, hfits, hentry⟩ := h t p ht
  have hread : f.getTransactionFromFile before.length = PendingMap.entry t p := by
    rw [getTransactionFromFile, hfile, Int.toNat_natCast, lineAt_offset before (newline_not_mem_text l),
      parseLine_text hfits, ← hentry]
    rfl
  rw [f.decision_eq, WalFile.decideTransaction, hpos, ← hread]

end WalFile

/-! ### At the next restart -/

/-- The third character of a keyword is an underscore. -/
theorem WalOp.text_split (op : WalOp) : ∃ x y rest, op.text = x :: y :: '_' :: rest := by
  cases op with
  | inCommit => exact ⟨_, _, _, rfl⟩
  | keyed type status =>
    cases type with
    | intra => exact ⟨_, _, _, rfl⟩
    | cross => exact ⟨_, _, _, rfl⟩

/-- A keyword behind something else is no keyword. -/
theorem isRecovered_fused {part : List Char} (hne : part ≠ []) (op : WalOp) :
    isRecovered (part ++ op.text) = false := by
  have hlast : ∀ word, isRecovered word = true → '_' ∉ word.drop 3 := by
    intro word hword
    have hall : ∀ word ∈ ["IN_COMMIT".toList, "IS_COMMIT".toList, "CS_PREPARE".toList, "CS_COMMIT".toList,
        "CS_ABORT".toList], '_' ∉ word.drop 3 := by decide
    exact hall word (of_decide_eq_true hword)
  -- behind another character the underscore of a keyword is no longer the third one
  by_contra hrec
  refine hlast _ (Bool.eq_true_of_not_eq_false hrec) ?_
  obtain ⟨ch, part, rfl⟩ := List.exists_cons_of_ne_nil hne
  obtain ⟨x, y, rest, htext⟩ := op.text_split
  have hsplit : ch :: part ++ op.text = (ch :: part ++ [x, y]) ++ '_' :: rest := by
    rw [htext, List.append_assoc]
    rfl
  rw [hsplit, List.drop_append_of_le_length (by simp)]
  exact List.mem_append_right _ List.mem_cons_self

/-- **The fused line**: with another line behind it, a torn line adds to the log what it adds alone. -/
theorem Recovery.length_log_fused {l : WalLine} (hl : l.Fits) {part : List Char} (hpart : part <+: l.text)
    (hne : part ≠ []) {m : WalLine} (hm : m.Fits) {r r' : Recovery} (hlog : r.log = r'.log) (p q : ℕ) :
    (r.readText p (part ++ m.text)).log.length = (r'.readText q part).log.length := by
  by_cases hshort : part.length ≤ l.op.text.length
  · have hbegins : part <+: l.op.text := List.prefix_of_prefix_length_le hpart (List.prefix_append _ _) hshort
    -- the two keywords are read as one word, which is none of the five
    have hword : ∀ ch ∈ part ++ m.op.text, isSpace ch = false := by
      intro ch hch
      rcases List.mem_append.mp hch with hold | hnew
      · exact isSpace_text l.op ch (hbegins.subset hold)
      · exact isSpace_text m.op ch hnew
    have hparse := parseLine_fields (List.append_ne_nil_of_left_ne_nil hne m.op.text) hword hm
    rw [List.append_assoc, ← WalLine.text] at hparse
    rw [readText_none (parseLine_keyword_cut hbegins), (readText_some hparse r p).1, isRecovered_fused hne m.op, hlog]
    rfl
  · -- the numbers end at the next keyword as they end at the end of the file
    obtain ⟨hnone, hsome⟩ := parseLine_cut hl hpart (by omega) (blocked_text m)
    obtain ⟨hnone', hsome'⟩ := parseLine_cut hl hpart (by omega) blocked_nil
    rw [List.append_nil] at hnone' hsome'
    by_cases hcut : part.length ≤ l.amountStart
    · rw [readText_none (hnone hcut), readText_none (hnone' hcut), hlog]
    · obtain ⟨amount, hparse⟩ := hsome (by omega)
      obtain ⟨amount', hparse'⟩ := hsome' (by omega)
      rw [(readText_some hparse r p).1, (readText_some hparse' r' q).1, hlog]

/-- Each line is at most one entry. -/
theorem Recovery.length_log_scanText_le (b : Int) {xs : List (List Char)} (hxs : ∀ x ∈ xs, '\n' ∉ x)
    (file : List WalLine) (hfits : ∀ l ∈ file, l.Fits) :
    (scanText b (unlines xs ++ encode file)).log.length ≤ (scanText b (unlines xs)).log.length + file.length := by
  induction file generalizing xs with
  | nil =>
    rw [show encode [] = [] from rfl, List.append_nil]
    exact le_rfl
  | cons l file ih =>
    have hall : ∀ x ∈ xs ++ [l.text], '\n' ∉ x := by
      intro x hx
      rcases List.mem_append.mp hx with hold | hnew
      · exact hxs x hold
      · rw [List.mem_singleton.mp hnew]
        exact newline_not_mem_text l
    have hbytes : unlines xs ++ encode (l :: file) = unlines (xs ++ [l.text]) ++ encode file := by
      rw [unlines_append, List.append_assoc]
      congr 1
      rw [encode_cons, unlines_cons, List.append_assoc]
      rfl
    have hrest := ih hall fun l' hl' => hfits l' (List.mem_cons_of_mem l hl')
    have hone := (readText_some (parseLine_text (hfits l List.mem_cons_self)) (scanText b (unlines xs))
      (unlines xs).length).1
    rw [← scanText_unlines_append b hxs (newline_not_mem_text l)] at hone
    have hbit := Bool.toNat_le (isRecovered l.op.text)
    rw [hbytes, List.length_cons]
    omega

/-- The lines that were appended, one after the other. -/
theorem Recovery.log_scan_writes (b b' : Int) {ms : List WalLine} {es : List WALEntry}
    (h : List.Forall₂ WalLine.Writes ms es) (file : List WalLine) :
    (scan b (file ++ ms)).log = (scan b' file).log ++ es.filter WALEntry.logged := by
  rw [log_scan, log_scan, List.filterMap_append]
  congr 1
  induction h with
  | nil => rfl
  | @cons m e ms es hm _ ih =>
    rw [List.filterMap_cons, hm.recovered, List.filter_cons, ← ih]
    by_cases hlogged : e.logged = true
    · rw [if_pos hlogged, if_pos hlogged]
    · rw [if_neg hlogged, if_neg hlogged]

theorem Recovery.log_readText {r r' : Recovery} (h : r.log = r'.log) (position : ℕ) (line : List Char) :
    (r.readText position line).log = (r'.readText position line).log := by
  unfold readText
  split
  · exact h
  · split
    · exact h
    · dsimp only
      split_ifs
      · simp only [push, h]
      · simp only [push, h]
      · simp only [push, h]
      · simp only [push, h]
      · exact h

/-- The log does not depend on the ballot number the scan starts from. -/
theorem Recovery.log_scanText (b b' : Int) (bytes : List Char) : (scanText b bytes).log = (scanText b' bytes).log := by
  have hloop : ∀ (lines : List (ℕ × List Char)) {r r' : Recovery}, r.log = r'.log →
      (lines.foldl (fun r p => r.readText p.1 p.2) r).log = (lines.foldl (fun r p => r.readText p.1 p.2) r').log := by
    intro lines
    induction lines with
    | nil => exact id
    | cons p lines ih => exact fun h => ih (log_readText h p.1 p.2)
  exact hloop (linesOf bytes) rfl

namespace WalFile

/-- A new process on the bytes that are there. -/
def restart (bytes : List Char) (b : Int) : WalFile × Recovery := recover ⟨bytes, ∅⟩ b

/-- What is owed to the entries appended after a restart: the next scan finds them behind what the restart found,
and until then a transaction that was prepared is decided with its own values. -/
structure Kept (bytes : List Char) (b b' : Int) (calls : List WalCall) : Prop where
  recovered : ((calls.foldl call (restart bytes b).1).recover b').2.log =
    (restart bytes b).2.log ++ (restart bytes b).1.appendedAll calls
  decided : ∀ t p isCommit, calls.foldl PendingMap.call .empty t = some p →
    ((calls.foldl call (restart bytes b).1).decision t isCommit).2 =
      { PendingMap.entry t p with status := Ledger.decisionStatus isCommit }

/-- With a tail that is not empty, one entry is missing. -/
theorem length_log_torn (file : List WalLine) {l : WalLine} (hl : l.Fits) {part : List Char} (hpart : part <+: l.text)
    (hne : part ≠ []) {m : WalLine} (hm : m.Fits) {ms : List WalLine} (hms : ∀ m' ∈ ms, m'.Fits) (b b' : Int) :
    (Recovery.scanText b' (encode file ++ part ++ encode (m :: ms))).log.length ≤
      (Recovery.scanText b (encode file ++ part)).log.length + ms.length := by
  have hnewline : '\n' ∉ part := fun hmem => newline_not_mem_text l (hpart.subset hmem)
  have hfused : '\n' ∉ part ++ m.text := by
    intro hmem
    rcases List.mem_append.mp hmem with hold | hnew
    · exact hnewline hold
    · exact newline_not_mem_text m hnew
  have hlines : ∀ x ∈ file.map WalLine.text ++ [part ++ m.text], '\n' ∉ x := by
    intro x hx
    rcases List.mem_append.mp hx with hold | hnew
    · exact newline_not_mem_texts file x hold
    · rw [List.mem_singleton.mp hnew]
      exact hfused
  have hbytes : encode file ++ part ++ encode (m :: ms) =
      unlines (file.map WalLine.text ++ [part ++ m.text]) ++ encode ms := by
    rw [encode_cons, unlines_append, unlines_cons]
    simp only [encode, unlines, List.append_assoc, List.cons_append, List.nil_append, List.flatMap_nil]
  have hrest := Recovery.length_log_scanText_le b' hlines ms hms
  have hone : (Recovery.scanText b' (unlines (file.map WalLine.text ++ [part ++ m.text]))).log.length =
      (Recovery.scanText b (encode file ++ part)).log.length := by
    rw [Recovery.scanText_unlines_append b' (newline_not_mem_texts file) hfused, encode,
      Recovery.scanText_unlines_tail b (newline_not_mem_texts file) hnewline]
    exact Recovery.length_log_fused hl hpart hne hm (Recovery.log_scanText b' b _) _ _
  rw [hbytes]
  omega

/-- **Appending after a restart on a torn tail.**  The entries are kept if and only if nothing is appended, or the
tail is empty and servers log such entries. -/
theorem append_torn_iff {file : List WalLine} (hfile : ∀ l ∈ file, l.Fits) {l : WalLine} (hl : l.Fits)
    {part : List Char} (hpart : part <+: l.text) (b b' : Int) (calls : List WalCall) (hfits : ∀ c ∈ calls, c.Fits)
    (happends : ∀ c ∈ calls, c.appends = true) :
    Kept (encode file ++ part) b b' calls ↔
      (restart (encode file ++ part) b).1.appendedAll calls = [] ∨
        part = [] ∧ ∀ e ∈ (restart (encode file ++ part) b).1.appendedAll calls, e.logged = true := by
  obtain ⟨ms, hbytes, hms⟩ := bytes_run (restart (encode file ++ part) b).1 calls hfits
  have hnothing : Holds (restart (encode file ++ part) b).1 .empty := fun t p ht => nomatch ht
  have hdecided := fun t p isCommit ht => (hnothing.run calls hfits happends).decided (t := t) (p := p) ht isCommit
  have hkept : Kept (encode file ++ part) b b' calls ↔
      (Recovery.scanText b' (encode file ++ part ++ encode ms)).log =
        (Recovery.scanText b (encode file ++ part)).log ++ (restart (encode file ++ part) b).1.appendedAll calls := by
    have hlog : ((calls.foldl call (restart (encode file ++ part) b).1).recover b').2.log =
        (Recovery.scanText b' (encode file ++ part ++ encode ms)).log := by
      rw [recover, hbytes]
      rfl
    rw [← hlog]
    exact ⟨fun h => h.recovered, fun h => ⟨h, hdecided⟩⟩
  rw [hkept]
  generalize (restart (encode file ++ part) b).1.appendedAll calls = es at hms ⊢
  cases hms with
  | nil =>
    rw [show encode [] = [] from rfl, List.append_nil, List.append_nil]
    exact iff_of_true (Recovery.log_scanText b' b _) (.inl rfl)
  | @cons m e ms es hm hms =>
    rw [or_iff_right (List.cons_ne_nil e es)]
    by_cases hne : part = []
    · have hall : ∀ l' ∈ file ++ m :: ms, l'.Fits := by
        intro l' hl'
        rcases List.mem_append.mp hl' with hold | hnew
        · exact hfile l' hold
        · exact WalLine.Writes.fits_all (.cons hm hms) l' hnew
      subst hne
      rw [List.append_nil, ← encode_append, (Recovery.scanText_encode b' hall).log,
        (Recovery.scanText_encode b hfile).log, Recovery.log_scan_writes b' b (.cons hm hms),
        List.append_cancel_left_eq, List.filter_eq_self]
      exact (and_iff_right rfl).symm
    · refine iff_of_false ?_ fun h => hne h.1
      intro hlog
      have hlost := length_log_torn file hl hpart hne hm.fits (WalLine.Writes.fits_all hms) b b'
      rw [hlog, List.length_append, List.length_cons, ← hms.length_eq] at hlost
      omega

/-- A decision of another server is synced, and a transaction is prepared. -/
def twoAppends : List WalCall :=
  [.insert ⟨7, 1, 2, ⟨1, 1001, 50⟩, .cross, .committed⟩, .prepare ⟨⟨2, 2001, 4⟩, 9⟩ ⟨2, 1⟩]

/-- On a file that ends with a newline both are kept. -/
theorem append_torn_iff_twoAppends :
    Kept (encode (written onePrepare) ++ []) 0 0 twoAppends :=
  (append_torn_iff (l := WALEntry.sentinel.line) (by decide) (by decide) (List.nil_prefix) 0 0 twoAppends (by decide)
    (by decide)).mpr (by decide +kernel)

/-- On a file that ends in the middle of a line, the first is in no log that a later scan returns. -/
theorem append_torn_lost :
    ¬ ∀ (file : List WalLine) (l : WalLine) (part : List Char) (b b' : Int) (calls : List WalCall),
      (∀ l' ∈ file, l'.Fits) → l.Fits → part <+: l.text → (∀ c ∈ calls, c.Fits) → (∀ c ∈ calls, c.appends = true) →
      ((restart (encode file ++ part) b).1.appendedAll calls).Sublist
        ((calls.foldl call (restart (encode file ++ part) b).1).recover b').2.log := by
  intro h
  have hsub := h [] ⟨.keyed .cross .prepared, 7, 1, 2, ⟨1, 1001, 50⟩⟩ "CS_PREPARE 7 1 2".toList 0 0 twoAppends (by decide)
    (by decide) (by decide +kernel) (by decide) (by decide)
  exact absurd hsub (by decide +kernel)

end WalFile

end MultiPaxosDB
