/-
# MultiPaxosDB.Lib.Decimal — integers as streams write and read them.

`showInt` is what `os << z` writes and `readInt w` what `is >> z` reads into a signed integer of `w` bits:
blanks are skipped, an optional sign and then digits are taken up to the first character that is neither,
which stays in the stream.  No digit, or a value out of range, is a failure, and after a failure nothing
more is read.  `readWord` is `is >> word`, `readWords` the loop over it, `readInts` a chain of integer reads, and
`fieldsText` the text of a list of integers with a blank before each.

What was written is read back (`readInts_fieldsText`).  The other half is what a text that was cut short
reads as (`readInts_cut`): the chain succeeds exactly when the cut leaves a digit of the last integer, and
then delivers all the others.
-/
import Mathlib.Algebra.Order.Ring.Int
import Mathlib.Data.List.Forall2
import Mathlib.Tactic.Common

namespace MultiPaxosDB.Lib

/-! ## Writing -/

/-- The sign that is written before the digits. -/
def showSign (z : Int) : List Char := if z < 0 then ['-'] else []

/-- `os << z`. -/
def showInt (z : Int) : List Char := showSign z ++ Nat.toDigits 10 z.natAbs

/-- The integers, each after a blank. -/
def fieldsText (zs : List Int) : List Char := zs.flatMap fun z => ' ' :: showInt z

/-! ## Reading -/

/-- `isspace` in the "C" locale: the blank and the five control characters from tab to return. -/
def isSpace (ch : Char) : Bool := ch == ' ' || (decide (9 ≤ ch.toNat) && decide (ch.toNat ≤ 13))

/-- A signed integer of `w` bits. -/
def InRange (w : ℕ) (z : Int) : Prop := -(2 ^ (w - 1)) ≤ z ∧ z < 2 ^ (w - 1)

instance (w : ℕ) (z : Int) : Decidable (InRange w z) := inferInstanceAs (Decidable (_ ∧ _))

/-- An optional sign; `true` for minus. -/
def readSign : List Char → Bool × List Char
  | '-' :: s => (true, s)
  | '+' :: s => (false, s)
  | s => (false, s)

/-- The value of a sign and digits. -/
def signedValue (negative : Bool) (digits : List Char) : Int :=
  if negative then -(Nat.ofDigitChars 10 digits 0 : Int) else Nat.ofDigitChars 10 digits 0

/-- `is >> z` for a `z` of `w` bits. -/
def readInt (w : ℕ) (s : List Char) : Option (Int × List Char) :=
  let signed := readSign (s.dropWhile isSpace)
  let digits := signed.2.takeWhile Char.isDigit
  let z := signedValue signed.1 digits
  if digits ≠ [] ∧ InRange w z then some (z, signed.2.dropWhile Char.isDigit) else none

/-- A chain of reads, `is >> z₁ >> z₂ >> …`. -/
def readInts : List ℕ → List Char → Option (List Int × List Char)
  | [], s => some ([], s)
  | w :: ws, s => (readInt w s).bind fun p => (readInts ws p.2).map fun q => (p.1 :: q.1, q.2)

/-- `is >> word`. -/
def readWord (s : List Char) : Option (List Char × List Char) :=
  let s := s.dropWhile isSpace
  let word := s.takeWhile fun ch => !isSpace ch
  if word ≠ [] then some (word, s.dropWhile fun ch => !isSpace ch) else none

/-- The loop `while (is >> word)`; every turn of it that reads a word takes at least one character. -/
def readWordsFrom : ℕ → List Char → List (List Char)
  | 0, _ => []
  | turns + 1, s =>
    match readWord s with
    | some (word, rest) => word :: readWordsFrom turns rest
    | none => []

/-- The words of a text. -/
def readWords (s : List Char) : List (List Char) := readWordsFrom s.length s

/-! ## Words -/

theorem readWord_word {word s : List Char} (hne : word ≠ []) (hword : ∀ ch ∈ word, isSpace ch = false)
    (hs : ∀ ch ∈ s.head?, isSpace ch = true) : readWord (word ++ s) = some (word, s) := by
  have hskip : (word ++ s).dropWhile isSpace = word ++ s := by
    obtain ⟨ch, word, rfl⟩ := List.exists_cons_of_ne_nil hne
    exact List.dropWhile_cons_of_neg (by simp [hword ch List.mem_cons_self])
  have hinside : ∀ ch ∈ word, (!isSpace ch) = true := fun ch hch => by rw [hword ch hch]; rfl
  have hspan : (word ++ s).takeWhile (fun ch => !isSpace ch) = word ∧
      (word ++ s).dropWhile (fun ch => !isSpace ch) = s := by
    rw [List.takeWhile_append_of_pos hinside, List.dropWhile_append_of_pos hinside]
    cases s with
    | nil => exact ⟨List.append_nil word, rfl⟩
    | cons ch s =>
      rw [List.takeWhile_cons, List.dropWhile_cons, hs ch rfl]
      exact ⟨List.append_nil word, rfl⟩
  unfold readWord
  simp only [hskip, hspan.1, hspan.2, ne_eq, hne, not_false_eq_true, if_true]

/-- A blank before a word is skipped. -/
theorem readWord_blank (s : List Char) : readWord (' ' :: s) = readWord s := by
  have hskip : (' ' :: s).dropWhile isSpace = s.dropWhile isSpace := List.dropWhile_cons_of_pos (by decide)
  unfold readWord
  rw [hskip]

theorem length_of_readWord {s word rest : List Char} (h : readWord s = some (word, rest)) : rest.length < s.length := by
  unfold readWord at h
  dsimp only at h
  split at h
  · rename_i hne
    cases h
    have hlen := congrArg List.length (List.takeWhile_append_dropWhile (p := fun ch => !isSpace ch) (l := s.dropWhile isSpace))
    have hskip := (List.dropWhile_suffix isSpace (l := s)).length_le
    have hword := List.length_pos_of_ne_nil hne
    rw [List.length_append] at hlen
    omega
  · cases h

theorem readWordsFrom_nil (turns : ℕ) : readWordsFrom turns [] = [] := by
  cases turns <;> rfl

/-- As many turns as there are characters are enough. -/
theorem readWordsFrom_congr {turns turns' : ℕ} {s : List Char} (h : s.length ≤ turns) (h' : s.length ≤ turns') :
    readWordsFrom turns s = readWordsFrom turns' s := by
  induction turns generalizing turns' s with
  | zero =>
    obtain rfl := List.length_eq_zero_iff.mp (Nat.le_zero.mp h)
    rw [readWordsFrom_nil, readWordsFrom_nil]
  | succ turns ih =>
    cases turns' with
    | zero =>
      obtain rfl := List.length_eq_zero_iff.mp (Nat.le_zero.mp h')
      rw [readWordsFrom_nil, readWordsFrom_nil]
    | succ turns' =>
      rw [readWordsFrom, readWordsFrom]
      cases hread : readWord s with
      | none => rfl
      | some p =>
        have hrest := length_of_readWord hread
        exact congrArg (p.1 :: ·) (ih (by omega) (by omega))

/-- The words of a text are its first word and those of the rest. -/
theorem readWords_of_readWord {s word rest : List Char} (h : readWord s = some (word, rest)) :
    readWords s = word :: readWords rest := by
  have hrest := length_of_readWord h
  have hturn : readWordsFrom s.length s = readWordsFrom (s.length - 1 + 1) s := by
    rw [Nat.sub_add_cancel (by omega)]
  rw [readWords, hturn, readWordsFrom, h]
  exact congrArg (word :: ·) (readWordsFrom_congr (by omega) le_rfl)

/-! ## One integer -/

/-- What follows an integer so that reading it stops there. -/
def StopsDigits (s : List Char) : Prop := ∀ ch ∈ s.head?, ch.isDigit = false

/-- What no integer can be read from. -/
def Blocked (s : List Char) : Prop :=
  ∀ ch ∈ s.head?, isSpace ch = false ∧ ch.isDigit = false ∧ ch ≠ '-' ∧ ch ≠ '+'

theorem Blocked.stopsDigits {s : List Char} (h : Blocked s) : StopsDigits s := fun ch hch => (h ch hch).2.1

theorem blocked_nil : Blocked [] := fun _ h => nomatch h

theorem isSpace_of_isDigit {ch : Char} (h : ch.isDigit = true) : isSpace ch = false := by
  simp only [Char.isDigit, Bool.and_eq_true, decide_eq_true_eq] at h
  have hlow : 48 ≤ ch.toNat := h.1
  have hne : ch ≠ ' ' := by
    rintro rfl
    exact absurd hlow (by decide)
  simp only [isSpace, Bool.or_eq_false_iff, Bool.and_eq_false_imp, decide_eq_true_eq, decide_eq_false_iff_not,
    beq_eq_false_iff_ne]
  exact ⟨hne, fun _ => by omega⟩

theorem ne_sign_of_isDigit {ch : Char} (h : ch.isDigit = true) : ch ≠ '-' ∧ ch ≠ '+' := by
  constructor
  · rintro rfl
    exact absurd h (by decide)
  · rintro rfl
    exact absurd h (by decide)

theorem isDigit_of_mem_digits {n : ℕ} {ch : Char} (h : ch ∈ Nat.toDigits 10 n) : ch.isDigit = true :=
  Nat.isDigit_of_mem_toDigits (by decide) (by decide) h

/-- An integer is written with digits and the minus sign. -/
theorem ne_of_mem_showInt {ch c : Char} {z : Int} (h : ch ∈ showInt z) (hdigit : c.isDigit = false) (hminus : c ≠ '-') :
    ch ≠ c := by
  rintro rfl
  rcases List.mem_append.mp h with hsign | hdigits
  · unfold showSign at hsign
    split at hsign
    · exact hminus (List.mem_singleton.mp hsign)
    · cases hsign
  · rw [isDigit_of_mem_digits hdigits] at hdigit
    cases hdigit

/-- Digits are taken up to what stops them. -/
theorem span_digits {ds s : List Char} (hds : ∀ ch ∈ ds, ch.isDigit = true) (hs : StopsDigits s) :
    (ds ++ s).takeWhile Char.isDigit = ds ∧ (ds ++ s).dropWhile Char.isDigit = s := by
  rw [List.takeWhile_append_of_pos hds, List.dropWhile_append_of_pos hds]
  cases s with
  | nil => exact ⟨List.append_nil ds, rfl⟩
  | cons ch s =>
    have hstop := hs ch rfl
    rw [List.takeWhile_cons, List.dropWhile_cons, hstop]
    exact ⟨List.append_nil ds, rfl⟩

/-- A blank before an integer is skipped. -/
theorem readInt_blank (w : ℕ) (s : List Char) : readInt w (' ' :: s) = readInt w s := by
  have hskip : (' ' :: s).dropWhile isSpace = s.dropWhile isSpace := List.dropWhile_cons_of_pos (by decide)
  unfold readInt
  rw [hskip]

/-- The sign that was written is the one that is read. -/
theorem readSign_showSign (z : Int) {ds : List Char} (s : List Char) (hne : ds ≠ [])
    (hds : ∀ ch ∈ ds, ch.isDigit = true) :
    readSign ((showSign z ++ ds ++ s).dropWhile isSpace) = (decide (z < 0), ds ++ s) := by
  by_cases hz : z < 0
  · have hshow : showSign z ++ ds ++ s = '-' :: (ds ++ s) := by rw [showSign, if_pos hz]; rfl
    rw [hshow, List.dropWhile_cons_of_neg (by decide), decide_eq_true hz]
    rfl
  · obtain ⟨d, ds, rfl⟩ := List.exists_cons_of_ne_nil hne
    have hd := hds d List.mem_cons_self
    have hshow : showSign z ++ (d :: ds) ++ s = d :: (ds ++ s) := by rw [showSign, if_neg hz]; rfl
    rw [hshow, List.dropWhile_cons_of_neg (by simp [isSpace_of_isDigit hd]), decide_eq_false hz]
    unfold readSign
    split
    · rename_i heq
      exact absurd (List.cons.inj heq).1 (ne_sign_of_isDigit hd).1
    · rename_i heq
      exact absurd (List.cons.inj heq).1 (ne_sign_of_isDigit hd).2
    · rfl

/-- What `readInt` makes of a sign, some digits and what stops them. -/
theorem readInt_signed (w : ℕ) (z : Int) {ds s : List Char} (hne : ds ≠ [])
    (hds : ∀ ch ∈ ds, ch.isDigit = true) (hs : StopsDigits s) :
    readInt w (showSign z ++ ds ++ s) =
      if InRange w (signedValue (decide (z < 0)) ds) then some (signedValue (decide (z < 0)) ds, s)
      else none := by
  have hsign := readSign_showSign z s hne hds
  obtain ⟨htake, hdrop⟩ := span_digits hds hs
  unfold readInt
  simp only [hsign, htake, hdrop, hne, ne_eq, not_false_eq_true, true_and]

theorem signedValue_digits (z : Int) : signedValue (decide (z < 0)) (Nat.toDigits 10 z.natAbs) = z := by
  rw [signedValue, Nat.ofDigitChars_ten_toDigits]
  by_cases hz : z < 0
  · rw [decide_eq_true hz, if_pos rfl]
    omega
  · rw [decide_eq_false hz, if_neg Bool.false_ne_true]
    omega

/-- What was written is read if it fits. -/
theorem readInt_showInt_eq (w : ℕ) (z : Int) {s : List Char} (hs : StopsDigits s) :
    readInt w (showInt z ++ s) = if InRange w z then some (z, s) else none := by
  rw [showInt, readInt_signed w z Nat.toDigits_ne_nil (fun _ => isDigit_of_mem_digits) hs, signedValue_digits]

/-- **What was written is read back.** -/
theorem readInt_showInt {w : ℕ} {z : Int} (hz : InRange w z) {s : List Char} (hs : StopsDigits s) :
    readInt w (showInt z ++ s) = some (z, s) := by
  rw [readInt_showInt_eq w z hs, if_pos hz]

/-- Different numbers are written differently. -/
theorem showInt_injective {z z' : Int} (h : showInt z = showInt z') : z = z' := by
  -- wide enough for both
  have hfits : ∀ x : Int, x.natAbs ≤ z.natAbs + z'.natAbs → InRange (z.natAbs + z'.natAbs + 2) x := by
    intro x hx
    have hlt : z.natAbs + z'.natAbs + 1 < 2 ^ (z.natAbs + z'.natAbs + 1) := Nat.lt_two_pow_self
    have hlt' : ((z.natAbs + z'.natAbs + 1 : ℕ) : Int) < 2 ^ (z.natAbs + z'.natAbs + 1) := by exact_mod_cast hlt
    constructor
    · show -(2 ^ (z.natAbs + z'.natAbs + 1)) ≤ x
      omega
    · show x < 2 ^ (z.natAbs + z'.natAbs + 1)
      omega
  have hread := readInt_showInt (hfits z (by omega)) blocked_nil.stopsDigits
  have hread' := readInt_showInt (hfits z' (by omega)) blocked_nil.stopsDigits
  rw [h, hread', Option.some.injEq, Prod.mk.injEq] at hread
  exact hread.1.symm

/-- Leading digits of a number make a number that is not larger. -/
theorem ofDigitChars_le_append (ds ds' : List Char) :
    Nat.ofDigitChars 10 ds 0 ≤ Nat.ofDigitChars 10 (ds ++ ds') 0 := by
  rw [Nat.ofDigitChars_append, Nat.ofDigitChars_eq_ofDigitChars_zero (l := ds')]
  have hpow : 1 ≤ 10 ^ ds'.length := Nat.one_le_pow _ _ (by decide)
  calc Nat.ofDigitChars 10 ds 0 = 1 * Nat.ofDigitChars 10 ds 0 := (Nat.one_mul _).symm
    _ ≤ 10 ^ ds'.length * Nat.ofDigitChars 10 ds 0 := Nat.mul_le_mul_right _ hpow
    _ ≤ _ := Nat.le_add_right _ _

/-- Leading digits of an integer that fits make one that fits. -/
theorem inRange_leading {w : ℕ} {z : Int} (hz : InRange w z) {ds r : List Char}
    (hds : Nat.toDigits 10 z.natAbs = ds ++ r) : InRange w (signedValue (decide (z < 0)) ds) := by
  have hle : Nat.ofDigitChars 10 ds 0 ≤ z.natAbs := by
    have happend := ofDigitChars_le_append ds r
    rwa [← hds, Nat.ofDigitChars_ten_toDigits] at happend
  obtain ⟨hlow, hhigh⟩ := hz
  unfold signedValue InRange
  generalize (2 : Int) ^ (w - 1) = m at hlow hhigh ⊢
  by_cases hneg : z < 0
  · rw [decide_eq_true hneg, if_pos rfl]
    omega
  · rw [decide_eq_false hneg, if_neg Bool.false_ne_true]
    omega

theorem takeWhile_digits_blocked {s : List Char} (hs : Blocked s) : s.takeWhile Char.isDigit = [] := by
  cases s with
  | nil => rfl
  | cons ch s => rw [List.takeWhile_cons, (hs ch rfl).2.1, if_neg Bool.false_ne_true]

theorem readInt_blocked (w : ℕ) {s : List Char} (hs : Blocked s) : readInt w s = none := by
  have hsign : readSign (s.dropWhile isSpace) = (false, s) := by
    cases s with
    | nil => rfl
    | cons ch s =>
      obtain ⟨hspace, -, hminus, hplus⟩ := hs ch rfl
      rw [List.dropWhile_cons_of_neg (by simp [hspace])]
      unfold readSign
      split
      · rename_i heq
        exact absurd (List.cons.inj heq).1 hminus
      · rename_i heq
        exact absurd (List.cons.inj heq).1 hplus
      · rfl
  unfold readInt
  simp [hsign, takeWhile_digits_blocked hs]

/-- An integer cut after a digit is read as another one; cut before, it is not read. -/
theorem readInt_cut {w : ℕ} {z : Int} (hz : InRange w z) {q s : List Char} (hq : q <+: showInt z)
    (hs : Blocked s) :
    (q.length ≤ (showSign z).length → readInt w (q ++ s) = none) ∧
      ((showSign z).length < q.length → ∃ z', readInt w (q ++ s) = some (z', s)) := by
  obtain ⟨r, hr⟩ := hq
  constructor
  · intro hlen
    have hprefix : q <+: showSign z :=
      List.prefix_of_prefix_length_le ⟨r, hr⟩ (List.prefix_append _ _) hlen
    by_cases hz : z < 0
    · -- nothing, or the minus sign alone
      rw [showSign, if_pos hz] at hprefix
      rcases List.prefix_concat_iff.mp (show q <+: [] ++ ['-'] from hprefix) with rfl | hnil
      · have hsign : readSign (('-' :: s).dropWhile isSpace) = (true, s) := by
          rw [List.dropWhile_cons_of_neg (by decide)]
          rfl
        show readInt w ('-' :: s) = none
        unfold readInt
        simp [hsign, takeWhile_digits_blocked hs]
      · rw [List.prefix_nil.mp hnil]
        exact readInt_blocked w hs
    · rw [showSign, if_neg hz] at hprefix
      rw [List.prefix_nil.mp hprefix]
      exact readInt_blocked w hs
  · intro hlen
    obtain ⟨ds, rfl, hds⟩ : ∃ ds, q = showSign z ++ ds ∧ Nat.toDigits 10 z.natAbs = ds ++ r := by
      rcases List.append_eq_append_iff.mp hr with ⟨as, hsign, -⟩ | ⟨ds, hq, hdigits⟩
      · rw [hsign, List.length_append] at hlen
        omega
      · exact ⟨ds, hq, hdigits⟩
    have hne : ds ≠ [] := by
      rintro rfl
      rw [List.append_nil] at hlen
      omega
    refine ⟨signedValue (decide (z < 0)) ds, ?_⟩
    rw [readInt_signed w z hne ?_ hs.stopsDigits, if_pos (inRange_leading hz hds)]
    intro ch hch
    exact isDigit_of_mem_digits (by rw [hds]; exact List.mem_append_left _ hch)

/-! ## Numbers without leading zeros -/

theorem showInt_natCast (n : ℕ) : showInt n = Nat.toDigits 10 n := by
  rw [showInt, showSign, if_neg (by omega), Int.natAbs_natCast, List.nil_append]

theorem exists_digitChar {ch : Char} (h : ch.isDigit = true) : ∃ d < 10, ch = Nat.digitChar d := by
  simp only [Char.isDigit, Bool.and_eq_true, decide_eq_true_eq] at h
  have hlow : 48 ≤ ch.toNat := h.1
  have hhigh : ch.toNat ≤ 57 := h.2
  obtain ⟨d, hd⟩ := Nat.exists_eq_add_of_le hlow
  have hchar : ∀ d < 10, Char.ofNat (48 + d) = Nat.digitChar d := by decide
  refine ⟨d, by omega, ?_⟩
  rw [← hchar d (by omega), ← hd, Char.ofNat_toNat]

/-- Digits written behind a number that is not zero. -/
theorem toDigits_append_digits {n : ℕ} (hn : 0 < n) {ds : List Char} (hds : ∀ ch ∈ ds, ch.isDigit = true) :
    Nat.toDigits 10 n ++ ds = Nat.toDigits 10 (Nat.ofDigitChars 10 ds n) := by
  induction ds generalizing n with
  | nil => rw [List.append_nil, Nat.ofDigitChars_nil]
  | cons ch ds ih =>
    obtain ⟨hch, hrest⟩ := List.forall_mem_cons.mp hds
    obtain ⟨d, hd, rfl⟩ := exists_digitChar hch
    have hstep : Nat.toDigits 10 n ++ [Nat.digitChar d] = Nat.toDigits 10 (10 * n + d) := by
      rw [← Nat.toDigits_of_lt_base hd, Nat.toDigits_append_toDigits (by decide) hn hd]
    rw [Nat.ofDigitChars_cons_digitChar_of_lt_ten hd, ← ih (by omega) hrest, ← hstep, List.append_assoc]
    rfl

/-- **The digits of the numbers from 1 on** are those that do not start with a zero. -/
theorem exists_toDigits_iff {ds : List Char} : (∃ n, 0 < n ∧ ds = Nat.toDigits 10 n) ↔
    ∃ ch rest, ds = ch :: rest ∧ (ch.isDigit = true ∧ ch ≠ '0') ∧ ∀ c ∈ rest, c.isDigit = true := by
  constructor
  · rintro ⟨n, hn, rfl⟩
    induction n using Nat.strong_induction_on with
    | _ n ih =>
      by_cases hsmall : n < 10
      · have hfirst : ∀ d < 10, 0 < d → (Nat.digitChar d).isDigit = true ∧ Nat.digitChar d ≠ '0' := by decide
        rw [Nat.toDigits_of_lt_base hsmall]
        exact ⟨_, [], rfl, hfirst n hsmall hn, fun c hc => absurd hc List.not_mem_nil⟩
      · obtain ⟨ch, rest, hdigits, hch, hrest⟩ := ih (n / 10) (by omega) (by omega)
        rw [Nat.toDigits_of_base_le (by decide) (by omega), hdigits]
        refine ⟨ch, rest ++ [Nat.digitChar (n % 10)], rfl, hch, ?_⟩
        refine List.forall_mem_append.mpr ⟨hrest, List.forall_mem_singleton.mpr ?_⟩
        rw [Nat.isDigit_digitChar]
        exact decide_eq_true (by omega)
  · rintro ⟨ch, rest, rfl, ⟨hdigit, hzero⟩, hrest⟩
    obtain ⟨d, hd, rfl⟩ := exists_digitChar hdigit
    have hpos : 0 < d := by
      by_contra hnot
      obtain rfl : d = 0 := by omega
      exact hzero rfl
    refine ⟨Nat.ofDigitChars 10 rest d, ?_, ?_⟩
    · rw [Nat.ofDigitChars_eq_ofDigitChars_zero]
      have hpow : 0 < 10 ^ rest.length * d := Nat.mul_pos (Nat.pow_pos (by decide)) hpos
      omega
    · rw [← toDigits_append_digits hpos hrest, Nat.toDigits_of_lt_base hd]
      rfl

/-! ## Chains of integers -/

theorem fieldsText_cons (z : Int) (zs : List Int) :
    fieldsText (z :: zs) = ' ' :: (showInt z ++ fieldsText zs) := by
  rw [fieldsText, List.flatMap_cons, List.cons_append]
  rfl

/-- Integers stand on one line. -/
theorem newline_not_mem_fieldsText (zs : List Int) : '\n' ∉ fieldsText zs := by
  intro h
  obtain ⟨z, -, hz⟩ := List.mem_flatMap.mp h
  rcases List.mem_cons.mp hz with hblank | hz
  · exact absurd hblank (by decide)
  · exact ne_of_mem_showInt hz (by decide) (by decide) rfl

/-- After an integer comes a blank or what stops the chain. -/
theorem stopsDigits_fieldsText (zs : List Int) {s : List Char} (hs : StopsDigits s) :
    StopsDigits (fieldsText zs ++ s) := by
  cases zs with
  | nil => exact hs
  | cons z zs =>
    rw [fieldsText_cons]
    intro ch hch
    cases hch
    decide

theorem readInts_fieldsText {ws : List ℕ} {zs : List Int} (h : List.Forall₂ InRange ws zs) {s : List Char}
    (hs : StopsDigits s) : readInts ws (fieldsText zs ++ s) = some (zs, s) := by
  induction h with
  | nil => rfl
  | @cons w z ws zs hz _ ih =>
    rw [fieldsText_cons, readInts, List.cons_append, readInt_blank, List.append_assoc,
      readInt_showInt hz (stopsDigits_fieldsText zs hs), Option.bind_some, ih]
    rfl

/-- What is read fits. -/
theorem inRange_readInts {ws : List ℕ} {s r : List Char} {zs : List Int} (h : readInts ws s = some (zs, r)) :
    List.Forall₂ InRange ws zs := by
  induction ws generalizing s zs with
  | nil =>
    cases h
    exact .nil
  | cons w ws ih =>
    rw [readInts] at h
    obtain ⟨⟨z, s'⟩, hz, hrest⟩ := Option.bind_eq_some_iff.mp h
    obtain ⟨⟨zs', r'⟩, hzs, heq⟩ := Option.map_eq_some_iff.mp hrest
    cases heq
    refine .cons ?_ (ih hzs)
    unfold readInt at hz
    dsimp only at hz
    split at hz
    · rename_i hrange
      cases hz
      exact hrange.2
    · cases hz

/-- How far a text must go so that its last integer `z`, after the others, is read. -/
def cutPoint (zs : List Int) (z : Int) : ℕ := (fieldsText zs).length + 1 + (showSign z).length

theorem cutPoint_cons (y z : Int) (zs : List Int) :
    cutPoint (y :: zs) z = 1 + (showInt y).length + cutPoint zs z := by
  rw [cutPoint, cutPoint, fieldsText_cons, List.length_cons, List.length_append]
  omega

/-- Nothing is read from a blocked stream, unless nothing is asked for. -/
theorem readInts_blocked {ws : List ℕ} {s : List Char} (hs : Blocked s) (hws : ws ≠ []) :
    readInts ws s = none := by
  obtain ⟨w, ws, rfl⟩ := List.exists_cons_of_ne_nil hws
  rw [readInts, readInt_blocked w hs]
  rfl

/-- What is left of a text of integers starts with a blank. -/
theorem stopsDigits_leading {zs : List Int} {q s : List Char} (hq : q <+: fieldsText zs)
    (hs : StopsDigits s) : StopsDigits (q ++ s) := by
  cases q with
  | nil => exact hs
  | cons ch q =>
    intro ch' hch'
    cases hch'
    obtain ⟨r, hr⟩ := hq
    cases zs with
    | nil => cases hr
    | cons z zs =>
      rw [fieldsText_cons] at hr
      obtain rfl := (List.cons.inj hr).1
      decide

/-- **A chain that was cut short** succeeds when a digit of the last integer is left. -/
theorem readInts_cut {s : List Char} (hs : Blocked s) (z : Int) : ∀ (zs : List Int) {ws : List ℕ} {q : List Char},
    List.Forall₂ InRange ws (zs ++ [z]) → q <+: fieldsText (zs ++ [z]) →
      (q.length ≤ cutPoint zs z → readInts ws (q ++ s) = none) ∧
        (cutPoint zs z < q.length → ∃ z', readInts ws (q ++ s) = some (zs ++ [z'], s)) := by
  intro zs
  induction zs with
  | nil =>
    intro ws q hws hq
    obtain ⟨w, _, hz, hnil, rfl⟩ := List.forall₂_cons_right_iff.mp hws
    cases hnil
    have hpoint : cutPoint [] z = 1 + (showSign z).length := by
      rw [cutPoint]
      exact congrArg (· + _) (Nat.zero_add 1)
    rw [hpoint]
    cases q with
    | nil =>
      refine ⟨fun _ => readInts_blocked hs (List.cons_ne_nil _ _), ?_⟩
      intro hlen
      exact absurd hlen (Nat.not_lt_zero _)
    | cons ch q =>
      obtain ⟨rfl, hleft⟩ : ch = ' ' ∧ q <+: showInt z := by
        rw [List.nil_append, fieldsText_cons, show fieldsText [] = [] from rfl, List.append_nil] at hq
        exact List.cons_prefix_cons.mp hq
      obtain ⟨hnone, hsome⟩ := readInt_cut hz hleft hs
      rw [List.cons_append, readInts, readInt_blank, List.length_cons]
      constructor
      · intro hlen
        rw [hnone (by omega)]
        rfl
      · intro hlen
        obtain ⟨z', hz'⟩ := hsome (by omega)
        exact ⟨z', by rw [hz']; rfl⟩
  | cons y zs ih =>
    intro ws q hws hq
    obtain ⟨w, ws, hy, hothers, rfl⟩ := List.forall₂_cons_right_iff.mp hws
    have hmore : ws ≠ [] := by
      rintro rfl
      exact List.append_ne_nil_of_right_ne_nil zs (List.cons_ne_nil z []) (List.forall₂_nil_left_iff.mp hothers)
    rw [cutPoint_cons]
    cases q with
    | nil =>
      refine ⟨fun _ => readInts_blocked hs (List.cons_ne_nil _ _), ?_⟩
      intro hlen
      exact absurd hlen (Nat.not_lt_zero _)
    | cons ch q =>
      obtain ⟨rfl, r, hr⟩ : ch = ' ' ∧ q <+: showInt y ++ fieldsText (zs ++ [z]) := by
        rw [List.cons_append, fieldsText_cons] at hq
        exact List.cons_prefix_cons.mp hq
      rw [List.cons_append, readInts, readInt_blank, List.length_cons]
      rcases List.append_eq_append_iff.mp hr with ⟨as, hcut, -⟩ | ⟨q', rfl, hq'⟩
      · -- the cut is in the first integer: even if that is read, the next one is not
        have hlen : q.length ≤ (showInt y).length := by
          rw [hcut, List.length_append]
          omega
        obtain ⟨hnone, hsome⟩ := readInt_cut hy ⟨as, hcut.symm⟩ hs
        refine ⟨fun _ => ?_, fun hlong => by rw [cutPoint] at hlong; omega⟩
        by_cases hdigit : (showSign y).length < q.length
        · obtain ⟨y', hy'⟩ := hsome hdigit
          rw [hy', Option.bind_some, readInts_blocked hs hmore]
          rfl
        · rw [hnone (by omega)]
          rfl
      · have hprefix : q' <+: fieldsText (zs ++ [z]) := ⟨r, hq'.symm⟩
        obtain ⟨hnone, hsome⟩ := ih hothers hprefix
        rw [List.append_assoc, readInt_showInt hy (stopsDigits_leading hprefix hs.stopsDigits),
          Option.bind_some, List.length_append]
        constructor
        · intro hlen
          rw [hnone (by omega)]
          rfl
        · intro hlen
          obtain ⟨z', hz'⟩ := hsome (by omega)
          exact ⟨z', by rw [hz']; rfl⟩

end MultiPaxosDB.Lib
