/-
# MultiPaxosDB.Lib.Patterns — the patterns of a fixed word and of a class of characters.

Patterns are Mathlib's regular expressions and `rmatch` is the test that a pattern matches a whole text.  `word` and
`oneOf` are the two that a pattern in a program is mostly made of, with what they match; `charRange` is the class that is
written with its first and last character.
-/
import Mathlib.Computability.RegularExpressions

namespace MultiPaxosDB.Lib

open RegularExpression

variable {α : Type*} [DecidableEq α]

/-- The pattern `abc`. -/
def word : List α → RegularExpression α
  | [] => 1
  | a :: s => char a * word s

/-- The pattern `[abc]`. -/
def oneOf : List α → RegularExpression α
  | [] => 0
  | a :: s => char a + oneOf s

theorem word_rmatch_iff (s x : List α) : (word s).rmatch x ↔ x = s := by
  induction s generalizing x with
  | nil => exact one_rmatch_iff x
  | cons a s ih =>
    rw [word, mul_rmatch_iff]
    constructor
    · rintro ⟨t, u, rfl, ht, hu⟩
      rw [(char_rmatch_iff a t).mp ht, (ih u).mp hu]
      rfl
    · rintro rfl
      exact ⟨[a], s, rfl, (char_rmatch_iff a [a]).mpr rfl, (ih s).mpr rfl⟩

theorem oneOf_rmatch_iff (s x : List α) : (oneOf s).rmatch x ↔ ∃ a ∈ s, x = [a] := by
  induction s with
  | nil => simp [oneOf]
  | cons a s ih =>
    rw [oneOf, add_rmatch_iff, char_rmatch_iff, ih]
    simp

/-- The pattern `[abc]*`. -/
theorem star_oneOf_rmatch_iff (s x : List α) : (star (oneOf s)).rmatch x ↔ ∀ a ∈ x, a ∈ s := by
  rw [star_rmatch_iff]
  constructor
  · rintro ⟨pieces, rfl, hpieces⟩ a ha
    obtain ⟨piece, hpiece, ha⟩ := List.mem_flatten.mp ha
    obtain ⟨b, hb, rfl⟩ := (oneOf_rmatch_iff s piece).mp (hpieces piece hpiece).2
    rwa [List.mem_singleton.mp ha]
  · intro h
    -- one piece for each character
    refine ⟨x.map fun a => [a], ?_, ?_⟩
    · rw [← List.flatMap_def, List.flatMap_singleton']
    · intro piece hpiece
      obtain ⟨a, ha, rfl⟩ := List.mem_map.mp hpiece
      exact ⟨List.cons_ne_nil _ _, (oneOf_rmatch_iff s [a]).mpr ⟨a, h a ha, rfl⟩⟩

/-- The characters of the class `[a-b]`. -/
def charRange (a b : Char) : List Char := (List.range' a.toNat (b.toNat + 1 - a.toNat)).map Char.ofNat

/-- All numbers up to that of `b` are characters, if `b` is before the surrogates. -/
theorem mem_charRange {a b ch : Char} (hb : b.toNat < 0xd800) :
    ch ∈ charRange a b ↔ a.toNat ≤ ch.toNat ∧ ch.toNat ≤ b.toNat := by
  rw [charRange, List.mem_map]
  constructor
  · rintro ⟨n, hn, rfl⟩
    rw [List.mem_range'_1] at hn
    have hvalid : n.isValidChar := .inl (by omega)
    have hnumber : (Char.ofNat n).toNat = n := by
      rw [Char.ofNat, dif_pos hvalid]
      rfl
    omega
  · rintro ⟨hlow, hhigh⟩
    exact ⟨ch.toNat, List.mem_range'_1.mpr ⟨hlow, by omega⟩, Char.ofNat_toNat ch⟩

end MultiPaxosDB.Lib
