/-
# MultiPaxosDB.Lib.Columns — splitting a line at its separators.

`Splitter.split` is the loop that goes over the characters of a line with a column in progress: some characters are
dropped, a quote is dropped and turns quoting on or off, a separator outside quotes ends the column, and any other
character goes to the column.  What is in progress at the end is a column too, so there is always one.

A cell is read as a value (`Splitter.Reads`) if, wherever the loop meets it outside quotes, it adds just the value to
the column.  Cells joined by the separator are then read back as their values (`split_intercalate`).
-/
import Mathlib.Data.List.Forall2
import Mathlib.Tactic.Common

namespace MultiPaxosDB.Lib

/-- What holds of the separator and in all cells holds in the joined line. -/
theorem forall_mem_intercalate {α : Type*} {P : α → Prop} {sep : List α} {cells : List (List α)} (hsep : ∀ a ∈ sep, P a)
    (hcells : ∀ cell ∈ cells, ∀ a ∈ cell, P a) : ∀ a ∈ sep.intercalate cells, P a := by
  induction cells with
  | nil => exact fun a ha => absurd ha List.not_mem_nil
  | cons cell cells ih =>
    obtain ⟨hcell, hrest⟩ := List.forall_mem_cons.mp hcells
    cases cells with
    | nil =>
      rw [List.intercalate_singleton]
      exact hcell
    | cons cell' cells =>
      rw [List.intercalate_cons_cons]
      intro a ha
      rcases List.mem_append.mp ha with hfront | hback
      · rcases List.mem_append.mp hfront with hin | hin
        · exact hcell a hin
        · exact hsep a hin
      · exact ih hrest a hback

/-- What holds of the brackets and between them. -/
theorem forall_mem_bracketed {α : Type*} {P : α → Prop} {a b : α} {s : List α} (ha : P a) (hb : P b)
    (hs : ∀ x ∈ s, P x) : ∀ x ∈ a :: (s ++ [b]), P x :=
  List.forall_mem_cons.mpr ⟨ha, List.forall_mem_append.mpr ⟨hs, List.forall_mem_singleton.mpr hb⟩⟩

/-- What the characters of a line are to the loop that splits it. -/
structure Splitter (α : Type*) where
  skip : α → Bool
  quote : α → Bool
  separator : α

namespace Splitter

variable {α : Type*} [DecidableEq α] (p : Splitter α)

/-- The loop, with the column in progress. -/
def loop (inQuotes : Bool) (column : List α) : List α → List (List α)
  | [] => [column]
  | ch :: s =>
    if p.skip ch then loop inQuotes column s
    else if p.quote ch then loop (!inQuotes) column s
    else if ch = p.separator ∧ inQuotes = false then column :: loop inQuotes [] s
    else loop inQuotes (column ++ [ch]) s

/-- The columns of a line. -/
def split (s : List α) : List (List α) := p.loop false [] s

theorem loop_filter (inQuotes : Bool) (column s : List α) :
    p.loop inQuotes column (s.filter fun ch => !p.skip ch) = p.loop inQuotes column s := by
  induction s generalizing inQuotes column with
  | nil => rfl
  | cons ch s ih =>
    cases hskip : p.skip ch with
    | true => rw [List.filter_cons_of_neg (by simp [hskip]), ih, loop, if_pos hskip]
    | false =>
      rw [List.filter_cons_of_pos (by simp [hskip]), loop, loop]
      simp only [ih]

/-- The dropped characters can be dropped before. -/
theorem split_filter (s : List α) : p.split (s.filter fun ch => !p.skip ch) = p.split s := p.loop_filter false [] s

/-- Brackets around a line that are dropped. -/
theorem split_bracketed {a b : α} (ha : p.skip a = true) (hb : p.skip b = true) (s : List α) :
    p.split (a :: (s ++ [b])) = p.split s := by
  rw [← p.split_filter, ← p.split_filter s]
  simp [List.filter_append, ha, hb]

/-- A cell that adds `value` to the column in progress. -/
def Reads (cell value : List α) : Prop :=
  ∀ column s, p.loop false column (cell ++ s) = p.loop false (column ++ value) s

variable {p}

theorem reads_nil : p.Reads [] [] := fun column s => by rw [List.append_nil, List.nil_append]

/-- The loop takes over what is not special to it. -/
theorem loop_append {inQuotes : Bool} {s : List α}
    (hs : ∀ ch ∈ s, p.skip ch = false ∧ p.quote ch = false ∧ (ch = p.separator → inQuotes = true)) (column rest : List α) :
    p.loop inQuotes column (s ++ rest) = p.loop inQuotes (column ++ s) rest := by
  induction s generalizing column with
  | nil => rw [List.append_nil, List.nil_append]
  | cons ch s ih =>
    obtain ⟨hskip, hquote, hsep⟩ := hs ch List.mem_cons_self
    have hinside : ¬ (ch = p.separator ∧ inQuotes = false) := by
      rintro ⟨hch, hout⟩
      rw [hsep hch] at hout
      cases hout
    rw [List.cons_append, loop, if_neg (by simp [hskip]), if_neg (by simp [hquote]), if_neg hinside,
      ih fun ch' hch' => hs ch' (List.mem_cons_of_mem ch hch'), List.append_assoc, List.singleton_append]

/-- A cell without special characters is its own value. -/
theorem reads_plain {s : List α} (hs : ∀ ch ∈ s, p.skip ch = false ∧ p.quote ch = false ∧ ch ≠ p.separator) :
    p.Reads s s := by
  refine loop_append fun ch hch => ?_
  obtain ⟨hskip, hquote, hsep⟩ := hs ch hch
  exact ⟨hskip, hquote, fun h => absurd h hsep⟩

/-- Between quotes a separator is a character like the others. -/
theorem reads_quoted {q : α} (hskip : p.skip q = false) (hquote : p.quote q = true) {s : List α}
    (hs : ∀ ch ∈ s, p.skip ch = false ∧ p.quote ch = false) : p.Reads (q :: (s ++ [q])) s := by
  intro column rest
  have htoggle : ∀ inQuotes column rest, p.loop inQuotes column (q :: rest) = p.loop (!inQuotes) column rest := by
    intro inQuotes column rest
    rw [loop, if_neg (by simp [hskip]), if_pos hquote]
  have hinside : ∀ ch ∈ s, p.skip ch = false ∧ p.quote ch = false ∧ (ch = p.separator → (!false) = true) :=
    fun ch hch => ⟨(hs ch hch).1, (hs ch hch).2, fun _ => rfl⟩
  rw [List.cons_append, htoggle, List.append_assoc, loop_append hinside, List.singleton_append, htoggle]
  rfl

/-- **Joined cells are read back.** -/
theorem split_intercalate (hskip : p.skip p.separator = false) (hquote : p.quote p.separator = false)
    {cells values : List (List α)} (h : List.Forall₂ p.Reads cells values) (hne : cells ≠ []) :
    p.split ([p.separator].intercalate cells) = values := by
  induction h with
  | nil => exact absurd rfl hne
  | @cons cell value cells values hcell hcells ih =>
    cases hcells with
    | nil =>
      rw [List.intercalate_singleton, split, ← List.append_nil cell, hcell]
      rfl
    | @cons cell' value' cells values hcell' hcells =>
      -- the separator behind the cell ends its column and starts the next with nothing in it
      have hrest := ih (List.cons_ne_nil _ _)
      rw [split] at hrest
      rw [List.intercalate_cons_cons, split, List.append_assoc, hcell, List.singleton_append, loop,
        if_neg (by simp [hskip]), if_neg (by simp [hquote]), if_pos ⟨rfl, rfl⟩, hrest]
      rfl

end Splitter

end MultiPaxosDB.Lib
