/-
# MultiPaxosDB.Lib.Lines — the lines of a file of bytes, and where they start.

`linesOf` is the loop `while (getline(is, line))` with the offset `tellg` reports before each line: a line
ends at a newline, which is dropped, and what follows the last newline is a line too unless it is empty.
`lineAt` is `seekg` and one `getline`.

A file made of terminated lines and a tail without a newline (`unlines ls ++ tail`) is read as those lines,
each at the offset where it was written, and the tail (`linesOf_unlines`); an indexed line is read back
whatever comes after it (`lineAt_unlines`).
-/
import Mathlib.Data.List.TakeWhile
import Mathlib.Tactic.Common

namespace MultiPaxosDB.Lib

/-- The loop over the lines from an offset on, with the part of the current line read so far. -/
def linesFrom (start : ℕ) (line : List Char) : List Char → List (ℕ × List Char)
  | [] => if line = [] then [] else [(start, line)]
  | ch :: s =>
    if ch = '\n' then (start, line) :: linesFrom (start + line.length + 1) [] s
    else linesFrom start (line ++ [ch]) s

/-- `while (getline(is, line))`, each line with its offset. -/
def linesOf (bytes : List Char) : List (ℕ × List Char) := linesFrom 0 [] bytes

/-- `is.seekg(position); getline(is, line);` -/
def lineAt (bytes : List Char) (position : ℕ) : List Char :=
  (bytes.drop position).takeWhile fun ch => ch != '\n'

/-- Terminated lines, one after the other. -/
def unlines (ls : List (List Char)) : List Char := ls.flatMap fun l => l ++ ['\n']

/-- The lines with the offsets they are written at. -/
def numbered : ℕ → List (List Char) → List (ℕ × List Char)
  | _, [] => []
  | start, l :: ls => (start, l) :: numbered (start + l.length + 1) ls

theorem unlines_append (ls ls' : List (List Char)) : unlines (ls ++ ls') = unlines ls ++ unlines ls' := by
  rw [unlines, List.flatMap_append]
  rfl

theorem unlines_cons (l : List Char) (ls : List (List Char)) : unlines (l :: ls) = l ++ '\n' :: unlines ls := by
  rw [unlines, List.flatMap_cons, List.append_assoc]
  rfl

theorem numbered_append (start : ℕ) (ls ls' : List (List Char)) :
    numbered start (ls ++ ls') = numbered start ls ++ numbered (start + (unlines ls).length) ls' := by
  induction ls generalizing start with
  | nil => rfl
  | cons l ls ih =>
    have hlen : start + l.length + 1 + (unlines ls).length = start + (unlines (l :: ls)).length := by
      rw [unlines_cons, List.length_append, List.length_cons]
      omega
    rw [List.cons_append, numbered, numbered, ih, hlen]
    rfl

/-- Characters other than a newline go to the current line. -/
theorem linesFrom_append {l : List Char} (hl : '\n' ∉ l) (start : ℕ) (line s : List Char) :
    linesFrom start line (l ++ s) = linesFrom start (line ++ l) s := by
  induction l generalizing line with
  | nil => rw [List.append_nil, List.nil_append]
  | cons ch l ih =>
    have hch : ch ≠ '\n' := fun h => hl (h ▸ List.mem_cons_self)
    have hrest : '\n' ∉ l := fun h => hl (List.mem_cons_of_mem ch h)
    rw [List.cons_append, linesFrom, if_neg hch, ih hrest, List.append_assoc, List.singleton_append]

theorem linesFrom_unlines {ls : List (List Char)} (hls : ∀ l ∈ ls, '\n' ∉ l) {tail : List Char}
    (htail : '\n' ∉ tail) (start : ℕ) :
    linesFrom start [] (unlines ls ++ tail) =
      numbered start ls ++ if tail = [] then [] else [(start + (unlines ls).length, tail)] := by
  induction ls generalizing start with
  | nil =>
    show linesFrom start [] tail = _
    rw [← List.append_nil tail, linesFrom_append htail, List.append_nil, List.nil_append]
    rfl
  | cons l ls ih =>
    have hrest : ∀ l' ∈ ls, '\n' ∉ l' := fun l' hl' => hls l' (List.mem_cons_of_mem l hl')
    have hlen : start + l.length + 1 + (unlines ls).length = start + (unlines (l :: ls)).length := by
      rw [unlines_cons, List.length_append, List.length_cons]
      omega
    have hbytes : unlines (l :: ls) ++ tail = l ++ '\n' :: (unlines ls ++ tail) := by
      rw [unlines_cons, List.append_assoc, List.cons_append]
    rw [hbytes, linesFrom_append (hls l List.mem_cons_self), List.nil_append, linesFrom, if_pos rfl, ih hrest,
      hlen]
    rfl

/-- **The lines of a file** are those that were written, and the tail if there is one. -/
theorem linesOf_unlines {ls : List (List Char)} (hls : ∀ l ∈ ls, '\n' ∉ l) {tail : List Char}
    (htail : '\n' ∉ tail) :
    linesOf (unlines ls ++ tail) =
      numbered 0 ls ++ if tail = [] then [] else [((unlines ls).length, tail)] := by
  have h := linesFrom_unlines hls htail 0
  rwa [Nat.zero_add] at h

theorem map_snd_numbered (start : ℕ) (ls : List (List Char)) : (numbered start ls).map Prod.snd = ls := by
  induction ls generalizing start with
  | nil => rfl
  | cons l ls ih => rw [numbered, List.map_cons, ih]

/-- The last newline of a file does not matter, unless an empty line is to end there. -/
theorem map_snd_linesOf {ls : List (List Char)} (hls : ∀ l ∈ ls, '\n' ∉ l ∧ l ≠ []) {bytes : List Char}
    (hbytes : bytes = unlines ls ∨ bytes ++ ['\n'] = unlines ls) : (linesOf bytes).map Prod.snd = ls := by
  rcases hbytes with rfl | hcut
  · have hlines := linesOf_unlines (fun l hl => (hls l hl).1) (List.not_mem_nil (a := '\n'))
    rw [List.append_nil, if_pos rfl, List.append_nil] at hlines
    rw [hlines, map_snd_numbered]
  · rcases List.eq_nil_or_concat ls with rfl | ⟨ls, l, heq⟩
    · exact absurd hcut (List.append_ne_nil_of_right_ne_nil _ (List.cons_ne_nil _ _))
    · obtain rfl : _ = ls ++ [l] := heq.trans List.concat_eq_append
      obtain ⟨hl, hne⟩ := hls l List.mem_concat_self
      have hlast : unlines (ls ++ [l]) = unlines ls ++ l ++ ['\n'] := by
        rw [unlines_append, unlines_cons, List.append_assoc]
        rfl
      have hbytes : bytes = unlines ls ++ l := List.append_cancel_right (hcut.trans hlast)
      rw [hbytes, linesOf_unlines (fun l' hl' => (hls l' (List.mem_append_left _ hl')).1) hl, if_neg hne,
        List.map_append, map_snd_numbered]
      rfl

/-- A line is read back from its offset, whatever stands before and after it. -/
theorem lineAt_offset (before : List Char) {l : List Char} (hl : '\n' ∉ l) (after : List Char) :
    lineAt (before ++ l ++ '\n' :: after) before.length = l := by
  have hinside : ∀ ch ∈ l, (ch != '\n') = true := by
    intro ch hch
    rw [bne_iff_ne]
    rintro rfl
    exact hl hch
  rw [lineAt, List.append_assoc, List.drop_left', List.takeWhile_append_of_pos hinside,
    List.takeWhile_cons_of_neg (by decide), List.append_nil]
  rfl

end MultiPaxosDB.Lib
