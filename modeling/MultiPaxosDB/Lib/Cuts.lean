/-
# MultiPaxosDB.Lib.Cuts — a sequence of writes that may stop anywhere.

The writes come in blocks: a first write, and writes that `follow` it.  A sequence may be cut after any number
of its writes, in the middle of a block as well.  `GoodBlocks` says what holds wherever it is cut, of the state
reached and of the writes missing from the block begun there; it is proved block by block.

Some of the steps may be outputs, which cannot be taken back.  `Justified` says that each is justified by the state in
which it is made; what is justified stays so, wherever the sequence is cut.
-/
import Mathlib.Data.List.TakeWhile
import Mathlib.Tactic.Common

namespace MultiPaxosDB.Lib

universe u v

variable {σ : Type u} {ω : Type v} (step : σ → ω → σ) (follows : ω → Bool)

/-- The state after the first `k` writes. -/
def cutAt (d : σ) (ws : List ω) (k : Nat) : σ := (ws.take k).foldl step d

/-- The writes still missing from the block that a cut after `k` writes falls into. -/
def restOfBlock (ws : List ω) (k : Nat) : List ω := (ws.drop k).takeWhile follows

structure GoodBlocks (Good : σ → List ω → Prop) (d : σ) (ws : List ω) : Prop where
  head : ∀ w ∈ ws.head?, follows w = false
  good : ∀ k, Good (cutAt step d ws k) (restOfBlock follows ws k)

variable {step follows} {Good : σ → List ω → Prop} {d : σ}

theorem GoodBlocks.nil (h : Good d []) : GoodBlocks step follows Good d [] where
  head := by simp
  good := by
    intro k
    simpa [restOfBlock, cutAt] using h

/-- One block. -/
theorem GoodBlocks.block {w : ω} {ws : List ω} (h : Good d []) (hhead : follows w = false)
    (htail : ∀ x ∈ ws, follows x = true)
    (hgood : ∀ done rest, done ++ rest = ws → Good (done.foldl step (step d w)) rest) :
    GoodBlocks step follows Good d (w :: ws) where
  head := by
    rintro x ⟨⟩
    exact hhead
  good := by
    intro k
    cases k with
    | zero => simpa [restOfBlock, cutAt, List.takeWhile_cons, hhead] using h
    | succ k =>
      have hrest : restOfBlock follows (w :: ws) (k + 1) = ws.drop k := by
        rw [restOfBlock, List.drop_succ_cons]
        exact List.takeWhile_eq_self_iff.mpr fun x hx => htail x (List.mem_of_mem_drop hx)
      rw [hrest, cutAt, List.take_succ_cons, List.foldl_cons]
      exact hgood _ _ (List.take_append_drop k ws)

/-- Blocks after blocks. -/
theorem GoodBlocks.append {ws₁ ws₂ : List ω} (h₁ : GoodBlocks step follows Good d ws₁)
    (h₂ : GoodBlocks step follows Good (ws₁.foldl step d) ws₂) : GoodBlocks step follows Good d (ws₁ ++ ws₂) where
  head := by
    cases ws₁ with
    | nil => exact h₂.head
    | cons w ws => exact h₁.head
  good := by
    intro k
    by_cases hk : k ≤ ws₁.length
    · -- the block begun in `ws₁` ends there
      have hrest : restOfBlock follows (ws₁ ++ ws₂) k = restOfBlock follows ws₁ k := by
        rw [restOfBlock, List.drop_append_of_le_length hk, List.takeWhile_append]
        split
        · rename_i hall
          have hnone : ws₂.takeWhile follows = [] := by
            cases ws₂ with
            | nil => rfl
            | cons w ws => rw [List.takeWhile_cons, h₂.head w rfl, if_neg Bool.false_ne_true]
          rw [hnone, List.append_nil, restOfBlock]
          exact ((List.takeWhile_prefix follows).eq_of_length hall).symm
        · rfl
      have hcut : cutAt step d (ws₁ ++ ws₂) k = cutAt step d ws₁ k := by
        rw [cutAt, List.take_append_of_le_length hk, cutAt]
      rw [hrest, hcut]
      exact h₁.good k
    · obtain ⟨j, rfl⟩ : ∃ j, k = ws₁.length + j := ⟨k - ws₁.length, by omega⟩
      have hrest : restOfBlock follows (ws₁ ++ ws₂) (ws₁.length + j) = restOfBlock follows ws₂ j := by
        rw [restOfBlock, List.drop_length_add_append, restOfBlock]
      have hcut : cutAt step d (ws₁ ++ ws₂) (ws₁.length + j) = cutAt step (ws₁.foldl step d) ws₂ j := by
        rw [cutAt, List.take_length_add_append, List.foldl_append, cutAt]
      rw [hrest, hcut]
      exact h₂.good j

theorem GoodBlocks.mono {Good' : σ → List ω → Prop} {ws : List ω} (h : GoodBlocks step follows Good d ws)
    (himp : ∀ d ws, Good d ws → Good' d ws) : GoodBlocks step follows Good' d ws :=
  ⟨h.head, fun k => himp _ _ (h.good k)⟩

/-! ## Outputs -/

/-- Each step is justified in the state in which it is taken. -/
def Justified (step : σ → ω → σ) (J : σ → ω → Prop) : σ → List ω → Prop
  | _, [] => True
  | d, w :: ws => J d w ∧ Justified step J (step d w) ws

variable {J : σ → ω → Prop} {ws : List ω}

theorem justified_append {ws₁ ws₂ : List ω} :
    Justified step J d (ws₁ ++ ws₂) ↔ Justified step J d ws₁ ∧ Justified step J (ws₁.foldl step d) ws₂ := by
  induction ws₁ generalizing d with
  | nil => simp [Justified]
  | cons w ws ih => simp only [List.cons_append, Justified, List.foldl_cons, ih, and_assoc]

theorem Justified.take (h : Justified step J d ws) (k : Nat) : Justified step J d (ws.take k) := by
  rw [← List.take_append_drop k ws, justified_append] at h
  exact h.1

theorem Justified.of_forall (h : ∀ w ∈ ws, ∀ d, J d w) : Justified step J d ws := by
  induction ws generalizing d with
  | nil => trivial
  | cons w ws ih => exact ⟨h w List.mem_cons_self d, ih fun x hx => h x (List.mem_cons_of_mem w hx)⟩

/-- What stays justified is so at the end. -/
theorem Justified.mem (h : Justified step J d ws) (hstable : ∀ d w x, J d w → J (step d x) w) {w : ω} (hw : w ∈ ws) :
    J (ws.foldl step d) w := by
  have hlater : ∀ (xs : List ω) (d : σ), J d w → J (xs.foldl step d) w := by
    intro xs d hd
    exact List.foldlRecOn (motive := fun d' => J d' w) xs step hd fun d' hd' x _ => hstable d' w x hd'
  induction ws generalizing d with
  | nil => cases hw
  | cons x ws ih =>
    rcases List.mem_cons.mp hw with rfl | hrest
    · exact hlater ws _ (hstable d w w h.1)
    · exact ih h.2 hrest

end MultiPaxosDB.Lib
