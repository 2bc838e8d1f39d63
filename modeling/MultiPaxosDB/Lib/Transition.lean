/-
# MultiPaxosDB.Lib.Transition — guarded runs of a deterministic step function.

A system is a step function `σ → ε → σ` together with a guard `ok : σ → ε → Prop` that says which
events a run may take in which state.  `Reach` is the set of states of all such runs, `okRun` the
same condition on one explicit list of events (decidable whenever the guard is), and `Along` the
statement that a predicate holds at every state such a list passes through.

The module gives the invariant rules every result below is an instance of: an invariant that each
guarded step preserves holds in every reached state (`Reach.invariant`), and — where a step keeps
the predicate EXACTLY when the guard holds — a run stays inside the predicate iff all of its steps
meet the guard (`along_iff_okRun`).
-/
import Mathlib.Logic.Relation
import Mathlib.Tactic.Common

namespace MultiPaxosDB.Lib

universe u v w

section Runs

variable {σ : Type u} {ε : Type v}

/-- The states of the runs that start in `start` and whose every step satisfies the guard `ok`. -/
inductive Reach (step : σ → ε → σ) (ok : σ → ε → Prop) (start : σ) : σ → Prop
  | start : Reach step ok start start
  | step {s : σ} {e : ε} : Reach step ok start s → ok s e → Reach step ok start (step s e)

variable {step : σ → ε → σ} {ok ok' : σ → ε → Prop} {start : σ}

/-- **The invariant rule.**  The step obligation may use that its source state is itself reached, so
that one invariant can rest on another that is already established. -/
theorem Reach.invariant {motive : σ → Prop} (h0 : motive start)
    (hstep : ∀ s e, Reach step ok start s → motive s → ok s e → motive (step s e))
    {s : σ} (h : Reach step ok start s) : motive s := by
  induction h with
  | start => exact h0
  | step hr hok ih => exact hstep _ _ hr ih hok

/-- Weakening the guard only adds runs. -/
theorem Reach.mono (hmono : ∀ s e, ok s e → ok' s e) {s : σ}
    (h : Reach step ok start s) : Reach step ok' start s := by
  induction h with
  | start => exact .start
  | step _ hok ih => exact .step ih (hmono _ _ hok)

/-- Every step of the explicit run `es` from `s` satisfies the guard. -/
def okRun (step : σ → ε → σ) (ok : σ → ε → Prop) : σ → List ε → Prop
  | _, [] => True
  | s, e :: es => ok s e ∧ okRun step ok (step s e) es

instance okRun.decidable [∀ s e, Decidable (ok s e)] :
    ∀ (s : σ) (es : List ε), Decidable (okRun step ok s es)
  | _, [] => inferInstanceAs (Decidable True)
  | s, e :: es =>
      have := okRun.decidable (step s e) es
      inferInstanceAs (Decidable (ok s e ∧ okRun step ok (step s e) es))

theorem okRun_append {es es' : List ε} {s : σ} :
    okRun step ok s (es ++ es') ↔ okRun step ok s es ∧ okRun step ok (es.foldl step s) es' := by
  induction es generalizing s with
  | nil => simp [okRun]
  | cons e es ih => rw [List.cons_append, okRun, okRun, ih, List.foldl_cons, and_assoc]

/-- Two guards that agree on the events `p` inside an invariant of these events agree on their runs. -/
theorem okRun_congr {I : σ → Prop} {p : ε → Prop} (hI : ∀ s e, I s → p e → I (step s e))
    (hok : ∀ s e, I s → p e → (ok s e ↔ ok' s e)) :
    ∀ {es : List ε} {s : σ}, I s → (∀ e ∈ es, p e) → (okRun step ok s es ↔ okRun step ok' s es) := by
  intro es
  induction es with
  | nil => exact fun _ _ => Iff.rfl
  | cons e es ih =>
    intro s hs hp
    obtain ⟨he, hes⟩ := List.forall_mem_cons.mp hp
    exact and_congr (hok s e hs he) (ih (hI s e hs he) hes)

/-- What holds of all events of the run may be added to the guard. -/
theorem okRun.and_forall {p : ε → Prop} :
    ∀ {es : List ε} {s : σ}, okRun step ok s es → (∀ e ∈ es, p e) →
      okRun step (fun s e => ok s e ∧ p e) s es := by
  intro es
  induction es with
  | nil => intro _ _ _; trivial
  | cons e es ih =>
    intro s hrun hp
    exact ⟨⟨hrun.1, hp e List.mem_cons_self⟩, ih hrun.2 fun e' he' => hp e' (List.mem_cons_of_mem e he')⟩

/-- What the guard implies in the states of its own runs may take its place. -/
theorem okRun.of_reach (hok : ∀ s e, Reach step ok start s → ok s e → ok' s e) :
    ∀ {es : List ε} {s : σ}, Reach step ok start s → okRun step ok s es → okRun step ok' s es := by
  intro es
  induction es with
  | nil => intro _ _ _; trivial
  | cons e es ih =>
    intro s hr hrun
    exact ⟨hok s e hr hrun.1, ih (hr.step hrun.1) hrun.2⟩

/-- An explicit guarded run witnesses reachability of its last state. -/
theorem Reach.foldl {s : σ} (h : Reach step ok start s) :
    ∀ {es : List ε}, okRun step ok s es → Reach step ok start (es.foldl step s) := by
  intro es
  induction es generalizing s with
  | nil => intro _; exact h
  | cons e es ih => intro hrun; exact ih (h.step hrun.1) hrun.2

/-- **The history rule.**  If the state always fits a history, and a guarded step fits some extension of it, then
a run has one history that grows with it: what it is at a point of the run it stays a prefix of. -/
theorem okRun.histories {β : Type w} {R : σ → List β → Prop} (h0 : R start [])
    (hstep : ∀ s e h, Reach step ok start s → R s h → ok s e → ∃ more, R (step s e) (h ++ more))
    {es : List ε} (hrun : okRun step ok start es) :
    ∃ H : ℕ → List β, (∀ m n, m ≤ n → H m <+: H n) ∧ ∀ n, R ((es.take n).foldl step start) (H n) := by
  have hnext : ∀ n h, R ((es.take n).foldl step start) h →
      ∃ more, R ((es.take (n + 1)).foldl step start) (h ++ more) := by
    intro n h hR
    rcases Nat.lt_or_ge n es.length with hlt | hge
    · rw [List.take_succ_eq_append_getElem hlt, List.foldl_append]
      have hsplit : es.take n ++ es[n] :: es.drop (n + 1) = es := by
        rw [List.getElem_cons_drop, List.take_append_drop]
      rw [← hsplit, okRun_append] at hrun
      exact hstep _ _ h (Reach.start.foldl hrun.1) hR hrun.2.1
    · rw [List.take_of_length_le (Nat.le_succ_of_le hge)]
      rw [List.take_of_length_le hge] at hR
      exact ⟨[], by rwa [List.append_nil]⟩
  -- the history up to `n`, with the proof that it fits, so that the next step can extend it
  let H : ∀ n, { h : List β // R ((es.take n).foldl step start) h } :=
    Nat.rec ⟨[], h0⟩ fun n h => ⟨h.1 ++ (hnext n h.1 h.2).choose, (hnext n h.1 h.2).choose_spec⟩
  refine ⟨fun n => (H n).1, ?_, fun n => (H n).2⟩
  intro m n hle
  induction hle with
  | refl => exact List.prefix_rfl
  | step _ ih => exact ih.trans (List.prefix_append _ _)

/-- What a run from `s` emits. -/
def outputs {β : Type w} (step : σ → ε → σ) (out : σ → ε → List β) : σ → List ε → List β
  | _, [] => []
  | s, e :: es => out s e ++ outputs step out (step s e) es

theorem outputs_concat {β : Type w} (out : σ → ε → List β) (s : σ) (es : List ε) (e : ε) :
    outputs step out s (es ++ [e]) = outputs step out s es ++ out (es.foldl step s) e := by
  induction es generalizing s with
  | nil => simp [outputs]
  | cons e' es ih => rw [List.cons_append, outputs, outputs, ih, List.foldl_cons, List.append_assoc]

/-- `P` holds in `s` and in every later state of the explicit run `es` from `s`. -/
def Along (step : σ → ε → σ) (P : σ → Prop) : σ → List ε → Prop
  | s, [] => P s
  | s, e :: es => P s ∧ Along step P (step s e) es

theorem Along.head {P : σ → Prop} {s : σ} : ∀ {es : List ε}, Along step P s es → P s
  | [], h => h
  | _ :: _, h => h.1

/-- **The exact run rule.**  Where `I` is kept by every step and, inside `I`, a step from a state of
`P` stays in `P` exactly when the guard holds, a run stays in `P` iff all of its steps are guarded. -/
theorem along_iff_okRun {I P : σ → Prop} (hI : ∀ s e, I s → I (step s e))
    (hP : ∀ s e, I s → P s → (P (step s e) ↔ ok s e)) :
    ∀ {s : σ} (es : List ε), I s → P s → (Along step P s es ↔ okRun step ok s es) := by
  intro s es
  induction es generalizing s with
  | nil => intro _ hPs; exact ⟨fun _ => trivial, fun _ => hPs⟩
  | cons e es ih =>
    intro hIs hPs
    constructor
    · intro h
      have hok : ok s e := (hP s e hIs hPs).mp h.2.head
      exact ⟨hok, (ih (hI s e hIs) h.2.head).mp h.2⟩
    · intro h
      have hPe : P (step s e) := (hP s e hIs hPs).mpr h.1
      exact ⟨hPs, (ih (hI s e hIs) hPe).mpr h.2⟩

end Runs

/-- A loop whose body is a chain of `r`-steps is a chain of `r`-steps. -/
theorem reflTransGen_foldl {σ : Type u} {α : Type v} {r : σ → σ → Prop} {f : σ → α → σ} :
    ∀ {xs : List α}, (∀ x ∈ xs, ∀ s, Relation.ReflTransGen r s (f s x)) →
      ∀ s, Relation.ReflTransGen r s (xs.foldl f s) := by
  intro xs
  induction xs with
  | nil => intro _ s; exact .refl
  | cons x xs ih =>
    intro h s
    have htail : ∀ y ∈ xs, ∀ s, Relation.ReflTransGen r s (f s y) :=
      fun y hy => h y (List.mem_cons_of_mem x hy)
    exact (h x List.mem_cons_self s).trans (ih htail (f s x))

/-- **The narrowing loop.**  If each turn of a loop narrows `p` by what it asks of its item, the loop
narrows `p` by what is asked of all items.  `I` is what the turns keep meanwhile. -/
theorem foldl_narrows {σ : Type u} {α : Type v} {f : σ → α → σ} {I p : σ → Prop} {q : α → Prop}
    (hI : ∀ s x, I s → I (f s x)) (hp : ∀ s x, I s → (p (f s x) ↔ p s ∧ q x)) :
    ∀ (xs : List α) (s : σ), I s → (p (xs.foldl f s) ↔ p s ∧ ∀ x ∈ xs, q x) := by
  intro xs
  induction xs with
  | nil => simp
  | cons x xs ih =>
    intro s hs
    rw [List.foldl_cons, ih (f s x) (hI s x hs), hp s x hs, List.forall_mem_cons, and_assoc]

/-- An invariant of the steps is an invariant of the chains. -/
theorem reflTransGen_invariant {σ : Type u} {r : σ → σ → Prop} {motive : σ → Prop}
    (hstep : ∀ s t, r s t → motive s → motive t) {s t : σ} (h : Relation.ReflTransGen r s t)
    (hs : motive s) : motive t := by
  induction h with
  | refl => exact hs
  | tail _ hrt ih => exact hstep _ _ hrt ih

end MultiPaxosDB.Lib
