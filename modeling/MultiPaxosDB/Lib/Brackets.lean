/-
# MultiPaxosDB.Lib.Brackets — runs whose messages come in pairs.

An observer of a run sees `trace`, the messages of its steps in order.  `brackets` is the trace of whole rounds:
for each `a` the message that opens it, then the one that closes it.  `Bracketed` is what a system keeps to run
in rounds: `idle` between two of them and `busy a` inside `a`.  It may also give a round up, and is then `lost`
to it: a state from which the next message closes nothing.  A trace of whole rounds rules that out, and takes
the system from idle to idle (`Bracketed.run`).

Both predicates are told the events of the run and the rounds that are over, so that they can speak of them.
-/
import MultiPaxosDB.Lib.Transition

namespace MultiPaxosDB.Lib

variable {σ ε μ α : Type*}

/-- The messages of a run. -/
def trace (step : σ → ε → σ) (sent : σ → ε → List μ) : σ → List ε → List μ
  | _, [] => []
  | s, e :: es => sent s e ++ trace step sent (step s e) es

/-- Messages that the event alone decides. -/
theorem trace_eq_flatMap (step : σ → ε → σ) (f : ε → List μ) (s : σ) (es : List ε) :
    trace step (fun _ e => f e) s es = es.flatMap f := by
  induction es generalizing s with
  | nil => rfl
  | cons e es ih => rw [trace, ih, List.flatMap_cons]

/-- The messages of whole rounds. -/
def brackets (opens closes : α → μ) (rounds : List α) : List μ := rounds.flatMap fun a => [opens a, closes a]

/-- How a system runs in rounds, one message a step at most. -/
structure Bracketed (step : σ → ε → σ) (sent : σ → ε → List μ) (ok : σ → ε → Prop) (opens closes : α → μ)
    (idle : List ε → List α → σ → Prop) (busy : List ε → List α → α → σ → Prop) (lost : σ → Prop) : Prop where
  idle_step : ∀ {past ended s e}, idle past ended s → ok s e →
    (sent s e = [] ∧ idle (past ++ [e]) ended (step s e)) ∨
      ∃ m, sent s e = [m] ∧ ∀ a, m = opens a → busy (past ++ [e]) ended a (step s e)
  busy_step : ∀ {past ended a s e}, busy past ended a s → ok s e →
    (sent s e = [] ∧ (busy (past ++ [e]) ended a (step s e) ∨ lost (step s e))) ∨
      ∃ m, sent s e = [m] ∧ (m = closes a → idle (past ++ [e]) (ended ++ [a]) (step s e))
  lost_step : ∀ {s e}, lost s → ok s e →
    (sent s e = [] ∧ lost (step s e)) ∨ ∃ m, sent s e = [m] ∧ ∀ a, m ≠ closes a

namespace Bracketed

variable {step : σ → ε → σ} {sent : σ → ε → List μ} {ok : σ → ε → Prop} {opens closes : α → μ}
  {idle : List ε → List α → σ → Prop} {busy : List ε → List α → α → σ → Prop} {lost : σ → Prop}

/-- A round that was given up is not closed. -/
theorem trace_ne_of_lost (h : Bracketed step sent ok opens closes idle busy lost) {a : α} {ms : List μ}
    {es : List ε} {s : σ} (hs : lost s) (hok : okRun step ok s es) : trace step sent s es ≠ closes a :: ms := by
  induction es generalizing s with
  | nil => exact List.cons_ne_nil _ _ ∘ Eq.symm
  | cons e es ih =>
    rw [trace]
    rcases h.lost_step hs hok.1 with ⟨hsilent, hnext⟩ | ⟨m, hm, hne⟩
    · rw [hsilent]
      exact ih hnext hok.2
    · rw [hm]
      exact fun heq => hne a (List.cons.inj heq).1

/-- **Whole rounds lead from idle to idle.** -/
theorem run (h : Bracketed step sent ok opens closes idle busy lost) {past : List ε} {ended rounds : List α}
    {s : σ} {es : List ε} (hs : idle past ended s) (hok : okRun step ok s es)
    (htrace : trace step sent s es = brackets opens closes rounds) :
    idle (past ++ es) (ended ++ rounds) (es.foldl step s) := by
  -- inside a round the trace still owes the message that closes it
  suffices hboth : (idle past ended s → ∀ rounds, trace step sent s es = brackets opens closes rounds →
      idle (past ++ es) (ended ++ rounds) (es.foldl step s)) ∧
      ∀ a, busy past ended a s → ∀ rounds, trace step sent s es = closes a :: brackets opens closes rounds →
        idle (past ++ es) (ended ++ a :: rounds) (es.foldl step s) from hboth.1 hs rounds htrace
  clear htrace hs rounds
  induction es generalizing past ended s with
  | nil =>
    constructor
    · rintro hs (_ | ⟨a, rounds⟩) htrace
      · rw [List.append_nil, List.append_nil]
        exact hs
      · cases htrace
    · intro a _ rounds htrace
      cases htrace
  | cons e es ih =>
    rw [trace, List.foldl_cons, List.append_cons]
    constructor
    · intro hs rounds htrace
      rcases h.idle_step hs hok.1 with ⟨hsilent, hnext⟩ | ⟨m, hm, hnext⟩
      · rw [hsilent] at htrace
        exact (ih hok.2).1 hnext rounds htrace
      · rw [hm] at htrace
        cases rounds with
        | nil => cases htrace
        | cons a rounds =>
          obtain ⟨hopen, hrest⟩ := List.cons.inj htrace
          exact (ih hok.2).2 a (hnext a hopen) rounds hrest
    · intro a hs rounds htrace
      rcases h.busy_step hs hok.1 with ⟨hsilent, hnext | hlost⟩ | ⟨m, hm, hnext⟩
      · rw [hsilent] at htrace
        exact (ih hok.2).2 a hnext rounds htrace
      · rw [hsilent] at htrace
        exact absurd htrace (h.trace_ne_of_lost hlost hok.2)
      · rw [hm] at htrace
        obtain ⟨hclose, hrest⟩ := List.cons.inj htrace
        rw [List.append_cons ended]
        exact (ih hok.2).1 (hnext hclose) rounds hrest

end Bracketed

end MultiPaxosDB.Lib
