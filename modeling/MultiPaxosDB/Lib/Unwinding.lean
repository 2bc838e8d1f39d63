/-
# MultiPaxosDB.Lib.Unwinding — events an observer cannot tell from nothing.

The events of a run are split by `seen`.  A relation `R` between states *unwinds* the others when such
an event, taken on one side only, is silent and keeps `R`, and an event that is seen, taken on both
sides, gives the same messages and keeps `R`.  A run is then related to its purge — the run of its seen
events alone — and shows the observer the same messages (`Unwinds.purge`), so two runs with the same seen
events cannot be told apart (`Unwinds.alike`).
-/
import MultiPaxosDB.Lib.Brackets

namespace MultiPaxosDB.Lib

variable {σ ε μ : Type*}

structure Unwinds (step : σ → ε → σ) (sent : σ → ε → List μ) (seen : ε → Bool) (ok : ε → Prop)
    (R : σ → σ → Prop) : Prop where
  hidden : ∀ {s t e}, R s t → seen e = false → ok e → R (step s e) t ∧ sent s e = []
  shown : ∀ {s t e}, R s t → seen e = true → ok e → R (step s e) (step t e) ∧ sent s e = sent t e

namespace Unwinds

variable {step : σ → ε → σ} {sent : σ → ε → List μ} {seen : ε → Bool} {ok : ε → Prop} {R : σ → σ → Prop}

theorem purge (h : Unwinds step sent seen ok R) {es : List ε} {s t : σ} (hR : R s t)
    (hok : ∀ e ∈ es, ok e) :
    R (es.foldl step s) ((es.filter seen).foldl step t) ∧
      trace step sent s es = trace step sent t (es.filter seen) := by
  induction es generalizing s t with
  | nil => exact ⟨hR, rfl⟩
  | cons e es ih =>
    obtain ⟨hfirst, hrest⟩ := List.forall_mem_cons.mp hok
    cases hseen : seen e with
    | false =>
      obtain ⟨hstep, hsilent⟩ := h.hidden hR hseen hfirst
      rw [List.filter_cons_of_neg (by rw [hseen]; exact Bool.false_ne_true), trace, hsilent]
      exact ih hstep hrest
    | true =>
      obtain ⟨hstep, hsame⟩ := h.shown hR hseen hfirst
      obtain ⟨hend, htrace⟩ := ih hstep hrest
      rw [List.filter_cons_of_pos hseen, trace, trace, hsame, htrace]
      exact ⟨hend, rfl⟩

/-- Both runs are related to one run, that of the events they have in common. -/
theorem alike (h : Unwinds step sent seen ok R) {es es' : List ε} {s : σ} (hR : R s s)
    (hok : ∀ e ∈ es, ok e) (hok' : ∀ e ∈ es', ok e) (hseen : es.filter seen = es'.filter seen) :
    (∃ t, R (es.foldl step s) t ∧ R (es'.foldl step s) t) ∧
      trace step sent s es = trace step sent s es' := by
  obtain ⟨hend, htrace⟩ := h.purge hR hok
  obtain ⟨hend', htrace'⟩ := h.purge hR hok'
  rw [hseen] at hend htrace
  exact ⟨⟨_, hend, hend'⟩, htrace.trans htrace'.symm⟩

end Unwinds

end MultiPaxosDB.Lib
