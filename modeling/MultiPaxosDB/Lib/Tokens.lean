/-
# MultiPaxosDB.Lib.Tokens — tokens that several sites log, each of them once.

A token waits at the site it arrives at until that site issues it: logs it, perhaps, and sends it to other
sites, where it is on its way until it is logged or dropped.  No site knows what another has issued, and no
site looks a token up before it logs it.  `Unique` is why a log repeats no token all the same: a site has a
token in one of three places at most once, and a token that waits at a site is at no other.  Arrivals, moves
of a site (`Unique.move`) and copies from the log of another site (`Unique.copy`) keep that, the last only of
tokens that are new to the log and not on their way to it.
-/
import Mathlib.Data.List.Nodup
import Mathlib.Data.List.Perm.Subperm
import Mathlib.Logic.Function.Basic
import Mathlib.Tactic.Common

namespace MultiPaxosDB.Lib

universe u v

variable {ι : Type u} {τ : Type v}

theorem nodup_of_subperm {l l' : List τ} (h : l.Subperm l') (hl' : l'.Nodup) : l.Nodup := by
  obtain ⟨m, hperm, hsub⟩ := h
  exact hperm.nodup_iff.mp (hl'.sublist hsub)

structure Board (ι : Type u) (τ : Type v) where
  logged : ι → List τ
  coming : ι → List τ
  waiting : ι → List τ
  /-- The tokens that have arrived anywhere. -/
  used : τ → Prop

namespace Board

/-- The tokens of a site that it does not have to issue. -/
def taken (b : Board ι τ) (i : ι) : List τ := b.logged i ++ b.coming i

structure Unique (b : Board ι τ) : Prop where
  places : ∀ i, (b.taken i ++ b.waiting i).Nodup
  apart : ∀ i j, i ≠ j → ∀ t ∈ b.waiting i, t ∉ b.taken j ++ b.waiting j
  used : ∀ i, ∀ t ∈ b.taken i ++ b.waiting i, b.used t

/-- The sites other than `i` are as before, except that `sent` may be on its way to them. -/
structure Others (b b' : Board ι τ) (i : ι) (sent : List τ) : Prop where
  logged : ∀ j, j ≠ i → b'.logged j = b.logged j
  coming : ∀ j, j ≠ i → b'.coming j = b.coming j ∨ b'.coming j = b.coming j ++ sent
  waiting : ∀ j, j ≠ i → b'.waiting j = b.waiting j

variable {b b' : Board ι τ} {i : ι} {sent : List τ}

theorem Unique.not_taken (h : b.Unique) {i : ι} {t : τ} (ht : t ∈ b.waiting i) (j : ι) : t ∉ b.taken j := by
  intro hmem
  by_cases hij : i = j
  · subst hij
    exact (List.nodup_append.mp (h.places i)).2.2 t hmem t ht rfl
  · exact h.apart i j hij t ht (List.mem_append_left _ hmem)

theorem Others.mem_taken (ho : b.Others b' i sent) {j : ι} (hj : j ≠ i) {t : τ} (ht : t ∈ b'.taken j) :
    t ∈ b.taken j ∨ t ∈ sent := by
  rw [taken, ho.logged j hj] at ht
  rcases List.mem_append.mp ht with hlog | hcome
  · exact .inl (List.mem_append_left _ hlog)
  · rcases ho.coming j hj with heq | heq
    · rw [heq] at hcome
      exact .inl (List.mem_append_right _ hcome)
    · rw [heq] at hcome
      exact (List.mem_append.mp hcome).imp_left (List.mem_append_right _)

/-- The step rule: what the acting site has is nowhere else twice, and what waits there afterwards is what
waited there and is not sent, or is new. -/
theorem Unique.of_site (h : b.Unique) (ho : b.Others b' i sent) (hused : ∀ t, b.used t → b'.used t)
    (hself : (b'.taken i ++ b'.waiting i).Nodup) (hsent : sent.Nodup) (hwaited : sent ⊆ b.waiting i)
    (hstill : ∀ t ∈ b'.waiting i, (t ∈ b.waiting i ∧ t ∉ sent) ∨ (¬ b.used t ∧ b'.used t))
    (htaken : ∀ t ∈ b'.taken i, b.used t ∧ ∀ j, j ≠ i → t ∉ b.waiting j) : b'.Unique := by
  -- at another site, what is sent is new
  have hfar : ∀ j, j ≠ i → ∀ t ∈ sent, t ∉ b.taken j ++ b.waiting j := fun j hj t ht =>
    h.apart i j (Ne.symm hj) t (hwaited ht)
  have hsentUsed : ∀ t ∈ sent, b.used t := fun t ht => h.used i t (List.mem_append_right _ (hwaited ht))
  have hfree : ∀ j, j ≠ i → ∀ t ∈ b'.waiting i, t ∉ b'.taken j ++ b'.waiting j := by
    intro j hj t ht hmem
    rw [ho.waiting j hj] at hmem
    rcases hstill t ht with ⟨hold, hnot⟩ | ⟨hnew, -⟩
    · rcases List.mem_append.mp hmem with hmem | hmem
      · rcases ho.mem_taken hj hmem with hmem | hmem
        · exact h.not_taken hold j hmem
        · exact hnot hmem
      · exact h.apart i j (Ne.symm hj) t hold (List.mem_append_right _ hmem)
    · rcases List.mem_append.mp hmem with hmem | hmem
      · rcases ho.mem_taken hj hmem with hmem | hmem
        · exact hnew (h.used j t (List.mem_append_left _ hmem))
        · exact hnew (hsentUsed t hmem)
      · exact hnew (h.used j t (List.mem_append_right _ hmem))
  refine ⟨?_, ?_, ?_⟩
  · intro j
    by_cases hj : j = i
    · subst hj
      exact hself
    · rw [taken, ho.logged j hj, ho.waiting j hj]
      rcases ho.coming j hj with heq | heq
      · rw [heq]
        exact h.places j
      · have hperm : (b.logged j ++ b'.coming j ++ b.waiting j).Perm (sent ++ (b.taken j ++ b.waiting j)) := by
          rw [heq, ← List.append_assoc, List.append_assoc _ sent]
          exact List.perm_append_comm_assoc _ _ _
        rw [hperm.nodup_iff]
        refine List.nodup_append.mpr ⟨hsent, h.places j, ?_⟩
        rintro t ht _ hmem rfl
        exact hfar j hj t ht hmem
  · intro j k hjk t ht hmem
    by_cases hj : j = i
    · subst hj
      exact hfree k hjk.symm t ht hmem
    · rw [ho.waiting j hj] at ht
      by_cases hk : k = i
      · subst hk
        rcases List.mem_append.mp hmem with hmem | hmem
        · exact (htaken t hmem).2 j hj ht
        · exact hfree j hj t hmem (List.mem_append_right _ (by rwa [ho.waiting j hj]))
      · rw [ho.waiting k hk] at hmem
        rcases List.mem_append.mp hmem with hmem | hmem
        · rcases ho.mem_taken hk hmem with hmem | hmem
          · exact h.not_taken ht k hmem
          · exact hfar j hj t hmem (List.mem_append_right _ ht)
        · exact h.apart j k hjk t ht (List.mem_append_right _ hmem)
  · intro j t ht
    by_cases hj : j = i
    · subst hj
      rcases List.mem_append.mp ht with ht | ht
      · exact hused t (htaken t ht).1
      · rcases hstill t ht with ⟨hold, -⟩ | ⟨-, hnew⟩
        · exact hused t (h.used j t (List.mem_append_right _ hold))
        · exact hnew
    · rw [ho.waiting j hj] at ht
      rcases List.mem_append.mp ht with ht | ht
      · rcases ho.mem_taken hj ht with ht | ht
        · exact hused t (h.used j t (List.mem_append_left _ ht))
        · exact hused t (hsentUsed t ht)
      · exact hused t (h.used j t (List.mem_append_right _ ht))

/-- New tokens arrive at a site. -/
def receive [DecidableEq ι] (b : Board ι τ) (i : ι) (ts : List τ) (used : τ → Prop) : Board ι τ :=
  { b with waiting := Function.update b.waiting i (b.waiting i ++ ts), used := used }

section Receive

variable [DecidableEq ι] {t : List τ} {u : τ → Prop}

theorem waiting_receive (b : Board ι τ) (i : ι) (ts : List τ) (used : τ → Prop) :
    (b.receive i ts used).waiting i = b.waiting i ++ ts := Function.update_self ..

theorem Others.receive (ho : b.Others b' i sent) : (b.receive i t u).Others b' i sent where
  logged := ho.logged
  coming := ho.coming
  waiting := fun j hj => (ho.waiting j hj).trans (Function.update_of_ne hj _ _).symm

theorem Unique.receive (h : b.Unique) (ht : t.Nodup) (hnew : ∀ x ∈ t, ¬ b.used x)
    (hused : ∀ x, b.used x → u x) (ht' : ∀ x ∈ t, u x) : (b.receive i t u).Unique := by
  refine h.of_site (i := i) ⟨fun _ _ => rfl, fun _ _ => .inl rfl, fun j hj => Function.update_of_ne hj _ _⟩ hused ?_
    List.nodup_nil (List.nil_subset _) ?_ ?_
  · rw [waiting_receive, ← List.append_assoc]
    refine List.nodup_append.mpr ⟨h.places i, ht, ?_⟩
    rintro x hx _ hmem rfl
    exact hnew x hmem (h.used i x hx)
  · intro x hx
    rw [waiting_receive] at hx
    rcases List.mem_append.mp hx with hold | hlast
    · exact .inl ⟨hold, List.not_mem_nil⟩
    · exact .inr ⟨hnew x hlast, ht' x hlast⟩
  · intro x hx
    exact ⟨h.used i x (List.mem_append_left _ hx), fun j _ hmem => h.not_taken hmem i hx⟩

end Receive

/-- **A move of one site.**  It issues `sent` of what waits there, and logs some of that, or some of what was
on its way to it. -/
theorem Unique.move (h : b.Unique) {new : List τ} (ho : b.Others b' i sent)
    (hlogged : b'.logged i = b.logged i ++ new)
    (hplaces : (new ++ (b'.coming i ++ b'.waiting i)).Subperm (b.coming i ++ b.waiting i))
    (hcoming : b'.coming i ⊆ b.coming i) (hsent : (sent ++ b'.waiting i).Subperm (b.waiting i))
    (hnew : ∀ t ∈ new, t ∈ b.coming i ∨ t ∈ sent) (hused : ∀ t, b.used t → b'.used t) : b'.Unique := by
  have hwait : (b.waiting i).Nodup := List.Nodup.of_append_right (h.places i)
  have hsplit := List.nodup_append.mp (nodup_of_subperm hsent hwait)
  have hwaited : sent ⊆ b.waiting i := fun t ht => hsent.subset (List.mem_append_left _ ht)
  refine h.of_site ho hused ?_ hsplit.1 hwaited ?_ ?_
  · rw [taken, hlogged, List.append_assoc, List.append_assoc]
    refine nodup_of_subperm ?_ (h.places i)
    rw [taken, List.append_assoc, List.subperm_append_left]
    exact hplaces
  · intro t ht
    exact .inl ⟨hsent.subset (List.mem_append_right _ ht), fun hmem => hsplit.2.2 t hmem t ht rfl⟩
  · have hold : ∀ t ∈ b.taken i, b.used t ∧ ∀ j, j ≠ i → t ∉ b.waiting j := fun t ht =>
      ⟨h.used i t (List.mem_append_left _ ht), fun j _ hmem => h.not_taken hmem i ht⟩
    intro t ht
    rw [taken, hlogged] at ht
    rcases List.mem_append.mp ht with ht | ht
    · rcases List.mem_append.mp ht with ht | ht
      · exact hold t (List.mem_append_left _ ht)
      · rcases hnew t ht with hmem | hmem
        · exact hold t (List.mem_append_right _ hmem)
        · refine ⟨h.used i t (List.mem_append_right _ (hwaited hmem)), fun j hj hw => ?_⟩
          exact h.apart j i hj t hw (List.mem_append_right _ (hwaited hmem))
    · exact hold t (List.mem_append_right _ (hcoming ht))

/-- A site copies tokens of another's log that are new to its own and not on their way to it. -/
theorem Unique.copy (h : b.Unique) {new : List τ} {k : ι} (ho : b.Others b' i [])
    (hlogged : b'.logged i = b.logged i ++ new) (hcoming : (b'.coming i).Subperm (b.coming i))
    (hwaiting : (b'.waiting i).Subperm (b.waiting i)) (hsub : new.Sublist (b.logged k))
    (hnew : ∀ t ∈ new, t ∉ b.taken i) (hused : ∀ t, b.used t → b'.used t) : b'.Unique := by
  have hthere : ∀ t ∈ new, t ∈ b.taken k := fun t ht => List.mem_append_left _ (hsub.subset ht)
  refine h.of_site ho hused ?_ List.nodup_nil (List.nil_subset _) ?_ ?_
  · have hperm : (b'.taken i ++ b'.waiting i).Subperm (new ++ (b.taken i ++ b.waiting i)) := by
      rw [taken, hlogged, List.append_assoc, List.append_assoc]
      refine (List.perm_append_comm_assoc _ _ _).subperm.trans ?_
      rw [List.subperm_append_left, taken, List.append_assoc, List.subperm_append_left]
      exact hcoming.append hwaiting
    have hnodup : new.Nodup := (h.places k).of_append_left.of_append_left.sublist hsub
    refine nodup_of_subperm hperm (List.nodup_append.mpr ⟨hnodup, h.places i, ?_⟩)
    rintro t ht _ hmem rfl
    rcases List.mem_append.mp hmem with hmem | hmem
    · exact hnew t ht hmem
    · exact h.not_taken hmem k (hthere t ht)
  · exact fun t ht => .inl ⟨hwaiting.subset ht, List.not_mem_nil⟩
  · intro t ht
    rw [taken, hlogged] at ht
    have hat : ∃ k, t ∈ b.taken k := by
      rcases List.mem_append.mp ht with ht | ht
      · rcases List.mem_append.mp ht with ht | ht
        · exact ⟨i, List.mem_append_left _ ht⟩
        · exact ⟨k, hthere t ht⟩
      · exact ⟨i, List.mem_append_right _ (hcoming.subset ht)⟩
    obtain ⟨k', hk'⟩ := hat
    exact ⟨h.used k' t (List.mem_append_left _ hk'), fun j _ hmem => h.not_taken hmem k' hk'⟩

end Board

end MultiPaxosDB.Lib
