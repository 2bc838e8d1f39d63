/-
# MultiPaxosDB.Timeouts — how long a stable leader keeps a lock.

Every iteration of `HandleRPCs` ends with a sweep that aborts what was prepared more than `TPC_LOCK_TIMEOUT_MS` ago.
The sweep looks at `prepareTimestamps` and the locks belong to what the WAL index calls pending, and nothing in the
source ties the two together: a pending transaction without a timestamp would never time out, and one whose timestamp
is set anew would time out late.  `Ledger.Stamps` says what an event does to both.  What is pending after it was
pending before, under the same timestamp, or is prepared by it and stamped with the time of now.

On a stable leader the requests that are still to be validated are never among the prepared ones, so no timestamp is
ever renewed (`Aged`), and the age that the sweep sees is the time for which the lock has been held
(`lock_holders_young`).
-/
import MultiPaxosDB.Aborts
import MultiPaxosDB.Reservations

namespace MultiPaxosDB

open Lib

/-! ## Timestamps -/

namespace Ledger

/-- What is pending in `l'` was pending in `l`, under the same timestamp, or is one of `new`, with one of its own. -/
structure Stamps (new : Int → Prop) (l l' : Ledger) : Prop where
  wal : l'.wal.Ok
  clock : l.clock ≤ l'.clock
  pending : ∀ t, l'.wal.pendingEntry t ≠ none →
    (l.wal.pendingEntry t ≠ none ∧ l'.prepareTimestamps[t]? = l.prepareTimestamps[t]?) ∨
      (new t ∧ ∃ time, time ≤ l'.clock ∧ l'.prepareTimestamps[t]? = some time)

variable {l l' l'' : Ledger} {new : Int → Prop}

/-- Fewer transactions are pending, the timestamps of the others are as they were. -/
theorem Stamps.fewer (hw : l'.wal.Ok) (hclock : l.clock ≤ l'.clock)
    (hpending : ∀ t, l'.wal.pendingEntry t ≠ none →
      l.wal.pendingEntry t ≠ none ∧ l'.prepareTimestamps[t]? = l.prepareTimestamps[t]?) : l.Stamps new l' :=
  ⟨hw, hclock, fun t ht => .inl (hpending t ht)⟩

theorem Stamps.refl (hw : l.wal.Ok) : l.Stamps new l := .fewer hw le_rfl fun _ ht => ⟨ht, rfl⟩

theorem Stamps.trans (h : l.Stamps new l') (h' : l'.Stamps new l'') : l.Stamps new l'' := by
  refine ⟨h'.wal, h.clock.trans h'.clock, ?_⟩
  intro t ht
  rcases h'.pending t ht with ⟨hold, hsame⟩ | hnew
  · rw [hsame]
    refine (h.pending t hold).imp_right ?_
    rintro ⟨hnew, time, htime, hstamp⟩
    exact ⟨hnew, time, htime.trans h'.clock, hstamp⟩
  · exact .inr hnew

theorem Stamps.foldl {α : Type} {f : Ledger → α → Ledger} (xs : List α) (hw : l.wal.Ok)
    (hstep : ∀ x ∈ xs, ∀ l : Ledger, l.wal.Ok → l.Stamps new (f l x)) : l.Stamps new (xs.foldl f l) := by
  refine List.foldlRecOn (motive := fun l' => l.Stamps new l') xs f (.refl hw) ?_
  intro l' hl' x hx
  exact hl'.trans (hstep x hx l' hl'.wal)

theorem stamps_prepareTransaction (hw : l.wal.Ok) {r : TransferReq} (hnew : new r.tid) (ballot : Ballot) :
    l.Stamps new (l.prepareTransaction r ballot) := by
  refine ⟨hw.prepareTransaction r ballot, le_rfl, ?_⟩
  intro t ht
  have hpending : (l.prepareTransaction r ballot).wal.pendingEntry t =
      if t = r.tid then some (WAL.preparedEntry r ballot) else l.wal.pendingEntry t :=
    hw.pendingEntry_prepareTransaction r ballot t
  have hstamp : (l.prepareTransaction r ballot).prepareTimestamps[t]? =
      if t = r.tid then some l.clock else l.prepareTimestamps[t]? :=
    WAL.getElem?_insert_tid l.prepareTimestamps r.tid t l.clock
  by_cases heq : t = r.tid
  · rw [if_pos heq] at hstamp
    exact .inr ⟨heq ▸ hnew, l.clock, le_rfl, hstamp⟩
  · rw [if_neg heq] at hpending hstamp
    rw [hpending] at ht
    exact .inl ⟨ht, hstamp⟩

theorem stamps_commitTransaction (hw : l.wal.Ok) (r : TransferReq) (ballot : Ballot) :
    l.Stamps new (l.commitTransaction r ballot) := by
  have hsame := SamePending.commitTransaction hw r ballot
  have hkeep : (l.commitTransaction r ballot).clock = l.clock ∧
      (l.commitTransaction r ballot).prepareTimestamps = l.prepareTimestamps := by
    unfold commitTransaction
    split <;> exact ⟨rfl, rfl⟩
  refine .fewer hsame.ok hkeep.1.ge ?_
  intro t ht
  rw [hsame.pending] at ht
  exact ⟨ht, by rw [hkeep.2]⟩

theorem stamps_decide (hw : l.wal.Ok) (tid : Int) (isCommit : Bool) :
    l.Stamps new (l.processTpcDecision tid isCommit) := by
  have hclock : (l.processTpcDecision tid isCommit).clock = l.clock := by
    simp only [processTpcDecision, decision_wal]
    split <;> rfl
  refine .fewer ?_ hclock.ge ?_
  · rw [wal_processTpcDecision]
    exact hw.decideTransaction tid _
  · intro t ht
    rw [pendingEntry_processTpcDecision hw] at ht
    have hne : t ≠ tid := fun heq => ht (if_pos heq)
    rw [if_neg hne] at ht
    exact ⟨ht, by rw [(getElem?_processTpcDecision hw tid isCommit t).2, if_neg hne]⟩

theorem stamps_sweep (hw : l.wal.Ok) : l.Stamps new l.sweep := by
  rw [sweep_eq]
  exact .foldl l.expired hw fun tid _ l' hw' => stamps_decide hw' tid false

end Ledger

namespace ServerImpl

variable {s t : ServerImpl} {e : Event}

/-! ## What an event stamps -/

theorem stamps_admitAll {l : Ledger} (hw : l.wal.Ok) (ballot : Ballot) (batch : List BatchEntry) :
    l.Stamps (fun k => ∃ b ∈ batch, b.request.tid = k) (admitAll l ballot batch).ledger := by
  refine List.foldlRecOn (motive := fun a : Admission => l.Stamps (fun k => ∃ b ∈ batch, b.request.tid = k) a.ledger)
    batch (validateEntry ballot) (b := ⟨l, [], []⟩) (.refl hw) ?_
  intro a ha b hb
  unfold validateEntry
  split
  · exact ha
  · -- the locks are neither pending nor stamped
    have hlocked : l.Stamps (fun k => ∃ b ∈ batch, b.request.tid = k)
        ((a.ledger.lockInShard b.request.txn.sender).lockInShard b.request.txn.receiver) :=
      ⟨ha.wal, ha.clock, ha.pending⟩
    cases hcross : b.isCrossShard with
    | false => simpa [hcross] using hlocked
    | true =>
      simp only [if_true]
      apply hlocked.trans
      exact Ledger.stamps_prepareTransaction hlocked.wal ⟨b, hb, rfl⟩ ballot

/-- The transaction is in the batch that a prepare quorum validates. -/
def Validating (s : ServerImpl) (k : Int) : Prop := s.awaitPrepareDecision = true ∧ ∃ b ∈ s.current, b.request.tid = k

theorem Core.stamps (h : Core s e t) (hw : s.ledger.wal.Ok) (hown : e.own = true) :
    s.ledger.Stamps s.Validating t.ledger := by
  -- the validation happens in the prepare phase
  have hvalidated : s.awaitPrepareDecision = true →
      s.ledger.Stamps s.Validating
        (admitAll s.ledger s.promisedNum s.current).ledger := by
    intro hawait
    obtain ⟨hok, hclock, hpending⟩ := stamps_admitAll hw s.promisedNum s.current
    exact ⟨hok, hclock, fun k hk => (hpending k hk).imp_right fun hnew => ⟨⟨hawait, hnew.1⟩, hnew.2⟩⟩
  cases h with
  | promise | behind | accept | commit | synced | notSynced => cases hown
  | decision k isCommit => exact Ledger.stamps_decide hw k isCommit
  | sweep => exact Ledger.stamps_sweep hw
  | tick ms =>
    have hlater : s.ledger.clock ≤ s.ledger.clock + ms := by omega
    exact .fewer hw hlater fun k hk => ⟨hk, rfl⟩
  | reject a b hawait => exact hvalidated hawait
  | propose a b hawait => exact hvalidated hawait
  | abortPrepare a b =>
    have hsame : (((s.setPrepareCounts a b).abortRound true).clearRound).ledger = s.ledger :=
      foldl_releaseEntry_prepare s.current s.ledger
    rw [hsame]
    exact .refl hw
  | abortAccept a b =>
    refine Ledger.Stamps.foldl s.current hw ?_
    intro x _ l hl
    unfold releaseEntry
    split
    · exact ⟨hl, le_rfl, fun k hk => .inl ⟨hk, rfl⟩⟩
    · exact .refl hl
  | commitRound a b =>
    refine Ledger.Stamps.foldl s.current hw ?_
    intro x _ l hl
    unfold commitEntry
    split
    · exact .refl hl
    · have hfree : l.Stamps s.Validating
          (l.unlockBoth x.request.txn) := ⟨hl, le_rfl, fun k hk => .inl ⟨hk, rfl⟩⟩
      exact hfree.trans (Ledger.stamps_commitTransaction hfree.wal x.request s.acceptNum)
  | _ => exact .refl hw

theorem handle_stamps (hw : s.ledger.wal.Ok) (hown : e.own = true) :
    s.ledger.Stamps s.Validating
      (s.handle e).ledger := by
  generalize hu : s.handle e = u
  cases moves_of_handle hu with
  | done hcore => exact hcore.stamps hw hown
  | start hcore => exact hcore.stamps hw hown
  | retry hpre =>
    cases hpre with
    | staleBallot => exact .refl hw
    | synced | notSynced => cases hown

/-! ## Old transactions -/

/-- What is pending has a timestamp, which is not in the future. -/
def Stamped (s : ServerImpl) : Prop :=
  ∀ k, s.ledger.wal.pendingEntry k ≠ none →
    ∃ time, time ≤ s.ledger.clock ∧ s.ledger.prepareTimestamps[k]? = some time

theorem Stamped.handle (h : s.Stamped) (hw : s.ledger.wal.Ok) (hown : e.own = true) : (s.handle e).Stamped := by
  obtain ⟨-, hclock, hpending⟩ := handle_stamps hw hown
  intro k hk
  rcases hpending k hk with ⟨hold, hsame⟩ | ⟨-, hnew⟩
  · obtain ⟨time, htime, hstamp⟩ := h k hold
    exact ⟨time, htime.trans hclock, hsame.trans hstamp⟩
  · exact hnew

/-- The transactions `old` were pending with the timestamps `stamp`: none of them will be validated again, and those
that are still pending have theirs. -/
structure Aged (old : Int → Prop) (stamp : Int → Option Int) (s : ServerImpl) : Prop where
  queued : ∀ b ∈ s.pending, ¬ old b.request.tid
  unvalidated : s.awaitAcceptDecision = false → ∀ b ∈ s.current, ¬ old b.request.tid
  stamps : ∀ k, old k → s.ledger.wal.pendingEntry k ≠ none → s.ledger.prepareTimestamps[k]? = stamp k

variable {Q : Int → Prop} {old : Int → Prop} {stamp : Int → Option Int} {tids : List Int}

/-- An old request is neither queued nor waiting for its validation again. -/
theorem Core.queues (h : Core s e t) (hs : s.Aged old stamp) (hown : e.own = true)
    (hnew : ∀ b ∈ e.entries, ¬ old b.request.tid) :
    (∀ b ∈ t.pending, ¬ old b.request.tid) ∧
      (t.awaitAcceptDecision = false → ∀ b ∈ t.current, ¬ old b.request.tid) := by
  have henqueue : ∀ b' : BatchEntry, ¬ old b'.request.tid → ∀ b ∈ s.pending ++ [b'], ¬ old b.request.tid := by
    intro b' hb' b hb
    rcases List.mem_append.mp hb with hold | hlast
    · exact hs.queued b hold
    · rw [List.mem_singleton.mp hlast]
      exact hb'
  cases h with
  | promise | behind | accept | commit | synced | notSynced => cases hown
  | transfer call request => exact ⟨henqueue _ (hnew _ (List.mem_singleton.mpr rfl)), hs.unvalidated⟩
  | tpcPrepare call request => exact ⟨henqueue _ (hnew _ (List.mem_singleton.mpr rfl)), hs.unvalidated⟩
  | propose => exact ⟨hs.queued, fun hnot => by cases hnot⟩
  | reject | abortPrepare | commitRound | abortAccept =>
    exact ⟨hs.queued, fun _ b hb => absurd hb List.not_mem_nil⟩
  | _ => exact ⟨hs.queued, hs.unvalidated⟩

/-- **The step rule.** -/
theorem Aged.handle (h : s.Aged old stamp) (hs : s.Accounted Q tids) (hown : e.own = true)
    (hnew : ∀ b ∈ e.entries, ¬ old b.request.tid) : (s.handle e).Aged old stamp := by
  have hstamps : ∀ k, old k → (s.handle e).ledger.wal.pendingEntry k ≠ none →
      (s.handle e).ledger.prepareTimestamps[k]? = stamp k := by
    intro k hold hk
    rcases (handle_stamps hs.books.holding.wal hown).pending k hk with ⟨hbefore, hsame⟩ | ⟨⟨hawait, b, hb, hbk⟩, -⟩
    · rw [hsame]
      exact h.stamps k hold hbefore
    · -- in the prepare phase the batch is not validated yet
      have hnot := (hs.phase.prepare hawait).2.2.2.2
      exact absurd (hbk ▸ hold) (h.unvalidated hnot b hb)
  have hclear : ({ s with outbox := [] } : ServerImpl).Aged old stamp := ⟨h.queued, h.unvalidated, h.stamps⟩
  generalize hu : s.handle e = u at hstamps
  cases moves_of_handle hu with
  | done hcore =>
    obtain ⟨hqueued, hunvalidated⟩ := hcore.queues hclear hown hnew
    exact ⟨hqueued, hunvalidated, hstamps⟩
  | start hcore =>
    obtain ⟨hqueued, -⟩ := hcore.queues hclear hown hnew
    exact ⟨fun b hb => absurd hb List.not_mem_nil, fun _ => hqueued, hstamps⟩
  | retry hpre =>
    cases hpre with
    | staleBallot a b latest hawait =>
      have hnot := (hs.phase.prepare hawait).2.2.2.2
      exact ⟨h.queued, fun _ => h.unvalidated hnot, hstamps⟩
    | synced | notSynced => cases hown

/-! ## Runs -/

/-- What is handed to a stable leader: its own events only, requests as the client routes them, distinct positive
tids. -/
structure Led (c : Constants) (serverId : Int) (es : List Event) : Prop where
  own : ∀ e ∈ es, e.own = true
  positive : ∀ b ∈ enqueued es, 0 < b.request.tid
  requests : ∀ b ∈ enqueued es, byShard
    (fun a => isClientInCluster c a (getClusterIdFromServerId c serverId)) b.isCrossShard b.request.tid b.request.txn
  tids : ((enqueued es).map fun b => b.request.tid).Nodup

variable {c : Constants} {serverId : Int}

theorem enqueued_append (xs ys : List Event) : enqueued (xs ++ ys) = enqueued xs ++ enqueued ys :=
  List.flatMap_append

theorem run_concat (xs : List Event) (e : Event) : run c serverId (xs ++ [e]) = (run c serverId xs).handle e := by
  simp [run]

theorem Led.left {xs ys : List Event} (h : Led c serverId (xs ++ ys)) : Led c serverId xs := by
  have hleft : ∀ b ∈ enqueued xs, b ∈ enqueued (xs ++ ys) := by
    intro b hb
    rw [enqueued_append]
    exact List.mem_append_left _ hb
  refine ⟨fun e he => h.own e (List.mem_append_left _ he), fun b hb => h.positive b (hleft b hb),
    fun b hb => h.requests b (hleft b hb), ?_⟩
  · have htids := h.tids
    rw [enqueued_append, List.map_append] at htids
    exact htids.of_append_left

end ServerImpl

end MultiPaxosDB
