/-
# MultiPaxosDB.Leader — a server that only leads.

A stable leader handles no peer's `Prepare`, `Accept` or `Commit` and no sync reply (`Event.own`).  Then
nothing but a decision or a timeout takes a transaction out of its WAL index, and a yes vote is given only
at an accept quorum, for an entry that the validation of the same round has made pending.
-/
import MultiPaxosDB.Locks

namespace MultiPaxosDB

/-- The events of a server that no peer takes the lead from: all but the calls of a proposer and the
replies of a sync. -/
def Event.own : Event → Bool
  | .prepareCall _ => false
  | .acceptCall _ => false
  | .commitCall _ => false
  | .syncReply _ _ => false
  | _ => true

namespace ServerImpl

variable {s t u : ServerImpl} {e : Event}

/-! ## What stays pending -/

/-- What the validation loop has done to the pending transactions: none is gone, and what it kept of the
cross-shard entries is pending. -/
structure Pends (l : Ledger) (a : Admission) : Prop where
  ok : a.ledger.wal.Ok
  stays : ∀ k, l.wal.pendingEntry k ≠ none → a.ledger.wal.pendingEntry k ≠ none
  kept : ∀ b ∈ a.kept, b.isCrossShard = true → a.ledger.wal.pendingEntry b.request.tid ≠ none

theorem Pends.validateEntry {l : Ledger} {a : Admission} (h : Pends l a) (ballot : Ballot)
    (b : BatchEntry) : Pends l (validateEntry ballot a b) := by
  unfold ServerImpl.validateEntry
  split
  · exact ⟨h.ok, h.stays, h.kept⟩
  · cases hcross : b.isCrossShard with
    | false =>
      refine ⟨h.ok, h.stays, ?_⟩
      intro b' hb' hcross'
      rcases List.mem_append.mp hb' with hold | hnew
      · exact h.kept b' hold hcross'
      · rw [List.mem_singleton.mp hnew, hcross] at hcross'
        cases hcross'
    | true =>
      have hmore : ∀ k, a.ledger.wal.pendingEntry k ≠ none →
          (a.ledger.wal.prepareTransaction b.request ballot).1.pendingEntry k ≠ none := by
        intro k hk
        rw [h.ok.pendingEntry_prepareTransaction]
        split
        · simp
        · exact hk
      have hnow : (a.ledger.wal.prepareTransaction b.request ballot).1.pendingEntry b.request.tid ≠ none := by
        rw [h.ok.pendingEntry_prepareTransaction, if_pos rfl]
        simp
      refine ⟨h.ok.prepareTransaction b.request ballot, fun k hk => hmore k (h.stays k hk), ?_⟩
      intro b' hb' hcross'
      rcases List.mem_append.mp hb' with hold | hnew
      · exact hmore _ (h.kept b' hold hcross')
      · rw [List.mem_singleton.mp hnew]
        exact hnow

theorem pends_admitAll {l : Ledger} (hw : l.wal.Ok) (ballot : Ballot) (batch : List BatchEntry) :
    Pends l (admitAll l ballot batch) := by
  refine List.foldlRecOn (motive := Pends l) batch (ServerImpl.validateEntry ballot) (b := ⟨l, [], []⟩) ?_ ?_
  · exact ⟨hw, fun _ h => h, fun b hb => absurd hb List.not_mem_nil⟩
  · intro a ha b _
    exact ha.validateEntry ballot b

theorem samePending_foldl_commitEntry {l : Ledger} (hw : l.wal.Ok) (ballot : Ballot)
    (batch : List BatchEntry) : l.SamePending (batch.foldl (commitEntry ballot) l) :=
  List.foldlRecOn (motive := fun l' => l.SamePending l') batch _ (.refl hw) fun _ h b _ =>
    samePending_commitEntry h ballot b

theorem samePending_foldl_releaseEntry {l : Ledger} (hw : l.wal.Ok) (preparePhase : Bool)
    (batch : List BatchEntry) : l.SamePending (batch.foldl (releaseEntry preparePhase) l) :=
  List.foldlRecOn (motive := fun l' => l.SamePending l') batch _ (.refl hw) fun _ h b _ =>
    samePending_releaseEntry h preparePhase b

/-- On a stable leader nothing but its decision, or a timeout, makes a transaction not pending. -/
theorem Core.pending_own (h : Core s e t) (hown : e.own = true) (hw : s.ledger.wal.Ok)
    (hsweep : e = .input .sweep → s.ledger.timesOut = []) {k : Int}
    (hk : s.ledger.wal.pendingEntry k ≠ none) (hdecide : ∀ b, e ≠ .input (.tpcDecision k b)) :
    t.ledger.wal.pendingEntry k ≠ none := by
  cases h with
  | promise | behind | accept | commit | synced | notSynced => cases hown
  | decision tid isCommit =>
    have hne : k ≠ tid := by
      rintro rfl
      exact hdecide isCommit rfl
    show (s.ledger.processTpcDecision tid isCommit).wal.pendingEntry k ≠ none
    rw [Ledger.pendingEntry_processTpcDecision hw, if_neg hne]
    exact hk
  | sweep =>
    have hnot : k ∉ s.ledger.expired := by
      intro hmem
      have htime : k ∈ s.ledger.timesOut :=
        List.mem_filter.mpr ⟨hmem, Option.isSome_iff_ne_none.mpr hk⟩
      rw [hsweep rfl] at htime
      exact absurd htime List.not_mem_nil
    show s.ledger.sweep.wal.pendingEntry k ≠ none
    rw [Ledger.sweep_eq, (Ledger.decideAll_spec false _ hw).2.1, if_neg hnot]
    exact hk
  | reject => exact (pends_admitAll hw s.promisedNum s.current).stays k hk
  | propose => exact (pends_admitAll hw s.promisedNum s.current).stays k hk
  | commitRound =>
    show (s.current.foldl (commitEntry s.acceptNum) s.ledger).wal.pendingEntry k ≠ none
    rw [(samePending_foldl_commitEntry hw s.acceptNum s.current).pending]
    exact hk
  | abortPrepare =>
    show (s.current.foldl (releaseEntry true) s.ledger).wal.pendingEntry k ≠ none
    rw [(samePending_foldl_releaseEntry hw true s.current).pending]
    exact hk
  | abortAccept =>
    show (s.current.foldl (releaseEntry false) s.ledger).wal.pendingEntry k ≠ none
    rw [(samePending_foldl_releaseEntry hw false s.current).pending]
    exact hk
  | _ => exact hk

/-! ## What a vote stands for -/

/-- While the accept decision is open, the cross-shard entries of the batch are pending. -/
def Pledges (s : ServerImpl) : Prop :=
  s.awaitAcceptDecision = true → ∀ b ∈ s.current, b.isCrossShard = true →
    s.ledger.wal.pendingEntry b.request.tid ≠ none

theorem Core.pledges_own (h : Core s e t) (hown : e.own = true) (hw : s.ledger.wal.Ok)
    (hsweep : e = .input .sweep → s.ledger.timesOut = []) (hs : s.Pledges)
    (hdecide : ∀ k b, e = .input (.tpcDecision k b) → ∀ b' ∈ s.current, b'.isCrossShard = true →
      b'.request.tid ≠ k) : t.Pledges := by
  have hstay := fun k => h.pending_own hown hw hsweep (k := k)
  cases h with
  | promise | behind | accept | commit | synced | notSynced => cases hown
  | reject | abortPrepare | abortAccept | commitRound =>
    intro hawait
    cases hawait
  | propose => exact fun _ => (pends_admitAll hw s.promisedNum s.current).kept
  | _ =>
    intro hawait b hb hcross
    apply hstay _ (hs hawait b hb hcross)
    exact fun b' heq => hdecide _ b' heq b hb hcross rfl

/-- A yes is given at an accept quorum, to the batch in flight. -/
theorem Core.acked (h : Core s e t) {x : TransferRes} (hx : x ∈ t.replies) (hack : x.ack = true) :
    x ∈ s.replies ∨ ((∀ i, e ≠ .input i) ∧ s.awaitAcceptDecision = true ∧ ∃ b ∈ s.current, x.call = b.call) := by
  have hno : ∀ {bs : List BatchEntry}, x ∈ s.replies ++ bs.map (fun b =>
      ({ call := b.call, ack := false, tid := b.request.tid } : TransferRes)) → x ∈ s.replies := by
    intro bs hmem
    rcases List.mem_append.mp hmem with hold | hnew
    · exact hold
    · obtain ⟨b, -, rfl⟩ := List.mem_map.mp hnew
      cases hack
  cases h with
  | refuse b => exact .inl (hno (show x ∈ s.replies ++ [b].map _ from hx))
  | reject | propose | abortPrepare | abortAccept => exact .inl (hno hx)
  | commitRound a b hawait =>
    rcases List.mem_append.mp hx with hold | hnew
    · exact .inl hold
    · obtain ⟨b, hb, rfl⟩ := List.mem_map.mp hnew
      refine .inr ⟨?_, hawait, b, hb, rfl⟩
      intro i heq
      cases heq
  | _ => exact .inl hx

/-- Nothing but `Disconnect` moves the flag. -/
theorem Core.connected (h : Core s e t) (hs : s.iAmDisconnected = false)
    (hno : ∀ servers, e ≠ .input (.disconnect servers)) : t.iAmDisconnected = false := by
  cases h with
  | disconnect servers => exact absurd rfl (hno servers)
  | _ => exact hs

/-! ## One event of a stable leader -/

/-- The event leaves a stable leader in peace: it comes from no proposer and no sync, it does not
disconnect the server, and it times nothing out. -/
def quiet (s : ServerImpl) : Event → Bool
  | .input (.disconnect _) => false
  | .input .sweep => s.ledger.timesOut.isEmpty
  | e => e.own

theorem quiet.own (h : s.quiet e = true) : e.own = true := by
  unfold quiet at h
  split at h
  · cases h
  · rfl
  · exact h

theorem quiet.sweep (h : s.quiet e = true) (he : e = .input .sweep) : s.ledger.timesOut = [] := by
  subst he
  exact List.isEmpty_iff.mp h

theorem quiet.connected (h : s.quiet e = true) (servers : List Int) : e ≠ .input (.disconnect servers) := by
  rintro rfl
  cases h

theorem handle_pending (hw : s.ledger.wal.Ok) (hq : s.quiet e = true) {k : Int}
    (hk : s.ledger.wal.pendingEntry k ≠ none) (hdecide : ∀ b, e ≠ .input (.tpcDecision k b)) :
    (s.handle e).ledger.wal.pendingEntry k ≠ none := by
  generalize hu : s.handle e = u
  cases moves_of_handle hu with
  | done hcore => exact hcore.pending_own (quiet.own hq) hw (quiet.sweep hq) hk hdecide
  | start hcore => exact hcore.pending_own (quiet.own hq) hw (quiet.sweep hq) hk hdecide
  | retry hpre =>
    cases hpre with
    | staleBallot => exact hk
    | synced | notSynced => cases quiet.own hq

theorem handle_pledges (hw : s.ledger.wal.Ok) (hq : s.quiet e = true) (hs : s.Pledges)
    (hdecide : ∀ k b, e = .input (.tpcDecision k b) → ∀ b' ∈ s.current, b'.isCrossShard = true →
      b'.request.tid ≠ k) : (s.handle e).Pledges := by
  generalize hu : s.handle e = u
  cases moves_of_handle hu with
  | done hcore => exact hcore.pledges_own (quiet.own hq) hw (quiet.sweep hq) hs hdecide
  | start hcore | retry hpre =>
    intro hawait
    cases hawait

theorem handle_acked {x : TransferRes} (hx : x ∈ (s.handle e).replies) (hack : x.ack = true) :
    x ∈ s.replies ∨ ((∀ i, e ≠ .input i) ∧ s.awaitAcceptDecision = true ∧ ∃ b ∈ s.current, x.call = b.call) := by
  generalize hu : s.handle e = u at hx
  cases moves_of_handle hu with
  | done hcore => exact hcore.acked hx hack
  | start hcore => exact hcore.acked hx hack
  | retry hpre =>
    rw [hpre.frame.replies] at hx
    exact .inl hx

theorem handle_connected (hs : s.iAmDisconnected = false) (hq : s.quiet e = true) :
    (s.handle e).iAmDisconnected = false := by
  generalize hu : s.handle e = u
  cases moves_of_handle hu with
  | done hcore => exact hcore.connected hs (quiet.connected hq)
  | start hcore => exact hcore.connected hs (quiet.connected hq)
  | retry hpre => exact hpre.frame.iAmDisconnected.trans hs

end ServerImpl

end MultiPaxosDB
