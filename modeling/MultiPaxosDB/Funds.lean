/-
# MultiPaxosDB.Funds — when no account is overdrawn.

Funds are checked once, by the leader, and spent later and on other servers.  `Ledger.unpaid` collects
what a server has taken on and not yet paid: its undecided 2PC transactions, the intra-shard entries it
leads through an accept phase, and those it has accepted as a replica.  As long as every account of the
shard covers what it still has to pay (`Funded`), paying never overdraws it.  `staysFunded` says when an
event that takes on new payments keeps that: the leader must not find an unlocked account that already
owes, and a replica that accepts a batch, or a server that syncs a log, must hold the money for it.
What an account holds is counted without bounds (`Ledger.worth`): its balance shows no more than that, and
shows just that unless a payment to it has wrapped its `int`.
-/
import MultiPaxosDB.Lib.Dues
import MultiPaxosDB.Ballots
import MultiPaxosDB.Locks
import MultiPaxosDB.Provenance

namespace MultiPaxosDB

open Lib

/-- The amount of a request is not negative. -/
def nonnegative : RequestPred := fun _ _ txn => 0 ≤ txn.amount

instance (isCross : Bool) (t : Int) (txn : Transaction) : Decidable (nonnegative isCross t txn) :=
  inferInstanceAs (Decidable (0 ≤ txn.amount))

/-- The amount of an entry is not negative. -/
def nonnegativeEntry : EntryPred := fun _ _ _ txn => 0 ≤ txn.amount

theorem fits_nonnegative (l : Ledger) : l.Fits nonnegative nonnegativeEntry :=
  ⟨fun _ _ h => h, fun _ _ h => h, fun _ _ _ h _ => h, fun _ _ _ h _ => h⟩

/-- The request a log entry was made from. -/
def WALEntry.request (e : WALEntry) : TransferReq := { txn := e.txn, tid := e.tid }

namespace Ledger

/-- What is still to be paid: the undecided transactions and the requests `rs`, less those applied. -/
def unpaid (l : Ledger) (rs : Finset TransferReq) : Finset TransferReq :=
  ((l.wal.undecided.map WALEntry.request).toFinset ∪ rs).filter fun r => r.tid ∉ l.balanceApplied

theorem mem_unpaid {l : Ledger} {rs : Finset TransferReq} {r : TransferReq} : r ∈ l.unpaid rs ↔
    ((∃ t e, l.wal.pendingEntry t = some e ∧ e.request = r) ∨ r ∈ rs) ∧ r.tid ∉ l.balanceApplied := by
  simp only [unpaid, Finset.mem_filter, Finset.mem_union, List.mem_toFinset, List.mem_map,
    WAL.mem_undecided]
  constructor
  · rintro ⟨⟨e, ⟨t, ht⟩, he⟩ | hr, hnew⟩
    · exact ⟨.inl ⟨t, e, ht, he⟩, hnew⟩
    · exact ⟨.inr hr, hnew⟩
  · rintro ⟨⟨t, e, ht, he⟩ | hr, hnew⟩
    · exact ⟨.inl ⟨e, ⟨t, ht⟩, he⟩, hnew⟩
    · exact ⟨.inr hr, hnew⟩

/-- What an account still has to pay. -/
def owes (l : Ledger) (rs : Finset TransferReq) (a : Int) : Int :=
  due (fun r : TransferReq => r.txn.sender) (fun r => r.txn.amount) (l.unpaid rs) a

/-- Every account of the shard can pay all that it owes. -/
structure Covers (l : Ledger) (rs : Finset TransferReq) : Prop where
  sound : l.Sound
  nonneg : ∀ r ∈ l.unpaid rs, 0 ≤ r.txn.amount
  paid : ∀ a, l.isClientInCluster a = true → l.owes rs a ≤ l.worth a

/-- Every in-shard sender of something unpaid can pay all that it owes. -/
def fundsFor (l : Ledger) (rs : Finset TransferReq) : Prop :=
  ∀ r ∈ l.unpaid rs, l.isClientInCluster r.txn.sender = true →
    l.owes rs r.txn.sender ≤ (l.balances r.txn.sender).toInt

instance (l : Ledger) (rs : Finset TransferReq) : Decidable (l.fundsFor rs) :=
  inferInstanceAs (Decidable (∀ r ∈ l.unpaid rs, l.isClientInCluster r.txn.sender = true →
    l.owes rs r.txn.sender ≤ (l.balances r.txn.sender).toInt))

namespace Covers

variable {l l' : Ledger} {rs rs' : Finset TransferReq}

theorem wal (h : l.Covers rs) : l.wal.Ok := h.sound.wal

theorem worth_nonneg (h : l.Covers rs) {a : Int} (ha : l.isClientInCluster a = true) : 0 ≤ l.worth a :=
  (due_nonneg h.nonneg).trans (h.paid a ha)

theorem balance_le (h : l.Covers rs) {a : Int} (ha : l.isClientInCluster a = true) :
    (l.balances a).toInt ≤ l.worth a :=
  h.sound.balance_le_worth ha (h.worth_nonneg ha)

/-- Less to pay, from the same balances. -/
theorem narrow (h : l.Covers rs) (hsound : l'.Sound)
    (hshard : ∀ a, l'.isClientInCluster a = l.isClientInCluster a) (hworth : ∀ a, l'.worth a = l.worth a)
    (hsub : ∀ r ∈ l'.unpaid rs', r ∈ l.unpaid rs) : l'.Covers rs' where
  sound := hsound
  nonneg := fun r hr => h.nonneg r (hsub r hr)
  paid := by
    intro a ha
    rw [hshard] at ha
    rw [hworth]
    exact (due_mono hsub h.nonneg).trans (h.paid a ha)

/-- One payment made: the accounts move by its effect, and it is no longer owed. -/
theorem pay (h : l.Covers rs) {r : TransferReq} (hr : r ∈ l.unpaid rs) (hsound : l'.Sound)
    (hshard : ∀ a, l'.isClientInCluster a = l.isClientInCluster a)
    (hworth : ∀ a, l'.worth a = l.worth a + r.txn.effect a)
    (hsub : ∀ x ∈ l'.unpaid rs', x ∈ l.unpaid rs ∧ x ≠ r) : l'.Covers rs' where
  sound := hsound
  nonneg := fun x hx => h.nonneg x (hsub x hx).1
  paid := by
    intro a ha
    rw [hshard] at ha
    have hrest : l'.unpaid rs' ⊆ (l.unpaid rs).erase r := by
      intro x hx
      exact Finset.mem_erase.mpr ⟨(hsub x hx).2, (hsub x hx).1⟩
    have hless : l'.owes rs' a ≤ l.owes rs a - if r.txn.sender = a then r.txn.amount else 0 := by
      rw [owes, owes, ← due_erase hr]
      exact due_mono hrest fun x hx => h.nonneg x (Finset.mem_of_mem_erase hx)
    have hpaid := h.paid a ha
    have hamount := h.nonneg r hr
    rw [hworth, Transaction.effect]
    split_ifs at hless ⊢ <;> omega

theorem mono (h : l.Covers rs) (hsub : rs' ⊆ rs) : l.Covers rs' := by
  refine h.narrow h.sound (fun _ => rfl) (fun _ => rfl) ?_
  intro r hr
  rw [mem_unpaid] at hr ⊢
  exact ⟨hr.1.imp_right fun hmem => hsub hmem, hr.2⟩

theorem frame (h : l.Covers rs) (hf : l.Frame l') : l'.Covers rs := by
  refine h.narrow (h.sound.frame hf) ?_ (fun a => by rw [worth, worth, hf.constants, hf.clusterId, hf.log]) ?_
  · intro a
    rw [isClientInCluster, isClientInCluster, hf.constants, hf.clusterId]
  · intro r hr
    rw [mem_unpaid] at hr ⊢
    rw [hf.wal, hf.balanceApplied] at hr
    exact hr

/-- More to pay, if the money is there. -/
theorem extend (h : l.Covers rs) (hnonneg : ∀ r ∈ rs', 0 ≤ r.txn.amount) (hfunds : l.fundsFor rs') :
    l.Covers rs' where
  sound := h.sound
  nonneg := by
    intro r hr
    obtain ⟨hpending | hmem, hnew⟩ := mem_unpaid.mp hr
    · exact h.nonneg r (mem_unpaid.mpr ⟨.inl hpending, hnew⟩)
    · exact hnonneg r hmem
  paid := by
    intro a ha
    by_cases hpayer : ∃ r ∈ l.unpaid rs', r.txn.sender = a
    · obtain ⟨r, hr, rfl⟩ := hpayer
      exact (hfunds r hr ha).trans (h.balance_le ha)
    · have hzero : l.owes rs' a = 0 := due_eq_zero fun r hr hsender => hpayer ⟨r, hr, hsender⟩
      rw [hzero]
      exact h.worth_nonneg ha

/-! ### The ledger operations -/

theorem prepareTransaction {request : TransferReq} (h : l.Covers (insert request rs)) (ballot : Ballot) :
    (l.prepareTransaction request ballot).Covers rs := by
  refine h.narrow (h.sound.prepareTransaction request ballot) (fun _ => rfl)
    (l.worth_prepareTransaction request ballot) ?_
  intro r hr
  rw [mem_unpaid] at hr ⊢
  refine ⟨?_, hr.2⟩
  rcases hr.1 with ⟨t, e, he, rfl⟩ | hmem
  · have he : (l.wal.prepareTransaction request ballot).1.pendingEntry t = some e := he
    rw [h.wal.pendingEntry_prepareTransaction] at he
    split at he
    · cases he
      exact .inr (Finset.mem_insert_self _ _)
    · exact .inl ⟨t, e, he, rfl⟩
  · exact .inr (Finset.mem_insert_of_mem hmem)

theorem commitTransaction {request : TransferReq} (h : l.Covers (insert request rs)) (ballot : Ballot) :
    (l.commitTransaction request ballot).Covers rs := by
  by_cases hnew : request.tid ∈ l.balanceApplied
  · rw [commitTransaction_applied ballot hnew]
    exact h.mono (Finset.subset_insert _ _)
  have hsame := SamePending.commitTransaction h.wal request ballot
  have hmem : request ∈ l.unpaid (insert request rs) :=
    mem_unpaid.mpr ⟨.inr (Finset.mem_insert_self _ _), hnew⟩
  have hseen : request.tid ∉ committedTids l.log := h.sound.applied ▸ hnew
  refine h.pay hmem (h.sound.commitTransaction request ballot) ?_
    (worth_commitTransaction hnew h.wal.canWrite hseen ballot) ?_
  · intro a
    rw [isClientInCluster, isClientInCluster, hsame.constants, hsame.clusterId]
  · intro x hx
    rw [mem_unpaid, balanceApplied_commitTransaction, Finset.mem_insert, not_or] at hx
    simp only [hsame.pending] at hx
    refine ⟨mem_unpaid.mpr ⟨hx.1.imp_right fun hmem => Finset.mem_insert_of_mem hmem, hx.2.2⟩, ?_⟩
    rintro rfl
    exact hx.2.1 rfl

theorem processTpcDecision (h : l.Covers rs) (tid : Int) (isCommit : Bool) :
    (l.processTpcDecision tid isCommit).Covers rs := by
  have hsound := h.sound.processTpcDecision tid isCommit
  have hshard : ∀ a, (l.processTpcDecision tid isCommit).isClientInCluster a = l.isClientInCluster a :=
    fun a => congrFun (isClientInCluster_processTpcDecision l tid isCommit) a
  -- what is pending afterwards was pending before, under another tid
  have hpending : ∀ x, (∃ t e, (l.processTpcDecision tid isCommit).wal.pendingEntry t = some e ∧
      e.request = x) → (∃ t e, l.wal.pendingEntry t = some e ∧ e.request = x) ∧ x.tid ≠ tid := by
    rintro x ⟨t, e, he, rfl⟩
    rw [pendingEntry_processTpcDecision h.wal] at he
    split at he
    · cases he
    · rename_i hne
      exact ⟨⟨t, e, he, rfl⟩, by rw [← (h.wal.pendingEntry_spec he).1] at hne; exact hne⟩
  cases he : l.wal.pendingEntry tid with
  | none =>
    rw [processTpcDecision_none isCommit he]
    exact h.frame (.touch _ _ _)
  | some e =>
    have het : e.tid = tid := (h.wal.pendingEntry_spec he).1
    by_cases htid : tid = -1
    · subst htid
      refine h.narrow hsound hshard ?_ ?_
      · intro a
        rw [processTpcDecision_sentinel h.wal isCommit he]
        rfl
      · intro x hx
        rw [mem_unpaid] at hx ⊢
        rw [processTpcDecision_sentinel h.wal isCommit he] at hpending hx
        exact ⟨hx.1.imp_left fun hp => (hpending x hp).1, hx.2⟩
    · have hworth : ∀ a, (l.processTpcDecision tid isCommit).worth a = l.worth a +
          if isCommit = true ∧ tid ∉ l.balanceApplied then e.txn.effect a else 0 := by
        intro a
        rw [worth_processTpcDecision h.wal he htid, h.sound.applied]
      have happlied : (l.processTpcDecision tid isCommit).balanceApplied =
          if isCommit then insert tid l.balanceApplied else l.balanceApplied := by
        rw [processTpcDecision_some h.wal isCommit he htid]
        rfl
      have hold : ∀ x ∈ (l.processTpcDecision tid isCommit).unpaid rs, x ∈ l.unpaid rs := by
        intro x hx
        rw [mem_unpaid, happlied] at hx
        refine mem_unpaid.mpr ⟨hx.1.imp_left fun hp => (hpending x hp).1, ?_⟩
        intro hmem
        refine hx.2 ?_
        split
        · exact Finset.mem_insert_of_mem hmem
        · exact hmem
      by_cases hfirst : isCommit = true ∧ tid ∉ l.balanceApplied
      · have hmem : e.request ∈ l.unpaid rs :=
          mem_unpaid.mpr ⟨.inl ⟨tid, e, he, rfl⟩, by simpa [WALEntry.request, het] using hfirst.2⟩
        refine h.pay hmem hsound hshard ?_ ?_
        · intro a
          rw [hworth, if_pos hfirst]
          rfl
        · intro x hx
          refine ⟨hold x hx, ?_⟩
          rintro rfl
          rw [mem_unpaid, happlied, if_pos hfirst.1] at hx
          exact hx.2 (by simp [WALEntry.request, het])
      · refine h.narrow hsound hshard ?_ hold
        intro a
        rw [hworth, if_neg hfirst, add_zero]

/-- A synced entry that prepares or commits was counted for before. -/
theorem insertSynced (h : l.Covers rs') (hsub : rs ⊆ rs') {entry : WALEntry}
    (hmem : entry.status = .prepared ∨ entry.status = .committed → entry.request ∈ rs') :
    (l.insertSynced entry).Covers rs := by
  have hsound := h.sound.insertSynced entry
  have happlied : (l.insertSynced entry).balanceApplied =
      if entry.status = .committed then insert entry.tid l.balanceApplied else l.balanceApplied := rfl
  have hold : ∀ x ∈ (l.insertSynced entry).unpaid rs, x ∈ l.unpaid rs' := by
    intro x hx
    rw [mem_unpaid, happlied] at hx
    refine mem_unpaid.mpr ⟨?_, ?_⟩
    · rcases hx.1 with ⟨t, e, he, rfl⟩ | hx
      · rw [pendingEntry_insertSynced h.wal] at he
        split at he
        · split at he
          · rename_i hstatus
            cases he
            exact .inr (hmem (.inl hstatus))
          · exact .inl ⟨t, e, he, rfl⟩
          · cases he
        · exact .inl ⟨t, e, he, rfl⟩
      · exact .inr (hsub hx)
    · intro hin
      refine hx.2 ?_
      split
      · exact Finset.mem_insert_of_mem hin
      · exact hin
  by_cases hfirst : entry.status = .committed ∧ entry.tid ∉ l.balanceApplied
  · have hr : entry.request ∈ l.unpaid rs' := mem_unpaid.mpr ⟨.inr (hmem (.inr hfirst.1)), hfirst.2⟩
    refine h.pay hr hsound (fun _ => rfl) ?_ ?_
    · intro a
      rw [worth_insertSynced, ← h.sound.applied, if_pos hfirst]
      rfl
    · intro x hx
      refine ⟨hold x hx, ?_⟩
      rintro rfl
      rw [mem_unpaid, happlied, if_pos hfirst.1] at hx
      exact hx.2 (by simp [WALEntry.request])
  · refine h.narrow hsound (fun _ => rfl) ?_ hold
    intro a
    rw [worth_insertSynced, ← h.sound.applied, if_neg hfirst, add_zero]

end Covers

/-! ### The loops -/

/-- The requests of the entries of a sync reply that prepare or commit. -/
def takenOver (entries : List WALEntry) : Finset TransferReq :=
  ((entries.filter fun e => decide (e.status = .prepared ∨ e.status = .committed)).map
    WALEntry.request).toFinset

theorem Covers.foldl_insertSynced {rs : Finset TransferReq} : ∀ (entries : List WALEntry) {l : Ledger},
    l.Covers (rs ∪ takenOver entries) → (entries.foldl Ledger.insertSynced l).Covers rs := by
  intro entries
  induction entries with
  | nil => intro l h; exact h.mono Finset.subset_union_left
  | cons e entries ih =>
    intro l h
    refine ih (h.insertSynced ?_ ?_)
    · refine Finset.union_subset_union_right ?_
      intro r hr
      simp only [takenOver, List.mem_toFinset, List.mem_map] at hr ⊢
      obtain ⟨e', he', rfl⟩ := hr
      obtain ⟨hmem, hstatus⟩ := List.mem_filter.mp he'
      exact ⟨e', List.mem_filter.mpr ⟨List.mem_cons_of_mem e hmem, hstatus⟩, rfl⟩
    · intro hstatus
      refine Finset.mem_union_right _ ?_
      simp only [takenOver, List.mem_toFinset, List.mem_map]
      exact ⟨e, by simp [hstatus], rfl⟩

theorem Covers.applySync {l : Ledger} {rs : Finset TransferReq} {response : SyncRes}
    (h : l.Covers (rs ∪ takenOver (response.logs.map LogEntry.toWALEntry))) :
    (l.applySync response).Covers rs := by
  refine (Covers.foldl_insertSynced _ h).frame ⟨rfl, rfl, rfl, rfl, rfl, rfl, rfl, rfl, ?_⟩
  exact le_add_of_nonneg_right (Int.natCast_nonneg _)

end Ledger

namespace ServerImpl

open Ledger

/-- The intra-shard requests of a batch, as a replica tells them. -/
def intraRequests (l : Ledger) (batch : List TransferReq) : Finset TransferReq :=
  (batch.filter fun r => intraHere l r.txn).toFinset

/-- The intra-shard requests of a batch, as the leader tells them. -/
def ledRequests (batch : List BatchEntry) : Finset TransferReq :=
  ((batch.filter fun b => !b.isCrossShard).map BatchEntry.request).toFinset

/-- What the server leads through an accept phase. -/
def leading (s : ServerImpl) : Finset TransferReq :=
  if s.awaitAcceptDecision then ledRequests s.current else ∅

/-- What the server will pay at the end of a round, its own or another server's. -/
def held (s : ServerImpl) : Finset TransferReq := s.leading ∪ intraRequests s.ledger s.acceptBatch

/-- Every account of the shard can pay what the server has taken on. -/
def Funded (s : ServerImpl) : Prop := s.ledger.Covers s.held

/-- Whether an event takes on nothing that is not funded, seen from the state it is handled in. -/
def staysFunded (s : ServerImpl) : Event → Prop
  | .prepareReply status _ response => s.awaitPrepareDecision = true → status = .ok →
      s.answersPrepare response.ballot = true → response.ack = true →
      ∀ b ∈ s.current, s.ledger.isClientInCluster b.request.txn.sender = true →
        b.request.txn.sender ∉ s.ledger.locks →
        ∀ r ∈ s.ledger.unpaid ∅, r.txn.sender ≠ b.request.txn.sender
  | .acceptCall request => s.iAmDisconnected = false → s.accepts request = true →
      s.ledger.fundsFor (s.leading ∪ request.batch.toFinset)
  | .syncReply status response => status = .ok → response.ack = true →
      s.ledger.fundsFor (s.held ∪ takenOver (response.logs.map LogEntry.toWALEntry))
  | _ => True

instance (s : ServerImpl) (e : Event) : Decidable (s.staysFunded e) := by
  unfold staysFunded
  split <;> infer_instance

/-! ### The leader's loops -/

theorem covers_commitEntry {rs : Finset TransferReq} (ballot : Ballot) : ∀ (batch : List BatchEntry)
    {l : Ledger}, l.Covers (rs ∪ ledRequests batch) → (batch.foldl (commitEntry ballot) l).Covers rs := by
  intro batch
  induction batch with
  | nil => intro l h; exact h.mono Finset.subset_union_left
  | cons b batch ih =>
    intro l h
    refine ih ?_
    unfold commitEntry
    cases hcross : b.isCrossShard with
    | true =>
      refine h.mono (Finset.union_subset_union_right ?_)
      simp [ledRequests, hcross]
    | false =>
      have hfree : (l.unlockBoth b.request.txn).Covers (rs ∪ ledRequests (b :: batch)) :=
        h.frame (.touch _ _ _)
      refine (hfree.mono ?_).commitTransaction ballot
      simp [ledRequests, hcross]

theorem covers_releaseEntry {rs : Finset TransferReq} (preparePhase : Bool) (batch : List BatchEntry)
    {l : Ledger} (h : l.Covers rs) : (batch.foldl (releaseEntry preparePhase) l).Covers rs := by
  refine List.foldlRecOn (motive := fun l' : Ledger => l'.Covers rs) batch _ h ?_
  intro l' hl' b _
  unfold releaseEntry
  split
  · exact hl'.frame (.touch _ _ _)
  · exact hl'

/-- What the validation loop has established after some entries: what it kept is covered, and an
in-shard sender of the batch that is still unlocked owes nothing. -/
structure Admitted (l : Ledger) (batch : List BatchEntry) (a : Admission) : Prop where
  shard : a.ledger.isClientInCluster = l.isClientInCluster
  covers : a.ledger.Covers (a.kept.map BatchEntry.request).toFinset
  free : ∀ b ∈ batch, l.isClientInCluster b.request.txn.sender = true →
    b.request.txn.sender ∉ a.ledger.locks →
    ∀ r ∈ a.ledger.unpaid (a.kept.map BatchEntry.request).toFinset, r.txn.sender ≠ b.request.txn.sender

section Admit

variable {l : Ledger} {batch : List BatchEntry} {a : Admission} (h : Admitted l batch a) {b : BatchEntry}
  (hamount : 0 ≤ b.request.txn.amount) (hb : b ∈ batch) (hkeep : rejects a.ledger b.request.txn = false)
include h hamount hb hkeep

/-- An entry that is kept owed nothing before, can pay, and is locked from now on. -/
theorem Admitted.keep {l' : Ledger} (hsound : l'.Sound)
    (hshard : l'.isClientInCluster = a.ledger.isClientInCluster)
    (hworth : ∀ x, l'.worth x = a.ledger.worth x)
    (hlocks : ∀ x, x ∈ l'.locks ↔ x ∈ a.ledger.locks ∨ x ∈ a.ledger.inShard b.request.txn)
    (hsub : ∀ x ∈ l'.unpaid ((a.kept ++ [b]).map BatchEntry.request).toFinset,
      x = b.request ∨ x ∈ a.ledger.unpaid (a.kept.map BatchEntry.request).toFinset) :
    Admitted l batch { ledger := l', rejected := a.rejected, kept := a.kept ++ [b] } where
  shard := hshard.trans h.shard
  covers := by
    have hnonneg : ∀ x ∈ insert b.request (a.ledger.unpaid (a.kept.map BatchEntry.request).toFinset),
        0 ≤ x.txn.amount := by
      intro x hx
      rcases Finset.mem_insert.mp hx with rfl | hx
      · exact hamount
      · exact h.covers.nonneg x hx
    have hsub' : l'.unpaid ((a.kept ++ [b]).map BatchEntry.request).toFinset ⊆
        insert b.request (a.ledger.unpaid (a.kept.map BatchEntry.request).toFinset) :=
      fun x hx => Finset.mem_insert.mpr (hsub x hx)
    refine ⟨hsound, fun x hx => hnonneg x (hsub' hx), ?_⟩
    intro x hx
    rw [hshard] at hx
    have hdue : l'.owes ((a.kept ++ [b]).map BatchEntry.request).toFinset x ≤
        a.ledger.owes (a.kept.map BatchEntry.request).toFinset x +
          if b.request.txn.sender = x then b.request.txn.amount else 0 :=
      (due_mono hsub' hnonneg).trans (due_insert_le hamount)
    rw [hworth]
    refine hdue.trans ?_
    split
    · -- the sender of the new entry: unlocked, so it owed nothing, and its balance was checked
      rename_i hsender
      subst hsender
      simp only [rejects, hx, Bool.true_and, Bool.or_eq_false_iff, decide_eq_false_iff_not] at hkeep
      have hzero : a.ledger.owes (a.kept.map BatchEntry.request).toFinset b.request.txn.sender = 0 :=
        due_eq_zero (h.free b hb (by rw [← h.shard]; exact hx) hkeep.1.1)
      have hshown := h.covers.balance_le hx
      rw [hzero]
      omega
    · rw [add_zero]
      exact h.covers.paid x hx
  free := by
    intro b' hb' hin hfree x hx
    rw [hlocks, not_or] at hfree
    rcases hsub x hx with rfl | hold
    · intro heq
      refine hfree.2 (mem_inShard.mpr ⟨.inl heq.symm, ?_⟩)
      rw [h.shard]
      exact hin
    · exact h.free b' hb' hin hfree.1 x hold

theorem Admitted.validateEntry (ballot : Ballot) : Admitted l batch (validateEntry ballot a b) := by
  have hkept : ((a.kept ++ [b]).map BatchEntry.request).toFinset =
      insert b.request (a.kept.map BatchEntry.request).toFinset := by
    ext x
    simp
  have hw := h.covers.wal
  have hlocks : ∀ x, x ∈ ((a.ledger.lockInShard b.request.txn.sender).lockInShard
      b.request.txn.receiver).locks ↔ x ∈ a.ledger.locks ∨ x ∈ a.ledger.inShard b.request.txn :=
    fun _ => mem_locks_lockBoth
  simp only [ServerImpl.validateEntry, hkeep, Bool.false_eq_true, if_false]
  split
  · apply h.keep hamount hb hkeep
    · exact (h.covers.sound.frame (.touch _ _ _)).prepareTransaction b.request ballot
    · rfl
    · exact Ledger.worth_prepareTransaction _ b.request ballot
    · exact hlocks
    intro x hx
    rw [hkept, mem_unpaid] at hx
    obtain ⟨⟨t, e, he, rfl⟩ | hmem, hnew⟩ := hx
    · have he : (a.ledger.wal.prepareTransaction b.request ballot).1.pendingEntry t = some e := he
      rw [hw.pendingEntry_prepareTransaction] at he
      split at he
      · cases he
        exact .inl rfl
      · exact .inr (mem_unpaid.mpr ⟨.inl ⟨t, e, he, rfl⟩, hnew⟩)
    · rcases Finset.mem_insert.mp hmem with rfl | hmem
      · exact .inl rfl
      · exact .inr (mem_unpaid.mpr ⟨.inr hmem, hnew⟩)
  · apply h.keep hamount hb hkeep
    · exact h.covers.sound.frame (.touch _ _ _)
    · rfl
    · exact fun _ => rfl
    · exact hlocks
    intro x hx
    rw [hkept, mem_unpaid] at hx
    obtain ⟨hpending | hmem, hnew⟩ := hx
    · exact .inr (mem_unpaid.mpr ⟨.inl hpending, hnew⟩)
    · rcases Finset.mem_insert.mp hmem with rfl | hmem
      · exact .inl rfl
      · exact .inr (mem_unpaid.mpr ⟨.inr hmem, hnew⟩)

end Admit

theorem admitted_admitAll {l : Ledger} {batch : List BatchEntry} (hcovers : l.Covers ∅)
    (hamounts : ∀ b ∈ batch, 0 ≤ b.request.txn.amount)
    (hfree : ∀ b ∈ batch, l.isClientInCluster b.request.txn.sender = true →
      b.request.txn.sender ∉ l.locks → ∀ r ∈ l.unpaid ∅, r.txn.sender ≠ b.request.txn.sender)
    (ballot : Ballot) : Admitted l batch (admitAll l ballot batch) := by
  refine List.foldlRecOn (motive := Admitted l batch) batch (ServerImpl.validateEntry ballot)
    (b := ⟨l, [], []⟩) ⟨rfl, hcovers, hfree⟩ ?_
  intro a ha b hb
  cases hkeep : rejects a.ledger b.request.txn with
  | true =>
    simp only [ServerImpl.validateEntry, hkeep, if_true]
    exact ⟨ha.shard, ha.covers, ha.free⟩
  | false => exact ha.validateEntry (hamounts b hb) hb hkeep ballot

/-! ### The replica's loops -/

theorem covers_acceptEntry {rs : Finset TransferReq} (ballot : Ballot) : ∀ (batch : List TransferReq)
    {l : Ledger}, l.Covers (rs ∪ batch.toFinset) →
      (batch.foldl (acceptEntry ballot) l).Covers rs := by
  intro batch
  induction batch with
  | nil => intro l h; exact h.mono Finset.subset_union_left
  | cons r batch ih =>
    intro l h
    refine ih ?_
    have hlock : ((l.lockInShard r.txn.sender).lockInShard r.txn.receiver).Covers
        (rs ∪ (r :: batch).toFinset) := h.frame (.touch _ _ _)
    unfold acceptEntry
    dsimp only
    split
    · refine (hlock.mono ?_).prepareTransaction ballot
      simp
    · refine hlock.mono (Finset.union_subset_union_right ?_)
      simp

theorem intraRequests_congr {l l' : Ledger} (h : l'.isClientInCluster = l.isClientInCluster)
    (batch : List TransferReq) : intraRequests l' batch = intraRequests l batch := by
  simp only [intraRequests, intraHere, h]

theorem covers_commitAccepted {rs : Finset TransferReq} (ballot : Ballot) : ∀ (batch : List TransferReq)
    {l : Ledger}, l.Covers (rs ∪ intraRequests l batch) →
      (batch.foldl (commitAccepted ballot) l).Covers rs := by
  intro batch
  induction batch with
  | nil => intro l h; exact h.mono Finset.subset_union_left
  | cons r batch ih =>
    intro l h
    refine ih ?_
    rw [intraRequests_congr (isClientInCluster_commitAccepted ballot l r)]
    have hfree : ((l.unlockInShard r.txn.sender).unlockInShard r.txn.receiver).Covers
        (rs ∪ intraRequests l (r :: batch)) := h.frame (.touch _ _ _)
    unfold commitAccepted
    dsimp only
    split
    · rename_i hintra
      refine (hfree.mono ?_).commitTransaction ballot
      simp [intraRequests, hintra]
    · rename_i hintra
      refine hfree.mono (Finset.union_subset_union_right ?_)
      simp [intraRequests, hintra]

/-- Whatever the replica commits is applied afterwards. -/
theorem applied_commitAccepted (ballot : Ballot) : ∀ (batch : List TransferReq) {l : Ledger},
    l.balanceApplied ⊆ (batch.foldl (commitAccepted ballot) l).balanceApplied ∧
      ∀ r ∈ intraRequests l batch, r.tid ∈ (batch.foldl (commitAccepted ballot) l).balanceApplied := by
  intro batch
  induction batch with
  | nil => intro l; exact ⟨Finset.Subset.refl _, by simp [intraRequests]⟩
  | cons r batch ih =>
    intro l
    obtain ⟨hmono, happlied⟩ := ih (l := commitAccepted ballot l r)
    rw [intraRequests_congr (isClientInCluster_commitAccepted ballot l r)] at happlied
    have hstep : l.balanceApplied ⊆ (commitAccepted ballot l r).balanceApplied ∧
        (intraHere l r.txn = true → r.tid ∈ (commitAccepted ballot l r).balanceApplied) := by
      unfold commitAccepted
      dsimp only
      split
      · rw [balanceApplied_commitTransaction]
        exact ⟨Finset.subset_insert _ _, fun _ => Finset.mem_insert_self _ _⟩
      · rename_i hintra
        exact ⟨Finset.Subset.refl _, fun h => absurd h hintra⟩
    refine ⟨hstep.1.trans hmono, ?_⟩
    intro x hx
    simp only [intraRequests, List.mem_toFinset, List.mem_filter, List.mem_cons] at hx
    obtain ⟨rfl | hmem, hintra⟩ := hx
    · exact hmono (hstep.2 hintra)
    · exact happlied x (by simp [intraRequests, hmem, hintra])

/-! ### The moves -/

theorem leading_nonneg {s : ServerImpl} (hs : s.Carries nonnegative) :
    ∀ r ∈ s.leading, 0 ≤ r.txn.amount := by
  intro r hr
  unfold leading at hr
  split at hr
  · simp only [ledRequests, List.mem_toFinset, List.mem_map, List.mem_filter] at hr
    obtain ⟨b, ⟨hb, -⟩, rfl⟩ := hr
    exact hs.current b hb
  · exact absurd hr (Finset.notMem_empty r)

theorem held_nonneg {s : ServerImpl} (hs : s.Carries nonnegative) :
    ∀ r ∈ s.held, 0 ≤ r.txn.amount := by
  intro r hr
  rcases Finset.mem_union.mp hr with hlead | hacc
  · exact leading_nonneg hs r hlead
  · simp only [intraRequests, List.mem_toFinset, List.mem_filter] at hacc
    obtain ⟨isCross, hamount⟩ := hs.acceptBatch r hacc.1
    exact hamount

theorem ledRequests_subset (batch : List BatchEntry) :
    ledRequests batch ⊆ (batch.map BatchEntry.request).toFinset := by
  intro r hr
  simp only [ledRequests, List.mem_toFinset, List.mem_map, List.mem_filter] at hr ⊢
  obtain ⟨b, ⟨hb, -⟩, rfl⟩ := hr
  exact ⟨b, hb, rfl⟩

theorem intraRequests_subset (l : Ledger) (batch : List TransferReq) :
    intraRequests l batch ⊆ batch.toFinset := by
  intro r hr
  simp only [intraRequests, List.mem_toFinset, List.mem_filter] at hr ⊢
  exact hr.1

section Moves

variable {s t : ServerImpl} {e : Event} (h : s.Funded)
  (hs : s.Carries nonnegative) (he : e.Carries nonnegative) (hlogs : s.Logs nonnegativeEntry e)
  (hok : s.staysFunded e)

include h hs in
/-- What the validation loop leaves when a reply completes the prepare quorum. -/
theorem Funded.admitted (hphase : s.Phase) {status : Status} {request : PrepareReq}
    {response : PrepareRes} {x y : Nat} (hok : s.staysFunded (.prepareReply status request response))
    (hawait : s.awaitPrepareDecision = true)
    (hcount : s.CountsPrepare status request response x y) (hmaj : majority ≤ x) :
    (admitAll s.ledger s.promisedNum s.current).ledger.Covers
      ((admitAll s.ledger s.promisedNum s.current).kept.map BatchEntry.request).toFinset := by
  obtain ⟨hstatus, hans, hack⟩ := hcount.of_majority (hphase.prepare hawait).2.2.1 hmaj
  exact (admitted_admitAll (h.mono (Finset.empty_subset _)) hs.current
    (hok hawait hstatus hans hack) s.promisedNum).covers

include h hs hlogs hok

theorem Funded.applySync {status : Status} {response : SyncRes} (heq : e = .syncReply status response)
    (hstatus : status = .ok) (hack : response.ack = true) :
    (s.ledger.applySync response).Covers s.held := by
  subst heq
  refine (h.extend ?_ (hok hstatus hack)).applySync
  intro r hr
  rcases Finset.mem_union.mp hr with hheld | htaken
  · exact held_nonneg hs r hheld
  · simp only [takenOver, List.mem_toFinset, List.mem_map, List.mem_filter] at htaken
    obtain ⟨entry, ⟨⟨x, hx, rfl⟩, -⟩, rfl⟩ := htaken
    exact (hlogs hstatus x hx).1

include he in
theorem Funded.core (hphase : s.Phase) (hcore : Core s e t) : t.Funded := by
  have hheld : t.held = t.leading ∪ intraRequests s.ledger t.acceptBatch := by
    rw [held, intraRequests_congr hcore.shard]
  have hnothing : ∀ {l : Ledger}, l.Covers ∅ → l.Covers (∅ ∪ intraRequests s.ledger []) := fun hl => hl
  unfold Funded
  rw [hheld]
  cases hcore with
  | decision tid isCommit => exact h.processTpcDecision tid isCommit
  | tick ms => exact h.frame (.touch _ _ _)
  | sweep =>
    refine List.foldlRecOn (motive := fun l' : Ledger => l'.Covers s.held) s.ledger.expired _ h ?_
    intro l' hl' tid _
    rw [timeoutTransaction_eq]
    exact hl'.processTpcDecision tid false
  | accept request hconn hacc =>
    have hnonneg : ∀ r ∈ s.leading ∪ request.batch.toFinset, 0 ≤ r.txn.amount := by
      intro r hr
      rcases Finset.mem_union.mp hr with hlead | hbatch
      · exact leading_nonneg hs r hlead
      · obtain ⟨isCross, hamount⟩ := he r (List.mem_toFinset.mp hbatch)
        exact hamount
    refine covers_acceptEntry request.ballot request.batch ((h.extend hnonneg (hok hconn hacc)).mono ?_)
    refine Finset.union_subset (Finset.union_subset_union_right ?_) Finset.subset_union_right
    exact intraRequests_subset s.ledger request.batch
  | commit request hconn hcom =>
    have hrest := covers_commitAccepted s.acceptNum s.acceptBatch h
    refine hrest.narrow hrest.sound (fun _ => rfl) (fun _ => rfl) ?_
    intro r hr
    rw [mem_unpaid] at hr ⊢
    refine ⟨hr.1.imp_right fun hmem => ?_, hr.2⟩
    rcases Finset.mem_union.mp hmem with hlead | hacc
    · exact hlead
    · exact absurd ((applied_commitAccepted s.acceptNum s.acceptBatch).2 r hacc) hr.2
  | reject x y hawait hcount hmaj =>
    exact hnothing ((h.admitted hs hphase hok hawait hcount hmaj).mono (Finset.empty_subset _))
  | propose x y hawait hcount hmaj =>
    refine (h.admitted hs hphase hok hawait hcount hmaj).mono (Finset.union_subset ?_ ?_)
    · exact ledRequests_subset _
    · exact intraRequests_subset _ _
  | abortPrepare =>
    exact hnothing (covers_releaseEntry true s.current (h.mono (Finset.empty_subset _)))
  | abortAccept =>
    exact hnothing (covers_releaseEntry false s.current (h.mono (Finset.empty_subset _)))
  | commitRound x y hawait =>
    refine hnothing (covers_commitEntry s.acceptNum s.current (h.mono ?_))
    rw [held, leading, if_pos hawait, Finset.empty_union]
    exact Finset.subset_union_left
  | synced response hack => exact h.applySync hs hlogs hok rfl rfl hack
  | _ => exact h

theorem Funded.pre (hpre : Pre s e t) : t.Funded := by
  cases hpre with
  | staleBallot => exact h
  | notSynced => exact h
  | synced response hack =>
    have hcovers := h.applySync hs hlogs hok rfl rfl hack
    have hshard : (s.ledger.applySync response).isClientInCluster = s.ledger.isClientInCluster :=
      (locks_foldl_insertSynced _ s.ledger).2
    show (s.ledger.applySync response).Covers (s.leading ∪ intraRequests (s.ledger.applySync response) _)
    rw [intraRequests_congr hshard]
    exact hcovers

end Moves

/-- A new prepare phase leads nothing through an accept phase. -/
theorem Funded.reissue {t : ServerImpl} (h : t.Funded) : t.reissuePrepareForCurrent.Funded := by
  refine h.mono ?_
  show ∅ ∪ intraRequests t.ledger t.acceptBatch ⊆ t.leading ∪ intraRequests t.ledger t.acceptBatch
  exact Finset.union_subset_union_left (Finset.empty_subset _)

theorem Funded.handle {s : ServerImpl} {e : Event} (h : s.Funded) (hphase : s.Phase)
    (hs : s.Carries nonnegative) (he : e.Carries nonnegative) (hlogs : s.Logs nonnegativeEntry e)
    (hok : s.staysFunded e) : (s.handle e).Funded := by
  have h' : ({ s with outbox := [] } : ServerImpl).Funded := h
  have hphase' : ({ s with outbox := [] } : ServerImpl).Phase := ⟨hphase.prepare, hphase.accept⟩
  have hs' : ({ s with outbox := [] } : ServerImpl).Carries nonnegative :=
    ⟨hs.pending, hs.current, hs.acceptBatch⟩
  have hlogs' : ({ s with outbox := [] } : ServerImpl).Logs nonnegativeEntry e := by
    cases e with
    | input i => cases i <;> exact hlogs
    | _ => exact hlogs
  have hok' : ({ s with outbox := [] } : ServerImpl).staysFunded e := by
    cases e <;> exact hok
  generalize hu : s.handle e = u
  cases moves_of_handle hu with
  | done hcore => exact h'.core hs' he hlogs' hok' hphase' hcore
  | @start t hcore =>
    have ht : t.takePending.reissuePrepareForCurrent.held ⊆ t.held :=
      Finset.union_subset_union_left (Finset.empty_subset _)
    exact (h'.core hs' he hlogs' hok' hphase' hcore).mono ht
  | retry hpre => exact (h'.pre hs' hlogs' hok' hpre).reissue

end ServerImpl

/-! ## The network -/

namespace Net

/-- The acting server takes on nothing that is not funded. -/
def staysFunded (n : Net) (ev : NetEvent) : Prop :=
  match n.actor ev with
  | some (i, e) => (n.servers i).staysFunded e
  | none => True

instance (n : Net) (ev : NetEvent) : Decidable (n.staysFunded ev) := by
  unfold staysFunded
  split <;> infer_instance

theorem funded_fresh (c : Constants) (serverId : Int) : (ServerImpl.fresh c serverId).Funded := by
  have hnone : ∀ r, r ∉ (ServerImpl.fresh c serverId).ledger.unpaid (ServerImpl.fresh c serverId).held := by
    intro r hr
    obtain ⟨⟨t, e, he, -⟩ | hmem, -⟩ := Ledger.mem_unpaid.mp hr
    · cases (WAL.pendingEntry_empty t).symm.trans he
    · simp [ServerImpl.held, ServerImpl.leading, ServerImpl.intraRequests, ServerImpl.fresh] at hmem
  refine ⟨.fresh c _, fun r hr => absurd hr (hnone r), ?_⟩
  intro a _
  have hzero : (ServerImpl.fresh c serverId).ledger.owes (ServerImpl.fresh c serverId).held a = 0 :=
    due_eq_zero fun r hr => absurd hr (hnone r)
  rw [hzero]
  show 0 ≤ (initialBalance c _ a).toInt + 0
  unfold initialBalance
  split <;> decide

/-- A decision does not touch the amount. -/
theorem decides_nonnegative (n : Net) (ev : NetEvent) : n.Decides (fun _ => nonnegativeEntry) ev := by
  intro i x _
  cases x with
  | tpcDecision tid isCommit => exact fun _ h => h
  | sweep => exact fun _ _ _ h => h
  | _ => trivial

/-- The amounts in the logs are those of the requests. -/
theorem entries_nonnegative {c : Constants} {ok : Net → NetEvent → Prop} {n : Net}
    (hok : ∀ n ev, ok n ev → ev.Carries (fun _ => nonnegative) n.constants)
    (hr : Reach Net.step ok (Net.fresh c) n) : n.Entries fun _ => nonnegativeEntry := by
  refine hr.invariant (motive := Net.Entries fun _ => nonnegativeEntry) (.fresh c) ?_
  intro n ev hr h hev
  refine h.step (.reach hr) (.reach hok hr) (fun i => fits_nonnegative _) (hok n ev hev) (decides_nonnegative n ev)

theorem funded_reach {c : Constants} {n : Net}
    (hr : Reach Net.step (fun n ev => ev.Carries (fun _ => nonnegative) n.constants ∧ n.staysFunded ev)
      (Net.fresh c) n) : ∀ i, (n.servers i).Funded := by
  refine hr.invariant (motive := fun n => ∀ i, (n.servers i).Funded) (funded_fresh c) ?_
  rintro n ev hr h ⟨hev, hok⟩
  have hcarries : n.Carries fun _ => nonnegative := .reach (fun _ _ hguard => hguard.1) hr
  have hentries : n.Entries fun _ => nonnegativeEntry := entries_nonnegative (fun _ _ hguard => hguard.1) hr
  rcases n.step_cases ev with ⟨-, hservers⟩ | ⟨i, e, u, hactor, -, hu, hstep⟩
  · rwa [hservers]
  · have hok : (n.servers i).staysFunded e := by
      simpa only [staysFunded, hactor] using hok
    rw [hstep]
    refine forall_servers_after (P := fun _ s => s.Funded) ev h ?_
    rw [← hu]
    exact (h i).handle (phase_reach hr i) (hcarries.servers i) (hcarries.event (.reach hr) hev hactor)
      (hentries.logs (decides_nonnegative n ev) hactor) hok

end Net

/-- **No overdraft.**  In every run with amounts that are not negative in which no server takes on a payment that
is not funded, no account of a shard is negative on any of its servers, unless it has been paid beyond the range
of an `int` there. -/
theorem no_overdraft (c : Constants) (n : Net)
    (hr : Reach Net.step (fun n ev => ev.Carries (fun _ => nonnegative) n.constants ∧ n.staysFunded ev)
      (Net.fresh c) n) (i a : Int) (ha : (n.servers i).ledger.isClientInCluster a = true)
    (hrange : (n.servers i).ledger.worth a < 2 ^ 31) : 0 ≤ ((n.servers i).ledger.balances a).toInt := by
  have hcovers := Net.funded_reach hr i
  rw [hcovers.sound.balance_eq_worth ha (hcovers.worth_nonneg ha) hrange]
  exact hcovers.worth_nonneg ha

/-- Server 1 prepares a cross-shard transfer of all of account 1 with server 2, both are told that it
commits, and server 1 starts on a transfer that account 1 can no longer pay. -/
def spentOnce : List NetEvent :=
  [.input 1 (.tpcPrepare 0 ⟨⟨1, 1001, 10⟩, 1⟩), .deliver 0, .complete 0, .deliver 2, .complete 2,
   .input 1 (.tpcDecision 1 true), .input 2 (.tpcDecision 1 true),
   .input 1 (.transfer 1 ⟨⟨1, 2, 10⟩, 2⟩), .deliver 6, .complete 6]

theorem no_overdraft_spentOnce :
    0 ≤ (((Net.run ⟨3, 3⟩ spentOnce).servers 1).ledger.balances 1).toInt ∧
      ((Net.run ⟨3, 3⟩ spentOnce).servers 2).ledger.balances 1 = 0 :=
  ⟨no_overdraft ⟨3, 3⟩ (Net.run ⟨3, 3⟩ spentOnce) (Net.reach_run ⟨3, 3⟩ (by decide +kernel)) 1 1
    (by decide +kernel) (by decide +kernel), by decide +kernel⟩

/-- Server 1 prepares a cross-shard transfer of all of account 1 with server 2.  The `Commit` of that
round unlocks account 1 on server 2, which then leads a transfer of the same money, and is told
afterwards that the first transfer commits. -/
def spentTwice : List NetEvent :=
  [.input 1 (.tpcPrepare 0 ⟨⟨1, 1001, 10⟩, 1⟩), .deliver 0, .complete 0, .deliver 2, .complete 2, .deliver 4,
   .input 2 (.transfer 1 ⟨⟨1, 2, 10⟩, 2⟩), .deliver 6, .complete 6, .deliver 8, .complete 8,
   .input 2 (.tpcDecision 1 true)]

/-- Account 1 is then at -10 on server 2. -/
theorem account_overdrawn :
    ¬ ∀ es : List NetEvent, ((clientRequests es).map TransferReq.tid).Nodup →
      (∀ r ∈ clientRequests es, 0 ≤ r.txn.amount) →
      ∀ i a, ((Net.run ⟨3, 3⟩ es).servers i).ledger.isClientInCluster a = true →
        0 ≤ (((Net.run ⟨3, 3⟩ es).servers i).ledger.balances a).toInt := by
  intro h
  have hbalance := h spentTwice (by decide) (by decide) 2 1 (by decide +kernel)
  revert hbalance
  decide +kernel

end MultiPaxosDB
