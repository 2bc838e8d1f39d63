/-
# MultiPaxosDB.Orphans — when every lock still has something that can release it.

A lock is an account in a set, and three things can take it out again: the end of the round whose batch has the
account, the `Commit` for the batch that was accepted, and the decision on a transaction that is prepared.  A lock
none of them leads to is an orphan: the account can never be used on this server again.

`Covered rs l` is the ledger's side: each locked account is an account of one of the requests `rs`, or of a
prepared transaction.  `openRequests` are the requests the server itself still has to settle: the intra-shard
entries of its own round between the two phases, and those of the batch it has accepted.  Cross-shard entries are
not among them, since they are prepared when they are locked.  So a server makes orphans where one of the two
lists is dropped — by another leader's batch, by the end of its own round, by the retry after a sync — or where a
transaction stops being prepared without its locks being released: by a sync, by a second transaction of the same
id, or by a decision on the tid `-1`.  `keepsOwners` says of an event that it does none of this, and no run of such
events makes an orphan (`no_orphans`).  The loss of one `Commit` does (`orphans_after_lost_commit`).
-/
import MultiPaxosDB.Funds
import MultiPaxosDB.Validation

namespace MultiPaxosDB

open Lib

/-! ## Locked accounts and what they are locked for -/

namespace Ledger

variable {l l' : Ledger} {rs rs' : Finset TransferReq} {cs : List TransferReq}

/-- Each locked account is one of these requests' or one of a prepared transaction's. -/
def Covered (rs : Finset TransferReq) (l : Ledger) : Prop :=
  ∀ a ∈ l.locks, (∃ r ∈ rs, a ∈ l.inShard r.txn) ∨ l.Needed a

theorem Covered.mono (h : l.Covered rs) (hsub : rs ⊆ rs') : l.Covered rs' := by
  intro a ha
  rcases h a ha with ⟨r, hr, har⟩ | hneeded
  · exact .inl ⟨r, hsub hr, har⟩
  · exact .inr hneeded

/-- What is unlocked no longer has to be covered. -/
theorem Covered.narrow (h : l.Covered (rs ∪ rs')) (hsame : l.SamePending l')
    (hlocks : ∀ a ∈ l'.locks, a ∈ l.locks ∧ ∀ r ∈ rs', a ∉ l.inShard r.txn) : l'.Covered rs := by
  intro a ha
  obtain ⟨hold, hfree⟩ := hlocks a ha
  rcases h a hold with ⟨r, hr, har⟩ | hneeded
  · rcases Finset.mem_union.mp hr with hin | hout
    · exact .inl ⟨r, hin, by rw [hsame.inShard]; exact har⟩
    · exact absurd har (hfree r hout)
  · exact .inr (hsame.needed.mpr hneeded)

theorem Covered.lock (h : l.Covered rs) {r : TransferReq} (hr : ∀ a ∈ l.inShard r.txn, r ∈ rs) :
    ((l.lockInShard r.txn.sender).lockInShard r.txn.receiver).Covered rs := by
  intro a ha
  rcases mem_locks_lockBoth.mp ha with hold | hnew
  · exact h a hold
  · exact .inl ⟨r, hr a hnew, hnew⟩

/-- If the tid of one of these requests is pending, then for the transaction of the request. -/
def Names (cs : List TransferReq) (l : Ledger) : Prop :=
  ∀ r ∈ cs, ∀ e ∈ l.wal.pendingEntry r.tid, e.txn = r.txn

/-- Two of these requests with one tid are of one transaction, and so is what is pending under it. -/
structure NamesOne (cs : List TransferReq) (l : Ledger) : Prop where
  pending : l.Names cs
  batch : ∀ r ∈ cs, ∀ r' ∈ cs, r.tid = r'.tid → r.txn = r'.txn

instance (cs : List TransferReq) (l : Ledger) : Decidable (l.NamesOne cs) :=
  decidable_of_iff ((∀ r ∈ cs, ∀ e ∈ l.wal.pendingEntry r.tid, e.txn = r.txn) ∧
      ∀ r ∈ cs, ∀ r' ∈ cs, r.tid = r'.tid → r.txn = r'.txn)
    ⟨fun h => ⟨h.1, h.2⟩, fun h => ⟨h.pending, h.batch⟩⟩

/-- A transaction that is locked and then prepared covers its own accounts. -/
theorem Covered.lock_prepare (hw : l.wal.Ok) (h : l.Covered rs) {r : TransferReq} (ballot : Ballot)
    (hnames : ∀ e ∈ l.wal.pendingEntry r.tid, e.txn = r.txn) :
    (((l.lockInShard r.txn.sender).lockInShard r.txn.receiver).prepareTransaction r ballot).Covered rs := by
  have hpending := hw.pendingEntry_prepareTransaction r ballot
  intro a ha
  have ha : a ∈ ((l.lockInShard r.txn.sender).lockInShard r.txn.receiver).locks := ha
  show (∃ r ∈ rs, a ∈ l.inShard r.txn) ∨
    ∃ t e, (l.wal.prepareTransaction r ballot).1.pendingEntry t = some e ∧ a ∈ l.inShard e.txn
  have hself : a ∈ l.inShard r.txn → ∃ t e, (l.wal.prepareTransaction r ballot).1.pendingEntry t = some e ∧
      a ∈ l.inShard e.txn := by
    intro har
    refine ⟨r.tid, WAL.preparedEntry r ballot, ?_, har⟩
    rw [hpending, if_pos rfl]
  rcases mem_locks_lockBoth.mp ha with hold | hnew
  · rcases h a hold with hcovered | ⟨t, e, he, hae⟩
    · exact .inl hcovered
    · by_cases ht : t = r.tid
      · rw [ht] at he
        rw [hnames e he] at hae
        exact .inr (hself hae)
      · refine .inr ⟨t, e, ?_, hae⟩
        rw [hpending, if_neg ht, he]
  · exact .inr (hself hnew)

/-- A request that was prepared is pending under its own transaction. -/
theorem NamesOne.prepare (hw : l.wal.Ok) (h : l.NamesOne cs) {r : TransferReq} (hr : r ∈ cs) (ballot : Ballot) :
    (((l.lockInShard r.txn.sender).lockInShard r.txn.receiver).prepareTransaction r ballot).NamesOne cs := by
  refine ⟨?_, h.batch⟩
  intro r' hr' e he
  have he : (l.wal.prepareTransaction r ballot).1.pendingEntry r'.tid = some e := he
  rw [hw.pendingEntry_prepareTransaction] at he
  split at he
  · rename_i htid
    cases he
    exact h.batch r hr r' hr' htid.symm
  · exact h.pending r' hr' e he

/-! ### Decisions and synced entries -/

/-- A decision takes the locks of what it takes from the pending transactions, unless the tid is `-1`. -/
theorem Covered.decideAll (hw : l.wal.Ok) (h : l.Covered rs) (isCommit : Bool) {tids : List Int}
    (hsentinel : -1 ∈ tids → l.wal.pendingEntry (-1) = none) : (l.decideAll isCommit tids).Covered rs := by
  obtain ⟨hshard, hpending, hlocks⟩ := decideAll_spec isCommit tids hw
  have hin : ∀ txn, (l.decideAll isCommit tids).inShard txn = l.inShard txn := by
    intro txn
    rw [inShard, inShard, hshard]
  intro a ha
  obtain ⟨hold, hfree⟩ := (hlocks a).mp ha
  rcases h a hold with ⟨r, hr, har⟩ | ⟨t, e, he, hae⟩
  · exact .inl ⟨r, hr, by rw [hin]; exact har⟩
  · have ht : t ∉ tids := by
      intro hmem
      by_cases hminus : t = -1
      · subst hminus
        rw [hsentinel hmem] at he
        cases he
      · exact hfree t hmem hminus e he hae
    exact .inr ⟨t, e, by rw [hpending, if_neg ht, he], by rw [hin]; exact hae⟩

/-- A pending transaction that synced entries leave alone or repeat stays pending. -/
theorem pending_synced {t : Int} {e : WALEntry} : ∀ (es : List WALEntry) {l : Ledger}, l.wal.Ok →
    l.wal.pendingEntry t = some e →
    (∀ x ∈ es, x.tid = t → x.status = .noStatus ∨ x.status = .prepared ∧ x.txn = e.txn) →
      ∃ e', (es.foldl insertSynced l).wal.pendingEntry t = some e' ∧ e'.txn = e.txn := by
  intro es
  induction es generalizing e with
  | nil => exact fun _ he _ => ⟨e, he, rfl⟩
  | cons x es ih =>
    intro l hw he hes
    obtain ⟨hx, hes⟩ := List.forall_mem_cons.mp hes
    have hpending := pendingEntry_insertSynced hw x t
    by_cases ht : t = x.tid
    · rw [if_pos ht] at hpending
      rcases hx ht.symm with hnone | ⟨hprepared, htxn⟩
      · rw [hnone] at hpending
        exact ih (hw.insertEntry x) (hpending.trans he) hes
      · rw [hprepared] at hpending
        obtain ⟨e', he', htxn'⟩ := ih (hw.insertEntry x) hpending fun y hy hyt => by
          rw [show ({ x with type := .cross } : WALEntry).txn = e.txn from htxn]
          exact hes y hy hyt
        exact ⟨e', he', htxn'.trans htxn⟩
    · rw [if_neg ht] at hpending
      exact ih (hw.insertEntry x) (hpending.trans he) hes

/-- What a sync may bring for a transaction that is pending here and has a locked account: its prepare again. -/
def syncsApart (l : Ledger) (es : List WALEntry) : Prop :=
  ∀ x ∈ es, ∀ e ∈ l.wal.pendingEntry x.tid, (∃ a ∈ l.inShard e.txn, a ∈ l.locks) →
    x.status = .noStatus ∨ x.status = .prepared ∧ x.txn = e.txn

instance (l : Ledger) (es : List WALEntry) : Decidable (l.syncsApart es) :=
  inferInstanceAs (Decidable (∀ x ∈ es, ∀ e ∈ l.wal.pendingEntry x.tid, (∃ a ∈ l.inShard e.txn, a ∈ l.locks) →
    x.status = .noStatus ∨ x.status = .prepared ∧ x.txn = e.txn))

theorem Covered.applySync (hw : l.wal.Ok) (h : l.Covered rs) (response : SyncRes)
    (hsync : l.syncsApart (response.logs.map LogEntry.toWALEntry)) : (l.applySync response).Covered rs := by
  intro a ha
  have hold : a ∈ l.locks := locks_applySync l response ▸ ha
  rcases h a hold with ⟨r, hr, har⟩ | ⟨t, e, he, hae⟩
  · exact .inl ⟨r, hr, by rw [inShard_applySync]; exact har⟩
  · obtain ⟨e', he', htxn⟩ := pending_synced (response.logs.map LogEntry.toWALEntry) hw he fun x hx hxt =>
      hsync x hx e (by rw [hxt]; exact he) ⟨a, hae, hold⟩
    exact .inr ⟨t, e', he', by rw [inShard_applySync, htxn]; exact hae⟩

end Ledger

namespace ServerImpl

open Ledger

/-! ## The loops that lock -/

theorem crossHere_congr {l l' : Ledger} (h : l'.isClientInCluster = l.isClientInCluster) :
    crossHere l' = crossHere l ∧ intraHere l' = intraHere l := by
  constructor
  · funext txn
    rw [crossHere, crossHere, h]
  · funext txn
    rw [intraHere, intraHere, h]

/-- An entry that has an account here and is not cross-shard is intra-shard. -/
theorem intraHere_of_mem {l : Ledger} {txn : Transaction} {a : Int} (ha : a ∈ l.inShard txn)
    (hcross : crossHere l txn = false) : intraHere l txn = true := by
  obtain ⟨hname, hin⟩ := mem_inShard.mp ha
  unfold crossHere at hcross
  unfold intraHere
  rcases hname with rfl | rfl
  · rw [hin] at hcross ⊢
    revert hcross
    cases l.isClientInCluster txn.receiver <;> decide
  · rw [hin] at hcross ⊢
    revert hcross
    cases l.isClientInCluster txn.sender <;> decide

theorem covered_accept {l : Ledger} {rs : Finset TransferReq} (hw : l.wal.Ok) (h : l.Covered rs) (ballot : Ballot)
    (batch : List TransferReq) (hintra : intraRequests l batch ⊆ rs)
    (hcross : l.NamesOne (batch.filter fun r => crossHere l r.txn)) :
    (batch.foldl (acceptEntry ballot) l).Covered rs := by
  refine (List.foldlRecOn (motive := fun l' : Ledger => l'.wal.Ok ∧ l'.isClientInCluster = l.isClientInCluster ∧
    l'.NamesOne (batch.filter fun r => crossHere l r.txn) ∧ l'.Covered rs) batch (acceptEntry ballot)
    ⟨hw, rfl, hcross, h⟩ ?_).2.2.2
  rintro l' ⟨hw', hshard, hnames, hcov⟩ r hr
  obtain ⟨hsamecross, hsameintra⟩ := crossHere_congr hshard
  unfold acceptEntry
  dsimp only
  rw [hsamecross]
  split
  · rename_i hc
    have hmem : r ∈ batch.filter fun r => crossHere l r.txn := List.mem_filter.mpr ⟨hr, hc⟩
    exact ⟨hw'.prepareTransaction r ballot, hshard, hnames.prepare hw' hmem ballot,
      hcov.lock_prepare hw' ballot (hnames.pending r hmem)⟩
  · rename_i hc
    refine ⟨hw', hshard, ⟨hnames.pending, hnames.batch⟩, hcov.lock ?_⟩
    intro a ha
    have hin := intraHere_of_mem ha (by rw [hsamecross]; exact Bool.eq_false_of_not_eq_true hc)
    rw [hsameintra] at hin
    exact hintra (List.mem_toFinset.mpr (List.mem_filter.mpr ⟨hr, hin⟩))

theorem mem_ledRequests {batch : List BatchEntry} {r : TransferReq} :
    r ∈ ledRequests batch ↔ ∃ b ∈ batch, b.isCrossShard = false ∧ b.request = r := by
  simp only [ledRequests, List.mem_toFinset, List.mem_map, List.mem_filter, Bool.not_eq_true', and_assoc]

theorem covered_admitAll {l : Ledger} (hw : l.wal.Ok) (h : l.Covered ∅) (ballot : Ballot) (batch : List BatchEntry)
    (hcross : l.NamesOne (crossRequests batch)) :
    (admitAll l ballot batch).ledger.Covered (ledRequests (admitAll l ballot batch).kept) := by
  refine (List.foldlRecOn (motive := fun a : Admission => a.ledger.wal.Ok ∧
    a.ledger.NamesOne (crossRequests batch) ∧ a.ledger.Covered (ledRequests a.kept)) batch (validateEntry ballot)
    (b := ⟨l, [], []⟩) ⟨hw, hcross, h⟩ ?_).2.2
  rintro a ⟨hw', hnames, hcov⟩ b hb
  unfold validateEntry
  split
  · exact ⟨hw', hnames, hcov⟩
  · have hmore : a.ledger.Covered (ledRequests (a.kept ++ [b])) := by
      refine hcov.mono ?_
      intro r hr
      obtain ⟨e, he, hrest⟩ := mem_ledRequests.mp hr
      exact mem_ledRequests.mpr ⟨e, List.mem_append_left _ he, hrest⟩
    dsimp only
    split
    · rename_i hcross
      have hmem : b.request ∈ crossRequests batch :=
        List.mem_map.mpr ⟨b, List.mem_filter.mpr ⟨hb, hcross⟩, rfl⟩
      exact ⟨hw'.prepareTransaction b.request ballot, hnames.prepare hw' hmem ballot,
        hmore.lock_prepare hw' ballot (hnames.pending b.request hmem)⟩
    · rename_i hintra
      refine ⟨hw', ⟨hnames.pending, hnames.batch⟩, hmore.lock ?_⟩
      exact fun _ _ => mem_ledRequests.mpr
        ⟨b, List.mem_append_right _ List.mem_cons_self, Bool.eq_false_of_not_eq_true hintra, rfl⟩

/-! ## The loops that release -/

/-- A loop that keeps what is pending and narrows the locks item by item, past the accounts of `rs'`. -/
theorem covered_foldl {α : Type} {f : Ledger → α → Ledger} {q : α → Int → Prop} {l : Ledger}
    {rs rs' : Finset TransferReq} (hw : l.wal.Ok) (h : l.Covered (rs ∪ rs'))
    (hsame : ∀ l' x, l.SamePending l' → l.SamePending (f l' x))
    (hlocks : ∀ l' x a, l.SamePending l' → (a ∈ (f l' x).locks ↔ a ∈ l'.locks ∧ q x a)) {xs : List α}
    (hfree : ∀ a, (∀ x ∈ xs, q x a) → ∀ r ∈ rs', a ∉ l.inShard r.txn) : (xs.foldl f l).Covered rs := by
  have hfold : l.SamePending (xs.foldl f l) :=
    List.foldlRecOn (motive := fun l' => l.SamePending l') xs f (.refl hw) fun l' hl' x _ => hsame l' x hl'
  refine h.narrow hfold ?_
  intro a ha
  obtain ⟨hold, hq⟩ := (foldl_narrows (I := fun l' => l.SamePending l') (p := fun l' => a ∈ l'.locks)
    hsame (fun l' x hl' => hlocks l' x a hl') xs l (.refl hw)).mp ha
  exact ⟨hold, hfree a hq⟩

/-- What spares the entries of a batch is no account of its intra-shard requests. -/
theorem not_mem_of_spares {l : Ledger} {batch : List BatchEntry} {a : Int} (h : ∀ b ∈ batch, Spares b a) :
    ∀ r ∈ ledRequests batch, a ∉ l.inShard r.txn := by
  intro r hr ha
  obtain ⟨b, hb, hintra, rfl⟩ := mem_ledRequests.mp hr
  obtain ⟨hs, hr⟩ := h b hb hintra
  rcases (mem_inShard.mp ha).1 with heq | heq
  · exact hs heq
  · exact hr heq

/-! ## The server -/

/-- The intra-shard requests of the batch this server has accepted and not seen committed. -/
def acceptedOpen (s : ServerImpl) : Finset TransferReq :=
  if s.accepted then intraRequests s.ledger s.acceptBatch else ∅

/-- The requests the server itself still has to settle. -/
def openRequests (s : ServerImpl) : Finset TransferReq := s.leading ∪ s.acceptedOpen

/-- Something can still release the account: the round in flight, the `Commit` for the accepted batch, or the
decision on a prepared transaction. -/
def Owned (s : ServerImpl) (a : Int) : Prop :=
  (∃ b ∈ s.current, a ∈ s.ledger.inShard b.request.txn) ∨
    (s.accepted = true ∧ ∃ r ∈ s.acceptBatch, a ∈ s.ledger.inShard r.txn) ∨
    ∃ e ∈ s.ledger.wal.undecided, a ∈ s.ledger.inShard e.txn

instance (s : ServerImpl) (a : Int) : Decidable (s.Owned a) := inferInstanceAs (Decidable (_ ∨ _ ∨ _))

def NoOrphans (s : ServerImpl) : Prop := ∀ a ∈ s.ledger.locks, s.Owned a

instance (s : ServerImpl) : Decidable s.NoOrphans := inferInstanceAs (Decidable (∀ a ∈ s.ledger.locks, s.Owned a))

/-- The locks are covered, the phases of the own round exclude each other, and without a round there is none. -/
structure Traced (s : ServerImpl) : Prop where
  covered : s.ledger.Covered s.openRequests
  phases : s.awaitPrepareDecision = true → s.awaitAcceptDecision = false
  idle : s.isPaxosRunning = false →
    s.current = [] ∧ s.awaitPrepareDecision = false ∧ s.awaitAcceptDecision = false

theorem mem_acceptedOpen {s : ServerImpl} {r : TransferReq} :
    r ∈ s.acceptedOpen ↔ s.accepted = true ∧ r ∈ s.acceptBatch ∧ intraHere s.ledger r.txn = true := by
  unfold acceptedOpen
  split
  · rename_i hacc
    simp only [intraRequests, List.mem_toFinset, List.mem_filter, hacc, true_and]
  · rename_i hacc
    exact iff_of_false (Finset.notMem_empty r) fun h => hacc h.1

theorem Traced.noOrphans {s : ServerImpl} (h : s.Traced) : s.NoOrphans := by
  intro a ha
  rcases h.covered a ha with ⟨r, hr, har⟩ | ⟨t, e, he, hae⟩
  · rcases Finset.mem_union.mp hr with hown | hacc
    · unfold leading at hown
      split at hown
      · obtain ⟨b, hb, -, rfl⟩ := mem_ledRequests.mp hown
        exact .inl ⟨b, hb, har⟩
      · exact absurd hown (Finset.notMem_empty r)
    · obtain ⟨haccepted, hbatch, -⟩ := mem_acceptedOpen.mp hacc
      exact .inr (.inl ⟨haccepted, r, hbatch, har⟩)
  · exact .inr (.inr ⟨e, WAL.mem_undecided.mpr ⟨t, he⟩, hae⟩)

/-- The two counters of the prepare phase once a reply has been counted. -/
def prepareCounts (s : ServerImpl) (status : Status) (request : PrepareReq) (response : PrepareRes) : Nat × Nat :=
  if status = .deadlineExceeded && s.answersPrepare request.ballot then
    (s.prepareSuccesses, s.prepareFailures + 1)
  else if status = .ok && s.answersPrepare response.ballot then
    if response.ack then (s.prepareSuccesses + 1, s.prepareFailures)
    else (s.prepareSuccesses, s.prepareFailures + 1)
  else (s.prepareSuccesses, s.prepareFailures)

/-- The reply completes a majority of the prepare phase. -/
def endsPrepare (s : ServerImpl) (status : Status) (request : PrepareReq) (response : PrepareRes) : Bool :=
  s.awaitPrepareDecision && (decide (majority ≤ (s.prepareCounts status request response).1) ||
    decide (majority ≤ (s.prepareCounts status request response).2))

/-- Whether an event leaves every lock something that can release it, seen from the state it is handled in.

Another leader's batch may replace the accepted one if that has no intra-shard request open, or brings it again;
the end of a phase of the own round, if the open requests of the accepted batch are those of the round.  In both
cases a tid may be prepared again only for the same transaction.  A sync reply may come if no intra-shard request of
the own round is locked, and if it brings nothing but its prepare again for a transaction that holds a lock.  A
decision or a sweep must not meet the tid `-1`. -/
def keepsOwners (s : ServerImpl) : Event → Prop
  | .input (.tpcDecision tid _) => tid = -1 → s.ledger.wal.pendingEntry (-1) = none
  | .input .sweep => -1 ∈ s.ledger.expired → s.ledger.wal.pendingEntry (-1) = none
  | .acceptCall request => s.iAmDisconnected = false → s.accepts request = true →
      (∀ r ∈ s.acceptedOpen, r ∈ s.leading ∨ r ∈ request.batch) ∧
        s.ledger.NamesOne (request.batch.filter fun r => crossHere s.ledger r.txn)
  | .prepareReply status request response => s.endsPrepare status request response = true →
      s.acceptedOpen = ∅ ∧ s.ledger.NamesOne (crossRequests s.current)
  | .acceptReply status request response => s.endsAccept status request response = true →
      s.acceptedOpen ⊆ s.leading
  | .syncReply status response => s.leading = ∅ ∧
      (status = .ok → response.ack = true → s.ledger.syncsApart (response.logs.map LogEntry.toWALEntry))
  | _ => True

instance (s : ServerImpl) : DecidablePred s.keepsOwners
  | .input (.tpcDecision _ _) => inferInstanceAs (Decidable (_ → _))
  | .input .sweep => inferInstanceAs (Decidable (_ → _))
  | .acceptCall _ => inferInstanceAs (Decidable (_ → _ → _ ∧ _))
  | .prepareReply _ _ _ => inferInstanceAs (Decidable (_ → _ ∧ _))
  | .acceptReply _ _ _ => inferInstanceAs (Decidable (_ → s.acceptedOpen ⊆ s.leading))
  | .syncReply _ _ => inferInstanceAs (Decidable (_ ∧ (_ → _ → _)))
  | .input (.transfer _ _) | .input (.tpcPrepare _ _) | .input (.disconnect _) | .input (.tick _) => .isTrue trivial
  | .prepareCall _ | .commitCall _ | .syncCall _ => .isTrue trivial

/-! ### The moves -/

section Moves

variable {s t : ServerImpl}

theorem acceptedOpen_congr (hacc : t.accepted = s.accepted) (hbatch : t.acceptBatch = s.acceptBatch)
    (hshard : t.ledger.isClientInCluster = s.ledger.isClientInCluster) : t.acceptedOpen = s.acceptedOpen := by
  rw [acceptedOpen, acceptedOpen, hacc, hbatch, intraRequests_congr hshard]

theorem CountsPrepare.ends {status : Status} {request : PrepareReq} {response : PrepareRes} {a b : Nat}
    (h : s.CountsPrepare status request response a b) (hawait : s.awaitPrepareDecision = true)
    (hmaj : majority ≤ a ∨ majority ≤ b) : s.endsPrepare status request response = true := by
  have hcounts : a ≤ (s.prepareCounts status request response).1 ∧ b ≤ (s.prepareCounts status request response).2 := by
    unfold prepareCounts
    cases h with
    | failed hans => simp [hans]
    | acked hans hack => simp [hans, hack]
    | nacked hans hack => simp [hans, hack]
    | other => split_ifs <;> exact ⟨by omega, by omega⟩
  rw [endsPrepare, hawait, Bool.true_and, Bool.or_eq_true, decide_eq_true_eq, decide_eq_true_eq]
  omega

theorem CountsAccept.ends {status : Status} {request : AcceptReq} {response : AcceptRes} {a b : Nat}
    (h : s.CountsAccept status request response a b) (hawait : s.awaitAcceptDecision = true)
    (hmaj : majority ≤ a ∨ majority ≤ b) : s.endsAccept status request response = true := by
  have hcounts : a ≤ (s.acceptCounts status request response).1 ∧ b ≤ (s.acceptCounts status request response).2 := by
    unfold acceptCounts
    cases h with
    | failed hans => simp [hans]
    | acked hans hack => simp [hans, hack]
    | nacked hans hack => simp [hans, hack]
    | other => split_ifs <;> exact ⟨by omega, by omega⟩
  rw [endsAccept, hawait, Bool.true_and, Bool.or_eq_true, decide_eq_true_eq, decide_eq_true_eq]
  omega

/-- What changes neither the round nor the accepted batch leaves the open requests as they are. -/
theorem Traced.same (h : s.Traced) (hcov : t.ledger.Covered s.openRequests)
    (hshard : t.ledger.isClientInCluster = s.ledger.isClientInCluster)
    (hawait : t.awaitAcceptDecision = s.awaitAcceptDecision) (hcur : t.current = s.current)
    (hacc : t.accepted = s.accepted) (hbatch : t.acceptBatch = s.acceptBatch)
    (hprep : t.awaitPrepareDecision = true → s.awaitPrepareDecision = true)
    (hrun : t.isPaxosRunning = s.isPaxosRunning) : t.Traced where
  covered := by
    rw [openRequests, leading, hawait, hcur, acceptedOpen_congr hacc hbatch hshard]
    exact hcov
  phases := fun hp => hawait.trans (h.phases (hprep hp))
  idle := by
    intro hr
    obtain ⟨hnone, hprepare, haccept⟩ := h.idle (hrun.symm.trans hr)
    refine ⟨hcur.trans hnone, Bool.eq_false_of_not_eq_true fun hp => ?_, hawait.trans haccept⟩
    rw [hprep hp] at hprepare
    cases hprepare

/-- A round that has ended leaves no request open. -/
theorem Traced.clear (hcov : s.ledger.Covered ∅) : s.clearRound.Traced :=
  ⟨hcov, fun _ => rfl, fun _ => ⟨rfl, rfl, rfl⟩⟩

/-- A prepare phase begins with no request of the round open. -/
theorem Traced.reissue (h : s.Traced) (hown : s.leading = ∅) (hrun : s.isPaxosRunning = true) :
    s.reissuePrepareForCurrent.Traced where
  covered := by
    have hcov := h.covered
    rw [openRequests, hown] at hcov
    exact hcov
  phases := fun _ => rfl
  idle := by
    intro hidle
    exact absurd (hrun.symm.trans hidle) (by decide)

theorem Traced.start (h : s.Traced) (hidle : s.isPaxosRunning = false) :
    s.takePending.reissuePrepareForCurrent.Traced where
  covered := by
    have hown : s.leading = ∅ := by rw [leading, (h.idle hidle).2.2, if_neg Bool.false_ne_true]
    have hcov := h.covered
    rw [openRequests, hown] at hcov
    exact hcov
  phases := fun _ => rfl
  idle := fun hidle => nomatch hidle

theorem Traced.accept (h : s.Traced) (hw : s.ledger.wal.Ok) (request : AcceptReq)
    (hopen : ∀ r ∈ s.acceptedOpen, r ∈ s.leading ∨ r ∈ request.batch)
    (hnames : s.ledger.NamesOne (request.batch.filter fun r => crossHere s.ledger r.txn))
    (hshard : (request.batch.foldl (acceptEntry request.ballot) s.ledger).isClientInCluster =
      s.ledger.isClientInCluster) :
    Traced { s with
      accepted := true
      acceptNum := request.ballot
      acceptBatch := request.batch
      ledger := request.batch.foldl (acceptEntry request.ballot) s.ledger } := by
  refine ⟨?_, h.phases, h.idle⟩
  show Covered (s.leading ∪ intraRequests (request.batch.foldl (acceptEntry request.ballot) s.ledger) request.batch) _
  rw [intraRequests_congr hshard]
  refine covered_accept hw (h.covered.mono ?_) request.ballot request.batch Finset.subset_union_right hnames
  -- the batch that is replaced has nothing open that the round or the new batch does not have as well
  intro r hr
  rcases Finset.mem_union.mp hr with hown | hacc
  · exact Finset.mem_union_left _ hown
  · rcases hopen r hacc with hown | hbatch
    · exact Finset.mem_union_left _ hown
    · obtain ⟨-, -, hintra⟩ := mem_acceptedOpen.mp hacc
      exact Finset.mem_union_right _ (List.mem_toFinset.mpr (List.mem_filter.mpr ⟨hbatch, hintra⟩))

/-- A `Commit` releases all that the accepted batch has locked. -/
theorem Traced.commit (h : s.Traced) (hw : s.ledger.wal.Ok) :
    Traced { s with
      ledger := s.acceptBatch.foldl (commitAccepted s.acceptNum) s.ledger
      promised := false
      accepted := false } := by
  refine ⟨?_, h.phases, h.idle⟩
  show Covered (s.leading ∪ ∅) _
  rw [Finset.union_empty]
  refine covered_foldl hw h.covered (fun _ r hl' => samePending_commitAccepted hl' s.acceptNum r)
    (fun _ r a hl' => mem_locks_commitAccepted hl' s.acceptNum r a) ?_
  intro a hfree r hr
  exact hfree r (mem_acceptedOpen.mp hr).2.1

/-- At the end of a prepare phase with no request open, only prepared transactions have locks. -/
theorem Traced.covered_nil (h : s.Traced) (hawait : s.awaitPrepareDecision = true) (hacc : s.acceptedOpen = ∅) :
    s.ledger.Covered ∅ := by
  have hown : s.leading = ∅ := by rw [leading, h.phases hawait, if_neg Bool.false_ne_true]
  have hcov := h.covered
  rwa [openRequests, hown, hacc] at hcov

/-- At the end of an accept phase the requests of the round cover what prepared transactions do not. -/
theorem Traced.covered_own (h : s.Traced) (hawait : s.awaitAcceptDecision = true)
    (hacc : s.acceptedOpen ⊆ s.leading) : s.ledger.Covered (∅ ∪ ledRequests s.current) := by
  have hown : s.leading = ledRequests s.current := by rw [leading, if_pos hawait]
  rw [Finset.empty_union, ← hown]
  exact h.covered.mono (Finset.union_subset (Finset.Subset.refl _) hacc)

theorem Core.traced {e : Event} (hcore : Core s e t) (hw : s.ledger.wal.Ok)
    (hshard : t.ledger.isClientInCluster = s.ledger.isClientInCluster) (h : s.Traced) (hk : s.keepsOwners e) :
    t.Traced := by
  cases hcore with
  | decision tid isCommit =>
    refine h.same ?_ hshard rfl rfl rfl rfl id rfl
    show (s.ledger.decideAll isCommit [tid]).Covered _
    refine h.covered.decideAll hw isCommit ?_
    intro hmem
    exact hk (List.mem_singleton.mp hmem).symm
  | sweep =>
    refine h.same ?_ hshard rfl rfl rfl rfl id rfl
    show s.ledger.sweep.Covered _
    rw [sweep_eq]
    exact h.covered.decideAll hw false hk
  | accept request hconn hacc =>
    obtain ⟨hopen, hnames⟩ := hk hconn hacc
    exact h.accept hw request hopen hnames hshard
  | commit request => exact h.commit hw
  -- the end of a prepare phase: nothing was open, and what is kept is open now
  | reject a b hawait hcount hmaj hempty =>
    obtain ⟨hacc, hnames⟩ := hk (hcount.ends hawait (.inl hmaj))
    have hkept := covered_admitAll hw (h.covered_nil hawait hacc) s.promisedNum s.current hnames
    rw [show (admitAll s.ledger s.promisedNum s.current).kept = [] from hempty] at hkept
    exact .clear hkept
  | propose a b hawait hcount hmaj =>
    obtain ⟨hacc, hnames⟩ := hk (hcount.ends hawait (.inl hmaj))
    have hkept := covered_admitAll hw (h.covered_nil hawait hacc) s.promisedNum s.current hnames
    refine ⟨hkept.mono Finset.subset_union_left, (fun hp => by cases hp), ?_⟩
    intro hidle
    have hnot := (h.idle hidle).2.1
    rw [hawait] at hnot
    cases hnot
  | abortPrepare a b hawait hcount hmaj =>
    obtain ⟨hacc, -⟩ := hk (hcount.ends hawait (.inr hmaj))
    exact .clear (List.foldlRecOn (motive := fun l' => l'.Covered ∅) s.current (releaseEntry true)
      (h.covered_nil hawait hacc) fun _ hl' _ _ => hl')
  -- the end of an accept phase: the loop releases the accounts of all that was open
  | commitRound a b hawait hcount hmaj =>
    have hown := h.covered_own hawait (hk (hcount.ends hawait (.inl hmaj)))
    exact .clear (covered_foldl hw hown (fun _ b hl' => samePending_commitEntry hl' s.acceptNum b)
      (fun l' b a _ => mem_locks_commitEntry l' s.acceptNum b a) fun _ => not_mem_of_spares)
  | abortAccept a b hawait hcount hmaj =>
    have hown := h.covered_own hawait (hk (hcount.ends hawait (.inr hmaj)))
    exact .clear (covered_foldl hw hown (fun _ b hl' => samePending_releaseEntry hl' false b)
      (fun l' b a _ => mem_locks_releaseEntry l' b a) fun _ => not_mem_of_spares)
  | synced response hack hcur =>
    refine h.same ?_ hshard rfl rfl rfl rfl id rfl
    exact h.covered.applySync hw response (hk.2 rfl hack)
  | staleLog => exact h.same h.covered rfl rfl rfl rfl rfl (fun hp => nomatch hp) rfl
  | _ => exact h.same h.covered rfl rfl rfl rfl rfl id rfl

theorem Pre.traced {e : Event} (hpre : Pre s e t) (hw : s.ledger.wal.Ok)
    (hshard : t.ledger.isClientInCluster = s.ledger.isClientInCluster) (h : s.Traced) (hk : s.keepsOwners e) :
    t.reissuePrepareForCurrent.Traced := by
  have hrunning : ∀ {p : Prop}, (s.isPaxosRunning = false → p) → ¬ p → s.isPaxosRunning = true := by
    intro p hidle hnot
    exact Bool.eq_true_of_not_eq_false fun hrun => hnot (hidle hrun)
  cases hpre with
  | staleBallot a b latest hawait =>
    have hown : s.leading = ∅ := by rw [leading, h.phases hawait, if_neg Bool.false_ne_true]
    refine Traced.reissue (h.same h.covered rfl rfl rfl rfl rfl id rfl) hown (hrunning (fun hrun => (h.idle hrun).2.1) ?_)
    rw [hawait]
    decide
  -- a sync reply starts the prepare phase again, so an accept phase must have had nothing open
  | synced response hack hcur =>
    refine Traced.reissue (h.same ?_ hshard rfl rfl rfl rfl id rfl) hk.1 (hrunning (fun hrun => (h.idle hrun).1) hcur)
    exact h.covered.applySync hw response (hk.2 rfl hack)
  | notSynced hcur =>
    exact Traced.reissue (h.same h.covered rfl rfl rfl rfl rfl id rfl) hk.1
      (hrunning (fun hrun => (h.idle hrun).1) hcur)

end Moves

theorem keepsOwners_outbox (s : ServerImpl) (e : Event) :
    ({ s with outbox := [] } : ServerImpl).keepsOwners e ↔ s.keepsOwners e := by
  cases e with
  | input i => cases i <;> rfl
  | _ => rfl

/-- One event. -/
theorem Traced.handle {s : ServerImpl} (hw : s.ledger.wal.Ok) (h : s.Traced) {e : Event} (hk : s.keepsOwners e) :
    (s.handle e).Traced := by
  have hmoves := s.handle_moves e
  have hk := (s.keepsOwners_outbox e).mpr hk
  have h : Traced { s with outbox := [] } := ⟨h.covered, h.phases, h.idle⟩
  have hshard : (s.handle e).ledger.isClientInCluster = s.ledger.isClientInCluster := by
    obtain ⟨hc, hid⟩ := shard_of_chain (s.handle_chain e)
    funext a
    rw [Ledger.isClientInCluster, Ledger.isClientInCluster, hc, hid]
  generalize s.handle e = u at hmoves hshard
  cases hmoves with
  | done hcore => exact hcore.traced hw hshard h hk
  | start hcore hidle => exact (hcore.traced hw hshard h hk).start hidle
  | retry hpre => exact hpre.traced hw hshard h hk

end ServerImpl

/-- **No orphan locks**, in every state a server reaches through events that keep the owners of its locks. -/
theorem no_orphans {c : Constants} {serverId : Int} {s : ServerImpl}
    (h : Reach ServerImpl.handle ServerImpl.keepsOwners (ServerImpl.fresh c serverId) s) : s.NoOrphans := by
  have hfresh : (ServerImpl.fresh c serverId).Traced :=
    ⟨fun a ha => absurd ha (Finset.notMem_empty a), (fun hp => by cases hp), fun _ => ⟨rfl, rfl, rfl⟩⟩
  have hboth : s.ledger.Sound ∧ s.Traced := by
    refine h.invariant (motive := fun s => s.ledger.Sound ∧ s.Traced) ⟨.fresh c _, hfresh⟩ ?_
    intro s e _ hs hk
    exact ⟨ServerImpl.handle_sound hs.1 e, hs.2.handle hs.1.wal hk⟩
  exact hboth.2.noOrphans

/-- A replica commits one batch and accepts the next, which is cross-shard. -/
def commitThenAccept : List Event :=
  [.prepareCall ⟨⟨1, 1⟩, -1⟩, .acceptCall ⟨⟨1, 1⟩, [⟨⟨1, 2, 3⟩, 5⟩]⟩, .commitCall ⟨⟨1, 1⟩⟩,
   .prepareCall ⟨⟨2, 3⟩, 0⟩, .acceptCall ⟨⟨2, 3⟩, [⟨⟨1, 1001, 4⟩, 7⟩]⟩]

theorem no_orphans_commitThenAccept :
    1 ∈ (ServerImpl.run ⟨3, 3⟩ 2 commitThenAccept).ledger.locks ∧
      (ServerImpl.run ⟨3, 3⟩ 2 commitThenAccept).NoOrphans :=
  ⟨by decide +kernel, no_orphans (Reach.start.foldl (by decide +kernel : okRun ServerImpl.handle
    ServerImpl.keepsOwners (ServerImpl.fresh ⟨3, 3⟩ 2) commitThenAccept))⟩

/-- Server 2 accepts the batch of server 1 and then, with no `Commit` in between, that of server 3, which is
committed. -/
def lostCommit : List NetEvent :=
  [.input 1 (.transfer 0 ⟨⟨1, 2, 3⟩, 1⟩), .deliver 0, .complete 0, .deliver 2,
   .input 3 (.transfer 1 ⟨⟨3, 4, 3⟩, 2⟩), .deliver 5, .complete 5, .deliver 7, .complete 7, .deliver 9, .complete 9,
   .deliver 11]

/-- The accounts of the first batch stay locked, with no round, no accepted batch and no prepared transaction. -/
theorem orphans_after_lost_commit :
    ¬ ∀ (es : List NetEvent) (i : Int), ((Net.run ⟨3, 3⟩ es).servers i).NoOrphans := by
  intro h
  have howned := h lostCommit 2
  revert howned
  decide +kernel

end MultiPaxosDB
