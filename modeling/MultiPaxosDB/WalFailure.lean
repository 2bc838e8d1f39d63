/-
# MultiPaxosDB.WalFailure — an append that cannot be made.

A WAL file that does not open for appending is reported by a sentinel entry, or not at all, and the callers treat it
differently.  The decision handlers look at the sentinel and leave everything as it was.  `prepareTransaction` is told
nothing: the entry is logged, counted and indexed at position `-1`.  `commitTransaction` takes the sentinel for an
entry: it is logged and counted, the tid goes into `balance_applied`, and the leader acknowledges the transfer.  And
`handleSyncReply` never asks.

`appends` lists the transactions that a handler appends an entry for.  If the file does not open, their handling is
clean exactly if they are decisions, by a message or by the sweep (`failed_append_clean_iff`).
-/
import MultiPaxosDB.LeaderRound

namespace MultiPaxosDB

open Lib

namespace Ledger

variable {l l' l'' : Ledger}

/-! ## What an append leaves -/

/-- Nothing is logged, counted, applied, moved or made pending. -/
structure BooksKept (l l' : Ledger) : Prop where
  constants : l'.constants = l.constants
  clusterId : l'.clusterId = l.clusterId
  log : l'.log = l.log
  balances : l'.balances = l.balances
  balanceApplied : l'.balanceApplied = l.balanceApplied
  paxosIndex : l'.paxosIndex = l.paxosIndex
  wal : l'.wal = l.wal

theorem BooksKept.refl (l : Ledger) : l.BooksKept l := ⟨rfl, rfl, rfl, rfl, rfl, rfl, rfl⟩

theorem BooksKept.trans (h : l.BooksKept l') (h' : l'.BooksKept l'') : l.BooksKept l'' where
  constants := h'.constants.trans h.constants
  clusterId := h'.clusterId.trans h.clusterId
  log := h'.log.trans h.log
  balances := h'.balances.trans h.balances
  balanceApplied := h'.balanceApplied.trans h.balanceApplied
  paxosIndex := h'.paxosIndex.trans h.paxosIndex
  wal := h'.wal.trans h.wal

theorem BooksKept.symm (h : l.BooksKept l') : l'.BooksKept l where
  constants := h.constants.symm
  clusterId := h.clusterId.symm
  log := h.log.symm
  balances := h.balances.symm
  balanceApplied := h.balanceApplied.symm
  paxosIndex := h.paxosIndex.symm
  wal := h.wal.symm

/-- Locks and clocks are not the books. -/
theorem BooksKept.touch (h : l.BooksKept l') (locks : Finset Int) (prepareTimestamps : TidMap Int) :
    l.BooksKept { l' with locks := locks, prepareTimestamps := prepareTimestamps } :=
  ⟨h.constants, h.clusterId, h.log, h.balances, h.balanceApplied, h.paxosIndex, h.wal⟩

theorem BooksKept.lockBoth (l : Ledger) (a b : Int) : l.BooksKept ((l.lockInShard a).lockInShard b) :=
  ⟨rfl, rfl, rfl, rfl, rfl, rfl, rfl⟩

theorem BooksKept.unlockInShard (l : Ledger) (a b : Int) : l.BooksKept ((l.unlockInShard a).unlockInShard b) :=
  ⟨rfl, rfl, rfl, rfl, rfl, rfl, rfl⟩

theorem BooksKept.unlockBoth (l : Ledger) (txn : Transaction) : l.BooksKept (l.unlockBoth txn) :=
  ⟨rfl, rfl, rfl, rfl, rfl, rfl, rfl⟩

theorem BooksKept.isClientInCluster (h : l.BooksKept l') : l'.isClientInCluster = l.isClientInCluster := by
  funext a
  rw [Ledger.isClientInCluster, h.constants, h.clusterId]
  rfl

/-- **A loop keeps the books exactly if each turn does**, where a turn that does not makes the log longer, and whether
it does can be read off the books. -/
theorem booksKept_foldl_iff {α : Type} (f : Ledger → α → Ledger) (clean : Ledger → α → Prop)
    (hclean : ∀ {l x}, l.wal.canWrite = false → clean l x → l.BooksKept (f l x))
    (hlonger : ∀ {l x}, ¬ clean l x → l.log.length < (f l x).log.length)
    (hgrows : ∀ l x, l.log.length ≤ (f l x).log.length)
    (hreads : ∀ {l l' x}, l.BooksKept l' → (clean l' x ↔ clean l x)) (xs : List α) :
    ∀ {l : Ledger}, l.wal.canWrite = false → (l.BooksKept (xs.foldl f l) ↔ ∀ x ∈ xs, clean l x) := by
  induction xs with
  | nil => exact fun _ => iff_of_true (.refl _) (by simp)
  | cons x xs ih =>
    intro l hw
    rw [List.foldl_cons, List.forall_mem_cons]
    by_cases hx : clean l x
    · have hkept := hclean hw hx
      have hrest := ih (l := f l x) (hkept.wal ▸ hw)
      simp only [hreads hkept] at hrest
      rw [and_iff_right hx, ← hrest]
      exact ⟨fun h => hkept.symm.trans h, fun h => hkept.trans h⟩
    · have hlen : (f l x).log.length ≤ (xs.foldl f (f l x)).log.length :=
        List.foldlRecOn (motive := fun l' : Ledger => (f l x).log.length ≤ l'.log.length) xs f le_rfl
          fun l' hl' y _ => hl'.trans (hgrows l' y)
      have hlt := hlonger hx
      refine iff_of_false (fun h => ?_) (fun h => hx h.1)
      rw [h.log] at hlen
      omega

/-! ## The operations on a file that does not open -/

theorem length_log_prepareTransaction (l : Ledger) (request : TransferReq) (ballot : Ballot) :
    (l.prepareTransaction request ballot).log.length = l.log.length + 1 := by
  show (l.log ++ [_]).length = _
  simp

/-- A commit that is made is logged, whatever the WAL answers. -/
theorem length_log_commitTransaction {request : TransferReq} (hnew : request.tid ∉ l.balanceApplied) (ballot : Ballot) :
    (l.commitTransaction request ballot).log.length = l.log.length + 1 := by
  simp only [commitTransaction, if_neg hnew]
  show (l.log ++ [_]).length = _
  simp

theorem length_log_le_commitTransaction (l : Ledger) (request : TransferReq) (ballot : Ballot) :
    l.log.length ≤ (l.commitTransaction request ballot).log.length := by
  by_cases hold : request.tid ∈ l.balanceApplied
  · rw [commitTransaction_applied ballot hold]
  · rw [length_log_commitTransaction hold]
    omega

/-- A decision that is not written only forgets the timestamp. -/
theorem processTpcDecision_unwritable (hw : l.wal.canWrite = false) (tid : Int) (isCommit : Bool) :
    l.processTpcDecision tid isCommit = { l with prepareTimestamps := l.prepareTimestamps.erase tid } := by
  have hsentinel : l.wal.decideTransaction tid (decisionStatus isCommit) = (l.wal, .sentinel) := by
    unfold WAL.decideTransaction
    split
    · rfl
    · rw [hw]
      rfl
  simp only [processTpcDecision, decision_wal, hsentinel]
  rfl

theorem booksKept_sweep (hw : l.wal.canWrite = false) : l.BooksKept l.sweep := by
  refine List.foldlRecOn (motive := fun l' : Ledger => l.BooksKept l') l.expired timeoutTransaction (.refl l) ?_
  intro l' hl' tid _
  rw [timeoutTransaction_eq, processTpcDecision_unwritable (hl'.wal ▸ hw)]
  exact hl'.touch _ _

end Ledger

namespace ServerImpl

variable {s : ServerImpl} {e : Event}

/-! ## The loops of the handlers -/

section Loops

variable {l : Ledger} (hw : l.wal.canWrite = false)
include hw

theorem booksKept_acceptEntry_iff (ballot : Ballot) (batch : List TransferReq) :
    l.BooksKept (batch.foldl (acceptEntry ballot) l) ↔ ∀ r ∈ batch, crossHere l r.txn = false := by
  refine Ledger.booksKept_foldl_iff (acceptEntry ballot) (fun l r => crossHere l r.txn = false) ?_ ?_ ?_ ?_ batch hw
  · intro l r _ hclean
    rw [acceptEntry, if_neg (by simp [hclean])]
    exact .lockBoth l _ _
  · intro l r hcross
    rw [acceptEntry, if_pos (by simpa using hcross), Ledger.length_log_prepareTransaction]
    exact Nat.lt_succ_self _
  · intro l r
    unfold acceptEntry
    dsimp only
    split
    · rw [Ledger.length_log_prepareTransaction]
      exact Nat.le_succ _
    · exact le_rfl
  · intro l l' r h
    rw [crossHere, crossHere, h.isClientInCluster]

theorem booksKept_commitAccepted_iff (ballot : Ballot) (batch : List TransferReq) :
    l.BooksKept (batch.foldl (commitAccepted ballot) l) ↔
      ∀ r ∈ batch, intraHere l r.txn = true → r.tid ∈ l.balanceApplied := by
  refine Ledger.booksKept_foldl_iff (commitAccepted ballot)
    (fun l r => intraHere l r.txn = true → r.tid ∈ l.balanceApplied)
    ?_ ?_ ?_ ?_ batch hw
  · intro l r _ hclean
    unfold commitAccepted
    dsimp only
    split
    · rename_i hintra
      rw [Ledger.commitTransaction_applied ballot]
      · exact .unlockInShard l _ _
      · exact hclean hintra
    · exact .unlockInShard l _ _
  · intro l r hdirty
    obtain ⟨hintra, hnew⟩ := Classical.not_imp.mp hdirty
    rw [commitAccepted, if_pos hintra, Ledger.length_log_commitTransaction]
    · exact Nat.lt_succ_self _
    · exact hnew
  · intro l r
    unfold commitAccepted
    dsimp only
    split
    · exact Ledger.length_log_le_commitTransaction ((l.unlockInShard _).unlockInShard _) r ballot
    · exact le_rfl
  · intro l l' r h
    rw [intraHere, intraHere, h.isClientInCluster, h.balanceApplied]

theorem booksKept_commitEntry_iff (ballot : Ballot) (batch : List BatchEntry) :
    l.BooksKept (batch.foldl (commitEntry ballot) l) ↔
      ∀ b ∈ batch, b.isCrossShard = false → b.request.tid ∈ l.balanceApplied := by
  refine Ledger.booksKept_foldl_iff (commitEntry ballot)
    (fun l b => b.isCrossShard = false → b.request.tid ∈ l.balanceApplied)
    ?_ ?_ ?_ ?_ batch hw
  · intro l b _ hclean
    unfold commitEntry
    split
    · exact .refl l
    · rename_i hintra
      rw [Ledger.commitTransaction_applied ballot]
      · exact .unlockBoth l _
      · exact hclean (by simpa using hintra)
  · intro l b hdirty
    obtain ⟨hintra, hnew⟩ := Classical.not_imp.mp hdirty
    rw [commitEntry, if_neg (by simp [hintra]), Ledger.length_log_commitTransaction]
    · exact Nat.lt_succ_self _
    · exact hnew
  · intro l b
    unfold commitEntry
    split
    · exact le_rfl
    · exact Ledger.length_log_le_commitTransaction (l.unlockBoth b.request.txn) b.request ballot
  · intro l l' b h
    rw [h.balanceApplied]

omit hw in
theorem booksKept_admitAll_iff (ballot : Ballot) (batch : List BatchEntry) :
    l.BooksKept (admitAll l ballot batch).ledger ↔ crossRequests (admitAll l ballot batch).kept = [] := by
  obtain ⟨K, hK⟩ := admits_admitAll l ballot batch
  rw [hK.ledger]
  constructor
  · intro h
    have hlog : (l.prepareAll ballot (crossRequests (admitAll l ballot batch).kept)).log = l.log := h.log
    rw [Ledger.log_prepareAll, List.append_right_eq_self, List.map_eq_nil_iff] at hlog
    exact hlog
  · intro hnil
    rw [Ledger.keep, hnil]
    exact (Ledger.BooksKept.refl l).touch _ _

omit hw in
theorem booksKept_applySync_iff (response : SyncRes) : l.BooksKept (l.applySync response) ↔ response.logs = [] := by
  constructor
  · intro h
    have hlog := h.log
    rw [Ledger.log_applySync, List.append_right_eq_self, List.map_eq_nil_iff] at hlog
    exact hlog
  · intro hnil
    unfold Ledger.applySync
    rw [hnil]
    exact ⟨rfl, rfl, rfl, rfl, rfl, rfl, rfl⟩

omit hw in
theorem booksKept_releaseEntry (preparePhase : Bool) (batch : List BatchEntry) :
    l.BooksKept (batch.foldl (releaseEntry preparePhase) l) := by
  obtain ⟨locks, h⟩ := foldl_releaseEntry_eq preparePhase batch l
  rw [h]
  exact (Ledger.BooksKept.refl l).touch locks _

end Loops

/-! ## The handlers -/

/-- The transactions that the turn of a round appends an entry for: the cross-shard entries that a validation keeps,
the intra-shard entries of a committed batch that are not applied yet. -/
def turnAppends (s : ServerImpl) : Option RoundTurn → List Int
  | some .prepareQuorum => (crossRequests s.keptNow).map TransferReq.tid
  | some .acceptQuorum =>
    (s.current.filter fun b => !b.isCrossShard && decide (b.request.tid ∉ s.ledger.balanceApplied)).map fun b =>
      b.request.tid
  | _ => []

/-- The transactions that the handler of an event appends an entry for. -/
def appends (s : ServerImpl) : Event → List Int
  | .prepareReply status request response => s.turnAppends (s.turn (.prepareReply status request response))
  | .acceptReply status request response => s.turnAppends (s.turn (.acceptReply status request response))
  | .acceptCall request =>
    if !s.iAmDisconnected && s.accepts request then
      (request.batch.filter fun r => crossHere s.ledger r.txn).map TransferReq.tid
    else []
  | .commitCall request =>
    if !s.iAmDisconnected && s.commits request then
      (s.acceptBatch.filter fun r => intraHere s.ledger r.txn && decide (r.tid ∉ s.ledger.balanceApplied)).map
        TransferReq.tid
    else []
  | .input (.tpcDecision tid _) =>
    if !s.iAmDisconnected && (s.ledger.wal.transferIndex[tid]?).isSome then [tid] else []
  | .input .sweep => s.ledger.timesOut
  | .syncReply status response => if status = .ok && response.ack then response.logs.map LogEntry.tid else []
  | _ => []

end ServerImpl

/-- What is appended is a decision, heard or made by the sweep. -/
def Event.isDecision : Event → Bool
  | .input (.tpcDecision _ _) => true
  | .input .sweep => true
  | _ => false

namespace ServerImpl

variable {s : ServerImpl} {e : Event}

/-- The event leaves the books as they were, and acknowledges no transfer that it appends an entry for. -/
structure FailsCleanly (s : ServerImpl) (e : Event) : Prop where
  books : s.ledger.BooksKept (s.handle e).ledger
  answers : ∀ r ∈ (s.handle e).replies.drop s.replies.length, r.ack = true → r.tid ∉ s.appends e

theorem booksKept_of_vote (hw : s.ledger.wal.canWrite = false) (hvote : e.isVote = true) :
    s.ledger.BooksKept (s.handle e).ledger ↔ s.turnAppends (s.turn e) = [] := by
  have hturned := s.handle_turned e
  generalize s.turn e = τ at hturned ⊢
  generalize s.handle e = u at hturned ⊢
  cases hturned with
  | prepareQuorum a b _ =>
    rw [ledger_onPrepareQuorum, turnAppends, List.map_eq_nil_iff]
    exact booksKept_admitAll_iff s.promisedNum s.current
  | acceptQuorum a b _ =>
    rw [onAcceptQuorum, ledger_finishRound, turnAppends, List.map_eq_nil_iff, List.filter_eq_nil_iff]
    refine (booksKept_commitEntry_iff hw s.acceptNum s.current).trans (forall₂_congr fun b _ => ?_)
    simp
  | abortPrepare a b _ =>
    rw [onRoundAbort, ledger_finishRound]
    exact iff_of_true (booksKept_releaseEntry true s.current) rfl
  | abortAccept a b _ =>
    rw [onRoundAbort, ledger_finishRound]
    exact iff_of_true (booksKept_releaseEntry false s.current) rfl
  | other hnot =>
    rw [hvote] at hnot
    cases hnot
  | ignored | retried | lagging | countedPrepare | countedAccept => exact iff_of_true ⟨rfl, rfl, rfl, rfl, rfl, rfl, rfl⟩ rfl

theorem booksKept_acceptCall_iff (hw : s.ledger.wal.canWrite = false) (request : AcceptReq) :
    s.ledger.BooksKept (s.processAcceptCall request).1.ledger ↔ s.appends (.acceptCall request) = [] := by
  unfold processAcceptCall appends
  by_cases hdisc : s.iAmDisconnected = true
  · simp [hdisc, Ledger.BooksKept.refl]
  · by_cases hacc : s.accepts request = true
    · simp only [hdisc, hacc, if_true, Bool.not_false, Bool.and_self, List.map_eq_nil_iff, List.filter_eq_nil_iff,
        Bool.not_eq_true]
      exact booksKept_acceptEntry_iff hw request.ballot request.batch
    · simp [hdisc, hacc, Ledger.BooksKept.refl]

theorem booksKept_commitCall_iff (hw : s.ledger.wal.canWrite = false) (request : CommitReq) :
    s.ledger.BooksKept (s.processCommitCall request).ledger ↔ s.appends (.commitCall request) = [] := by
  unfold processCommitCall appends
  by_cases hdisc : s.iAmDisconnected = true
  · simp [hdisc, Ledger.BooksKept.refl]
  · by_cases hcom : s.commits request = true
    · simp only [hdisc, hcom, if_true, Bool.not_false, Bool.and_self, List.map_eq_nil_iff, List.filter_eq_nil_iff,
        Bool.and_eq_true, decide_eq_true_eq, not_and, not_not]
      exact booksKept_commitAccepted_iff hw s.acceptNum s.acceptBatch
    · simp [hdisc, hcom, Ledger.BooksKept.refl]

theorem booksKept_syncReply_iff (status : Status) (response : SyncRes) :
    s.ledger.BooksKept (s.handleSyncReply status response).ledger ↔ s.appends (.syncReply status response) = [] := by
  show _ ↔ (if status = .ok && response.ack then response.logs.map LogEntry.tid else []) = []
  unfold handleSyncReply
  rw [ledger_resumeAfterSync]
  by_cases hok : (status = .ok && response.ack) = true
  · rw [if_pos hok, if_pos hok, List.map_eq_nil_iff]
    exact booksKept_applySync_iff response
  · rw [if_neg hok, if_neg hok]
    exact iff_of_true (.refl _) rfl

/-- **An event whose appends fail keeps the books** exactly if it has none or is a decision. -/
theorem booksKept_handle_iff (hw : s.ledger.wal.canWrite = false) (e : Event) :
    s.ledger.BooksKept (s.handle e).ledger ↔ s.appends e = [] ∨ e.isDecision = true := by
  have hnot : e.isDecision = false → ∀ {Q : Prop}, (Q ↔ s.appends e = []) → (Q ↔ s.appends e = [] ∨ e.isDecision = true) := by
    intro hdec Q hQ
    rw [hQ, hdec]
    exact (or_iff_left Bool.false_ne_true).symm
  have hsame : ∀ {u : ServerImpl} {Q : Prop}, u.ledger = s.ledger → Q → (s.ledger.BooksKept u.ledger ↔ Q) := by
    intro u Q hu hQ
    rw [hu]
    exact iff_of_true (.refl _) hQ
  cases e with
  | prepareReply status request response => exact hnot rfl (booksKept_of_vote hw rfl)
  | acceptReply status request response => exact hnot rfl (booksKept_of_vote hw rfl)
  | acceptCall request => exact hnot rfl (booksKept_acceptCall_iff (s := { s with outbox := [] }) hw request)
  | commitCall request => exact hnot rfl (booksKept_commitCall_iff (s := { s with outbox := [] }) hw request)
  | syncReply status response => exact hnot rfl (booksKept_syncReply_iff (s := { s with outbox := [] }) status response)
  | syncCall request => exact hsame rfl (.inl rfl)
  | prepareCall request =>
    refine hsame ?_ (.inl rfl)
    show (processPrepareCall { s with outbox := [] } request).1.ledger = s.ledger
    rw [processPrepareCall_fst]
    unfold promise
    split_ifs <;> rfl
  | input x =>
    cases x with
    | transfer call request => exact hsame (ledger_enqueueClientTxn _ call request false) (.inl rfl)
    | tpcPrepare call request => exact hsame (ledger_enqueueClientTxn _ call request true) (.inl rfl)
    | disconnect servers => exact hsame rfl (.inl rfl)
    | tick ms => exact iff_of_true ⟨rfl, rfl, rfl, rfl, rfl, rfl, rfl⟩ (.inl rfl)
    | sweep => exact iff_of_true (Ledger.booksKept_sweep hw) (.inr rfl)
    | tpcDecision tid isCommit =>
      refine iff_of_true ?_ (.inr rfl)
      show s.ledger.BooksKept (processTpcDecision { s with outbox := [] } tid isCommit).ledger
      unfold processTpcDecision
      split
      · exact .refl _
      · show s.ledger.BooksKept (s.ledger.processTpcDecision tid isCommit)
        rw [Ledger.processTpcDecision_unwritable hw]
        exact (Ledger.BooksKept.refl s.ledger).touch _ _

/-- A decision answers no client call. -/
theorem replies_of_isDecision (h : e.isDecision = true) : (s.handle e).replies = s.replies := by
  cases e with
  | input x =>
    cases x with
    | tpcDecision tid isCommit =>
      show (processTpcDecision { s with outbox := [] } tid isCommit).replies = s.replies
      unfold processTpcDecision
      split <;> rfl
    | sweep => rfl
    | _ => cases h
  | _ => cases h

end ServerImpl

/-- **A failed append, exactly.**  In any state in which the WAL file does not open for appending, an event leaves log,
balances, `balance_applied`, `paxos_index` and the pending transactions as they were, and acknowledges none of the
transactions it appends an entry for, if and only if it appends none or what it appends is a decision. -/
theorem failed_append_clean_iff (s : ServerImpl) (e : Event) (hw : s.ledger.wal.canWrite = false) :
    s.FailsCleanly e ↔ s.appends e = [] ∨ e.isDecision = true := by
  constructor
  · intro h
    exact (ServerImpl.booksKept_handle_iff hw e).mp h.books
  · intro h
    refine ⟨(ServerImpl.booksKept_handle_iff hw e).mpr h, ?_⟩
    intro r hr _
    rcases h with hnone | hdec
    · rw [hnone]
      exact List.not_mem_nil
    · rw [ServerImpl.replies_of_isDecision hdec, List.drop_length] at hr
      cases hr

/-- The file can no longer be opened for appending. -/
def ServerImpl.unwritable (s : ServerImpl) : ServerImpl :=
  { s with ledger := { s.ledger with wal := { s.ledger.wal with canWrite := false } } }

/-- Server 2 has accepted a cross-shard transfer. -/
def acceptedCross : ServerImpl :=
  List.foldl ServerImpl.handle (.fresh ⟨3, 3⟩ 2)
    [.prepareCall ⟨⟨1, 1⟩, -1⟩, .acceptCall ⟨⟨1, 1⟩, [⟨⟨1, 1001, 3⟩, 7⟩]⟩]

/-- The decision on it cannot be written, and nothing changes. -/
theorem failed_append_clean_iff_decision :
    acceptedCross.unwritable.FailsCleanly (.input (.tpcDecision 7 true)) ∧
      acceptedCross.unwritable.appends (.input (.tpcDecision 7 true)) = [7] :=
  ⟨(failed_append_clean_iff acceptedCross.unwritable (.input (.tpcDecision 7 true)) rfl).mpr (.inr rfl), by decide +kernel⟩

/-- Server 1 has proposed the transfer of 3 from account 1 to account 2. -/
def proposedTransfer : ServerImpl :=
  List.foldl ServerImpl.handle (.fresh ⟨3, 3⟩ 1)
    [.input (.transfer 0 ⟨⟨1, 2, 3⟩, 7⟩),
     .prepareReply .ok ⟨⟨1, 1⟩, -1⟩ (ServerImpl.plainPrepareRes true ⟨1, 1⟩)]

/-- Server 2 accepts, and the commit cannot be written: the log gets the sentinel entry, and the client is told that the
transfer was made. -/
theorem unwritten_transfer_acknowledged :
    ¬ ∀ (s : ServerImpl) (e : Event), s.ledger.wal.canWrite = false → s.FailsCleanly e := by
  intro h
  have hclean := h proposedTransfer.unwritable (.acceptReply .ok ⟨⟨1, 1⟩, []⟩ ⟨true, ⟨1, 1⟩⟩) rfl
  exact absurd (hclean.answers ⟨0, true, 7⟩ (by decide +kernel) rfl) (by decide +kernel)

end MultiPaxosDB
