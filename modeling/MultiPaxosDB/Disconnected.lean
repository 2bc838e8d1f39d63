/-
# MultiPaxosDB.Disconnected — what a server does while it is disconnected.

`processDisconnectCall` sets a flag that every request handler but `processSyncCall` tests first.  The reply handlers
do not test it.  So a round or a sync that was under way when the `Disconnect` came goes on: a prepare quorum logs the
cross-shard entries it keeps, an accept quorum moves money and acknowledges the transfers, a sync reply is applied; and
a peer that is behind is sent the log.

`disconnected_silent_iff` says exactly which events of a disconnected server are not silent.
-/
import MultiPaxosDB.Aborts
import MultiPaxosDB.Applications
import MultiPaxosDB.LeaderRound
import MultiPaxosDB.Replicas

namespace MultiPaxosDB

open Lib

namespace ServerImpl

variable {s : ServerImpl} {e : Event}

/-- Whether the server answers a `Prepare`, an `Accept` or a `Sync` with `ack = true`. -/
def acknowledges (s : ServerImpl) : Event → Bool
  | .prepareCall request => (s.processPrepareCall request).2.ack
  | .acceptCall request => (s.processAcceptCall request).2.ack
  | .syncCall request => (s.ledger.processSyncCall request).ack
  | _ => false

/-- The event moves no money, adds no agreed entry, tells no client that its transfer was made, and acknowledges no
peer. -/
structure Silent (s : ServerImpl) (e : Event) : Prop where
  balances : (s.handle e).ledger.balances = s.ledger.balances
  agreed : agreed (s.handle e).ledger.log = agreed s.ledger.log
  answers : ∀ r ∈ (s.handle e).replies.drop s.replies.length, r.ack = false
  acks : s.acknowledges e = false

/-- What a turn of the round that is still open may be. -/
def turnSilent (s : ServerImpl) : Option RoundTurn → Prop
  | some .prepareQuorum => ∀ b ∈ s.ledger.choice s.current, b.isCrossShard = false
  | some .acceptQuorum => s.current = []
  | _ => True

instance (s : ServerImpl) : (τ : Option RoundTurn) → Decidable (s.turnSilent τ)
  | some .prepareQuorum => inferInstanceAs (Decidable (∀ b ∈ _, _))
  | some .acceptQuorum => inferInstanceAs (Decidable (_ = []))
  | some (.abort _) | none => .isTrue trivial

/-- What the entries of a sync reply are to move on an account: of the COMMITTED ones whose tid is not in
`balance_applied`, the first of each tid. -/
def shippedEffect (s : ServerImpl) (response : SyncRes) (a : Int) : Int :=
  ((appliedFrom s.ledger.balanceApplied (response.logs.map LogEntry.toWALEntry)).map fun x => x.txn.effect a).sum

/-- A sync reply that ships no agreed entry and on balance, as an `int`, nothing for any account of the shard. -/
def shipsNothing (s : ServerImpl) (response : SyncRes) : Prop :=
  ∀ x ∈ response.logs, isPaxosEntry x.toWALEntry = false ∧
    ∀ a ∈ s.ledger.inShard x.toWALEntry.txn, int32 (s.shippedEffect response a) = 0

instance (s : ServerImpl) (response : SyncRes) : Decidable (s.shipsNothing response) :=
  inferInstanceAs (Decidable (∀ x ∈ _, _ ∧ ∀ a ∈ _, _))

/-- The events that a disconnected server handles without a trace: replies that do not bring the open round to an
accept quorum, or to a prepare quorum at which a cross-shard entry can be chosen from the batch, sync replies that ship
nothing that counts, and the sync requests of peers that are not behind. -/
def staysSilent (s : ServerImpl) : Event → Prop
  | .prepareReply status request response => s.turnSilent (s.turn (.prepareReply status request response))
  | .acceptReply status request response => s.turnSilent (s.turn (.acceptReply status request response))
  | .syncReply status response => status = .ok → response.ack = true → s.shipsNothing response
  | .syncCall request => s.ledger.lastInserted ≤ request.lastInserted
  | _ => True

instance (s : ServerImpl) : (e : Event) → Decidable (s.staysSilent e)
  | .prepareReply _ _ _ | .acceptReply _ _ _ => inferInstanceAs (Decidable (s.turnSilent _))
  | .syncReply _ _ => inferInstanceAs (Decidable (_ → _ → s.shipsNothing _))
  | .syncCall _ => inferInstanceAs (Decidable (_ ≤ _))
  | .input _ | .prepareCall _ | .acceptCall _ | .commitCall _ => .isTrue trivial

/-! ## One event -/

/-- Where the ledger and the answers are as they were, only the acknowledgement counts. -/
theorem silent_of_same {u : ServerImpl} (hu : s.handle e = u) (hledger : u.ledger = s.ledger) (hreplies : u.replies = s.replies)
    (hacks : s.acknowledges e = false) : s.Silent e := by
  refine ⟨?_, ?_, ?_, hacks⟩
  · rw [hu, hledger]
  · rw [hu, hledger]
  · rw [hu, hreplies, List.drop_length]
    exact fun r hr => absurd hr List.not_mem_nil

theorem replies_finishRound (s : ServerImpl) : s.finishRound.replies = s.replies :=
  replies_maybeStartRound s.clearRound

theorem replies_onPrepareQuorum (s : ServerImpl) : s.onPrepareQuorum.replies =
    (s.completeTransfers (admitAll s.ledger s.promisedNum s.current).rejected false).replies := by
  unfold onPrepareQuorum
  split
  · exact replies_finishRound _
  · rfl

/-- Validation moves no money. -/
theorem balances_admitAll (l : Ledger) (ballot : Ballot) (batch : List BatchEntry) :
    (admitAll l ballot batch).ledger.balances = l.balances := by
  obtain ⟨K, hK⟩ := admits_admitAll l ballot batch
  rw [hK.ledger]
  exact (l.untouched_prepareAll ballot _).balances

/-- Answers are negative, or there are none. -/
theorem drop_completeTransfers (s : ServerImpl) (entries : List BatchEntry) (ack : Bool) :
    (∀ r ∈ (s.completeTransfers entries ack).replies.drop s.replies.length, r.ack = false) ↔
      ack = false ∨ entries = [] := by
  rw [completeTransfers, List.drop_left, List.forall_mem_map]
  cases entries with
  | nil => simp
  | cons b entries => simpa using fun h _ _ => h

theorem silent_vote_iff (hvote : e.isVote = true) : s.Silent e ↔ s.turnSilent (s.turn e) := by
  have hacks : s.acknowledges e = false := by
    cases e <;> first | rfl | cases hvote
  have hturned := s.handle_turned e
  have hsilent : s.Silent e ↔ (s.handle e).ledger.balances = s.ledger.balances ∧
      agreed (s.handle e).ledger.log = agreed s.ledger.log ∧
        ∀ r ∈ (s.handle e).replies.drop s.replies.length, r.ack = false :=
    ⟨fun h => ⟨h.balances, h.agreed, h.answers⟩, fun h => ⟨h.1, h.2.1, h.2.2, hacks⟩⟩
  rw [hsilent]
  have hrefused := (drop_completeTransfers s s.current false).mpr (.inl rfl)
  have hrelease : ∀ preparePhase, (s.current.foldl (releaseEntry preparePhase) s.ledger).balances = s.ledger.balances ∧
      agreed (s.current.foldl (releaseEntry preparePhase) s.ledger).log = agreed s.ledger.log := by
    intro preparePhase
    obtain ⟨locks, h⟩ := foldl_releaseEntry_eq preparePhase s.current s.ledger
    rw [h]
    exact ⟨rfl, rfl⟩
  generalize s.turn e = τ at hturned ⊢
  generalize s.handle e = u at hturned ⊢
  cases hturned with
  | prepareQuorum a b _ =>
    rw [ledger_onPrepareQuorum, replies_onPrepareQuorum]
    have hsame := s.ledger.agreed_log_admitAll_iff s.promisedNum s.current
    have hanswers := (drop_completeTransfers s (admitAll s.ledger s.promisedNum s.current).rejected false).mpr (.inl rfl)
    exact ⟨fun h => hsame.mp h.2.1, fun hkept => ⟨balances_admitAll _ _ _, hsame.mpr hkept, hanswers⟩⟩
  | acceptQuorum a b _ =>
    rw [onAcceptQuorum, ledger_finishRound, replies_finishRound]
    have hanswers := drop_completeTransfers s s.current true
    constructor
    · rintro ⟨-, -, h⟩
      exact (hanswers.mp h).resolve_left (by decide)
    · intro hnil
      refine ⟨?_, ?_, hanswers.mpr (.inr hnil)⟩
      · show (s.current.foldl (commitEntry s.acceptNum) s.ledger).balances = _
        rw [show s.current = [] from hnil]
        rfl
      · show agreed (s.current.foldl (commitEntry s.acceptNum) s.ledger).log = _
        rw [show s.current = [] from hnil]
        rfl
  | abortPrepare a b _ =>
    rw [onRoundAbort, ledger_finishRound, replies_finishRound]
    exact iff_of_true ⟨(hrelease true).1, (hrelease true).2, hrefused⟩ trivial
  | abortAccept a b _ =>
    rw [onRoundAbort, ledger_finishRound, replies_finishRound]
    exact iff_of_true ⟨(hrelease false).1, (hrelease false).2, hrefused⟩ trivial
  | other hnot =>
    rw [hvote] at hnot
    cases hnot
  | ignored | retried | lagging | countedPrepare | countedAccept =>
    refine iff_of_true ⟨rfl, rfl, ?_⟩ trivial
    intro r hr
    exact absurd (List.drop_length (l := s.replies) ▸ hr) List.not_mem_nil

theorem replies_resumeAfterSync (s : ServerImpl) : s.resumeAfterSync.replies = s.replies := by
  unfold resumeAfterSync
  split
  · rfl
  · exact replies_maybeStartRound _

/-- The entries of a sync reply are logged as they are. -/
theorem applies_applySync {l : Ledger} (hw : l.wal.Ok) (response : SyncRes) :
    l.Applies (response.logs.map LogEntry.toWALEntry) (l.applySync response) := by
  have hchain : Relation.ReflTransGen (LedgerMove fun _ => True) l (l.applySync response) :=
    applySync_chain (fun _ _ => trivial) l
  obtain ⟨new, hnew, -⟩ := Ledger.exists_applies hw hchain
  have heq := List.append_cancel_left (hnew.log.symm.trans (l.log_applySync response))
  exact heq ▸ hnew

/-- A sync reply leaves the accounts of other shards alone. -/
theorem balances_applySync_outside {l : Ledger} (response : SyncRes) {a : Int} (ha : l.isClientInCluster a = false) :
    (l.applySync response).balances a = l.balances a := by
  refine (List.foldlRecOn (motive := fun m : Ledger => m.isClientInCluster = l.isClientInCluster ∧
    m.balances a = l.balances a) (response.logs.map LogEntry.toWALEntry) Ledger.insertSynced ⟨rfl, rfl⟩ ?_).2
  rintro m ⟨hshard, hm⟩ x _
  refine ⟨hshard, ?_⟩
  have hout : ∀ (m' : Ledger) (firstApply : Bool) (account delta : Int), m'.isClientInCluster = l.isClientInCluster →
      (m'.applyInShard firstApply account delta).balances a = m'.balances a := by
    intro m' firstApply account delta hm'
    rw [Ledger.balances_applyInShard, if_neg, add_ofInt_zero]
    rintro ⟨-, hin, rfl⟩
    rw [hm', ha] at hin
    cases hin
  unfold Ledger.insertSynced
  dsimp only
  rw [hout, hout]
  · exact hm
  · exact hshard
  · exact hshard

/-- An account that no shipped entry names has nothing coming. -/
theorem shippedEffect_eq_zero {response : SyncRes} {a : Int}
    (ha : ∀ x ∈ response.logs, a ≠ x.toWALEntry.txn.sender ∧ a ≠ x.toWALEntry.txn.receiver) :
    s.shippedEffect response a = 0 := by
  refine List.sum_eq_zero ?_
  intro z hz
  obtain ⟨e, he, rfl⟩ := List.mem_map.mp hz
  obtain ⟨x, hx, rfl⟩ := List.mem_map.mp (mem_firstCommits (List.mem_filter.mp he).1).1
  obtain ⟨hs, hr⟩ := ha x hx
  exact Transaction.effect_of_ne hs hr

theorem balances_applySync_iff (hw : s.ledger.wal.Ok) (response : SyncRes) :
    (s.ledger.applySync response).balances = s.ledger.balances ↔ ∀ x ∈ response.logs,
      ∀ a ∈ s.ledger.inShard x.toWALEntry.txn, int32 (s.shippedEffect response a) = 0 := by
  have hone : ∀ a, s.ledger.isClientInCluster a = true →
      ((s.ledger.applySync response).balances a = s.ledger.balances a ↔ int32 (s.shippedEffect response a) = 0) := by
    intro a ha
    rw [(applies_applySync hw response).balance a ha]
    nth_rewrite 2 [← add_ofInt_zero (s.ledger.balances a)]
    exact add_ofInt_inj
  constructor
  · intro h x _ a ha
    exact (hone a (Ledger.mem_inShard.mp ha).2).mp (congrFun h a)
  · intro h
    funext a
    cases ha : s.ledger.isClientInCluster a with
    | false => exact balances_applySync_outside response ha
    | true =>
      refine (hone a ha).mpr ?_
      by_cases hnamed : ∃ x ∈ response.logs, a = x.toWALEntry.txn.sender ∨ a = x.toWALEntry.txn.receiver
      · obtain ⟨x, hx, hside⟩ := hnamed
        exact h x hx a (Ledger.mem_inShard.mpr ⟨hside, ha⟩)
      · push Not at hnamed
        rw [shippedEffect_eq_zero hnamed]
        rfl

theorem silent_syncReply_iff (hw : s.ledger.wal.Ok) (status : Status) (response : SyncRes) :
    s.Silent (.syncReply status response) ↔ s.staysSilent (.syncReply status response) := by
  have hanswers : ∀ r ∈ (s.handle (.syncReply status response)).replies.drop s.replies.length, r.ack = false := by
    have hreplies : (s.handle (.syncReply status response)).replies = s.replies := by
      refine (replies_resumeAfterSync _).trans ?_
      split <;> rfl
    rw [hreplies, List.drop_length]
    exact fun r hr => absurd hr List.not_mem_nil
  have hledger := s.ledger_syncReply status response
  show _ ↔ (status = .ok → response.ack = true → s.shipsNothing response)
  split at hledger
  · rename_i hok
    constructor
    · intro h _ _
      have hsettled := (balances_applySync_iff hw response).mp (hledger ▸ h.balances)
      have hagreed := (s.ledger.agreed_log_applySync_iff response).mp (hledger ▸ h.agreed)
      exact fun x hx => ⟨hagreed x hx, hsettled x hx⟩
    · intro h
      have hships := h hok.1 hok.2
      refine ⟨?_, ?_, hanswers, rfl⟩
      · rw [hledger]
        exact (balances_applySync_iff hw response).mpr fun x hx => (hships x hx).2
      · rw [hledger]
        exact (s.ledger.agreed_log_applySync_iff response).mpr fun x hx => (hships x hx).1
  · rename_i hnot
    refine iff_of_true ⟨by rw [hledger], by rw [hledger], hanswers, rfl⟩ ?_
    exact fun hstatus hack => absurd ⟨hstatus, hack⟩ hnot

theorem silent_sweep (hw : s.ledger.wal.Ok) : s.Silent (.input .sweep) := by
  have hbalances : s.ledger.sweep.balances = s.ledger.balances := by
    refine List.foldlRecOn (motive := fun l : Ledger => l.balances = s.ledger.balances) s.ledger.expired
      Ledger.timeoutTransaction rfl ?_
    intro l hl tid _
    rw [Ledger.timeoutTransaction_eq]
    exact (l.sameMoney_abort tid).balances.trans hl
  refine ⟨hbalances, Ledger.agreed_sweep hw, ?_, rfl⟩
  intro r hr
  exact absurd (List.drop_length (l := s.replies) ▸ hr) List.not_mem_nil

/-- **One event of a disconnected server, exactly.** -/
theorem silent_iff (hdisc : s.iAmDisconnected = true) (hw : s.ledger.wal.Ok) (e : Event) : s.Silent e ↔ s.staysSilent e := by
  -- the handlers that test the flag leave the server as it is
  have hidle : ∀ {e : Event}, s.handle e = { s with outbox := [] } → s.acknowledges e = false → s.Silent e :=
    fun hu hacks => silent_of_same hu rfl rfl hacks
  have hrefused : ∀ (x : Input) (b : BatchEntry), s.handle (.input x) = completeTransfers { s with outbox := [] } [b] false →
      s.Silent (.input x) := by
    intro x b hu
    refine ⟨by rw [hu]; rfl, by rw [hu]; rfl, ?_, rfl⟩
    rw [hu]
    exact (drop_completeTransfers s [b] false).mpr (.inl rfl)
  cases e with
  | prepareReply status request response => exact silent_vote_iff rfl
  | acceptReply status request response => exact silent_vote_iff rfl
  | syncReply status response => exact silent_syncReply_iff hw status response
  | syncCall request =>
    have hack : s.acknowledges (.syncCall request) = decide (s.ledger.lastInserted > request.lastInserted) := by
      show (s.ledger.processSyncCall request).ack = _
      unfold Ledger.processSyncCall
      split <;> simp_all
    constructor
    · intro h
      have hacks := h.acks
      rw [hack, decide_eq_false_iff_not, not_lt] at hacks
      exact hacks
    · intro h
      refine hidle rfl ?_
      rw [hack, decide_eq_false_iff_not, not_lt]
      exact h
  | prepareCall request =>
    refine iff_of_true (hidle ?_ ?_) trivial
    · show (processPrepareCall { s with outbox := [] } request).1 = _
      rw [processPrepareCall_fst, if_pos hdisc]
    · show (s.processPrepareCall request).2.ack = false
      rw [processPrepareCall, if_pos hdisc]
      rfl
  | acceptCall request =>
    refine iff_of_true (hidle ?_ ?_) trivial
    · show (processAcceptCall { s with outbox := [] } request).1 = _
      rw [processAcceptCall, if_pos hdisc]
    · show (s.processAcceptCall request).2.ack = false
      rw [processAcceptCall, if_pos hdisc]
  | commitCall request =>
    refine iff_of_true (hidle ?_ rfl) trivial
    show processCommitCall { s with outbox := [] } request = _
    rw [processCommitCall, if_pos hdisc]
  | input x =>
    refine iff_of_true ?_ trivial
    cases x with
    | transfer call request => exact hrefused _ _ (if_pos hdisc)
    | tpcPrepare call request => exact hrefused _ _ (if_pos hdisc)
    | tpcDecision tid isCommit => exact hidle (if_pos hdisc) rfl
    | disconnect servers => exact silent_of_same rfl rfl rfl rfl
    | tick ms =>
      refine ⟨rfl, rfl, ?_, rfl⟩
      intro r hr
      exact absurd (List.drop_length (l := s.replies) ▸ hr) List.not_mem_nil
    | sweep => exact silent_sweep hw

end ServerImpl

/-! ## While it lasts -/

/-- A `Disconnect` that does not name the server. -/
def Event.reconnects (i : Int) : Event → Bool
  | .input (.disconnect servers) => !servers.contains i
  | _ => false

namespace ServerImpl

variable {s t : ServerImpl} {e : Event} {i : Int}

theorem Core.iAmDisconnected (h : Core s e t) (hdisc : s.iAmDisconnected = true) (he : e.reconnects s.serverId = false) :
    t.iAmDisconnected = true := by
  cases h with
  | disconnect servers => exact Bool.not_eq_eq_eq_not.mp he
  | _ => exact hdisc

/-- Server `i`, disconnected, with its WAL in order. -/
structure Offline (i : Int) (s : ServerImpl) : Prop where
  identity : s.serverId = i
  disconnected : s.iAmDisconnected = true
  counted : s.ledger.Counted

theorem Offline.handle (h : s.Offline i) (he : e.reconnects i = false) : (s.handle e).Offline i where
  identity := (s.handle_moves e).identity.1.trans h.identity
  counted := counted_handle h.counted e
  disconnected := by
    rw [← h.identity] at he
    generalize hu : s.handle e = u
    cases moves_of_handle hu with
    | done hcore => exact hcore.iAmDisconnected h.disconnected he
    | @start t hcore =>
      show t.iAmDisconnected = true
      exact hcore.iAmDisconnected h.disconnected he
    | retry hpre => exact hpre.frame.iAmDisconnected.trans h.disconnected

/-- The `Disconnect` that names the server. -/
theorem offline_disconnect (c : Constants) (i : Int) (v : List LifeEvent) {servers : List Int}
    (hnamed : servers.contains i = true) : ((life c i v).handle (.input (.disconnect servers))).Offline i where
  identity := (alive_life c i v).identity
  counted := counted_life c i v
  disconnected := by
    show servers.contains (life c i v).serverId = true
    rw [(alive_life c i v).identity]
    exact hnamed

end ServerImpl

open ServerImpl (handle Silent staysSilent)

/-- **A disconnected server, exactly**: from the `Disconnect` that names it up to one that does not, what it handles
changes neither its balances nor its agreed entries, acknowledges no transfer and no peer, if and only if all of it
stays silent. -/
theorem disconnected_silent_iff (c : Constants) (i : Int) (v : List LifeEvent) (servers : List Int) (es : List Event)
    (hnamed : servers.contains i = true) (hes : ∀ e ∈ es, e.reconnects i = false) :
    okRun handle Silent ((ServerImpl.life c i v).handle (.input (.disconnect servers))) es ↔
      okRun handle staysSilent ((ServerImpl.life c i v).handle (.input (.disconnect servers))) es := by
  refine okRun_congr (I := ServerImpl.Offline i) (p := fun e => e.reconnects i = false) ?_ ?_
    (ServerImpl.offline_disconnect c i v hnamed) hes
  · exact fun s e hs he => hs.handle he
  · exact fun s e hs _ => ServerImpl.silent_iff hs.disconnected hs.counted.wal e

/-- Server 1 has sent the prepares of a transfer, and a sync request to server 3, when it is disconnected. -/
def roundAndSync : List LifeEvent :=
  [.event (.input (.transfer 0 ⟨⟨1, 2, 3⟩, 7⟩)), .event (.prepareCall ⟨⟨4, 3⟩, 0⟩)]

/-- The sync reply ships an abort, and the round is taken up again.  It comes to its prepare quorum, is refused by
server 2 and not answered by server 3, and its client is told so. -/
def refusedAfterSync : List Event :=
  [.syncReply .ok ⟨true, [getLogEntryFromLocalLog ⟨5, 2, 3, ⟨3, 1001, 2⟩, .cross, .aborted⟩], ⟨2, 3⟩⟩,
   .prepareReply .ok ⟨⟨3, 1⟩, -1⟩ (ServerImpl.plainPrepareRes true ⟨3, 1⟩),
   .acceptReply .ok ⟨⟨3, 1⟩, [⟨⟨1, 2, 3⟩, 7⟩]⟩ ⟨false, ⟨3, 1⟩⟩,
   .acceptReply .deadlineExceeded ⟨⟨3, 1⟩, [⟨⟨1, 2, 3⟩, 7⟩]⟩ ⟨false, .zero⟩, .syncCall ⟨0⟩]

theorem disconnected_silent_iff_roundAndSync :
    okRun handle Silent ((ServerImpl.life ⟨3, 3⟩ 1 roundAndSync).handle (.input (.disconnect [1]))) refusedAfterSync :=
  (disconnected_silent_iff ⟨3, 3⟩ 1 roundAndSync [1] refusedAfterSync (by decide) (by decide)).mpr (by decide +kernel)

/-- Server 1 has proposed a transfer when it is disconnected.  The acceptance of server 2 makes it move the money and
tell the client so. -/
theorem disconnected_server_commits :
    ¬ ∀ (c : Constants) (i : Int) (v : List LifeEvent) (servers : List Int) (es : List Event), servers.contains i = true →
      (∀ e ∈ es, e.reconnects i = false) →
      okRun handle Silent ((ServerImpl.life c i v).handle (.input (.disconnect servers))) es := by
  intro h
  have hrun := h ⟨3, 3⟩ 1 [.event (.input (.transfer 0 ⟨⟨1, 2, 3⟩, 7⟩)),
      .event (.prepareReply .ok ⟨⟨1, 1⟩, -1⟩ (ServerImpl.plainPrepareRes true ⟨1, 1⟩))] [1]
    [.acceptReply .ok ⟨⟨1, 1⟩, [⟨⟨1, 2, 3⟩, 7⟩]⟩ ⟨true, ⟨1, 1⟩⟩] (by decide) (by decide)
  exact absurd (congrFun hrun.1.balances 1) (by decide +kernel)

end MultiPaxosDB
