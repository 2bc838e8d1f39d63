/-
# MultiPaxosDB.Aborts — a round that fails in its accept phase, and the aborts that follow.

A failed round is rolled back in two places: `onRoundAbort(false)` releases the intra-shard entries,
and a later `TpcAbort` per cross-shard entry reads the prepare back from the WAL, releases its accounts
and drops the tid.  Locks have no owner, so both release by account.  That the ledger ends as it began
(`aborted_round_restores`) rests on three facts: a kept entry's in-shard accounts were free before the
round, an intra-shard entry has no other accounts, and a prepared tid is read back as it was written.

The order of the aborts plays no part: `decideAll_spec` describes any list of decisions.  One tid is not
rolled back: `-1` is the WAL's own sentinel for "no entry" (`sentinel_tid_keeps_lock`).
-/
import MultiPaxosDB.Batching
import MultiPaxosDB.Calls
import MultiPaxosDB.Sequences

namespace MultiPaxosDB

open ServerImpl (Spares)

theorem mem_crossRequests {bs : List BatchEntry} {r : TransferReq} :
    r ∈ crossRequests bs ↔ ∃ b ∈ bs, b.isCrossShard = true ∧ b.request = r := by
  simp only [crossRequests, List.mem_map, List.mem_filter, and_assoc]

/-! ## Prepared tids -/

namespace Ledger

section PrepareAll

variable {l : Ledger} (ballot : Ballot) (rs : List TransferReq)

theorem ok_prepareAll (hw : l.wal.Ok) : (l.prepareAll ballot rs).wal.Ok := by
  induction rs using List.reverseRecOn with
  | nil => exact hw
  | append_singleton rs r ih =>
    rw [prepareAll_snoc]
    exact ih.prepareTransaction r ballot

/-- Each of the requests, if their tids are distinct, is read back as it was prepared. -/
theorem pendingEntry_prepareAll (hw : l.wal.Ok) (htids : (rs.map TransferReq.tid).Nodup) :
    ∀ r ∈ rs, (l.prepareAll ballot rs).wal.pendingEntry r.tid = some (WAL.preparedEntry r ballot) := by
  induction rs using List.reverseRecOn with
  | nil => exact fun r hr => absurd hr List.not_mem_nil
  | append_singleton rs r ih =>
    rw [List.map_append, List.nodup_append] at htids
    obtain ⟨hinit, -, hlast⟩ := htids
    intro r' hr'
    rw [prepareAll_snoc]
    refine ((ok_prepareAll ballot rs hw).pendingEntry_prepareTransaction r ballot r'.tid).trans ?_
    rcases List.mem_append.mp hr' with hold | hnew
    · rw [if_neg (hlast _ (List.mem_map.mpr ⟨r', hold, rfl⟩) _ (List.mem_singleton.mpr rfl))]
      exact ih hinit r' hold
    · obtain rfl := List.mem_singleton.mp hnew
      exact if_pos rfl

/-- Preparing touches the index and the timestamps at the requests' tids only. -/
theorem getElem?_prepareAll {t : Int} (ht : t ∉ rs.map TransferReq.tid) :
    (l.prepareAll ballot rs).wal.transferIndex[t]? = l.wal.transferIndex[t]? ∧
      (l.prepareAll ballot rs).prepareTimestamps[t]? = l.prepareTimestamps[t]? := by
  induction rs using List.reverseRecOn with
  | nil => exact ⟨rfl, rfl⟩
  | append_singleton rs r ih =>
    rw [List.map_append, List.mem_append, not_or] at ht
    have hne : t ≠ r.tid := fun heq => ht.2 (List.mem_singleton.mpr heq)
    obtain ⟨hindex, hstamps⟩ := ih ht.1
    rw [prepareAll_snoc]
    constructor
    · refine (WAL.getElem?_insert_tid _ _ _ _).trans ?_
      rw [if_neg hne, hindex]
    · refine (WAL.getElem?_insert_tid _ _ _ _).trans ?_
      rw [if_neg hne, hstamps]

end PrepareAll

/-! ## Aborts -/

/-- The two ledgers have the same money: balances in memory and in LevelDB, and applied tids. -/
structure SameMoney (l l' : Ledger) : Prop where
  balances : l'.balances = l.balances
  dbBalances : l'.dbBalances = l.dbBalances
  balanceApplied : l'.balanceApplied = l.balanceApplied

theorem SameMoney.refl (l : Ledger) : l.SameMoney l := ⟨rfl, rfl, rfl⟩

theorem SameMoney.trans {l l' l'' : Ledger} (h : l.SameMoney l') (h' : l'.SameMoney l'') : l.SameMoney l'' :=
  ⟨h'.balances.trans h.balances, h'.dbBalances.trans h.dbBalances,
    h'.balanceApplied.trans h.balanceApplied⟩

theorem sameMoney_unlockInShard (l : Ledger) (clientId : Int) : l.SameMoney (l.unlockInShard clientId) := ⟨rfl, rfl, rfl⟩

theorem sameMoney_applyInShard (l : Ledger) (clientId delta : Int) : l.SameMoney (l.applyInShard false clientId delta) :=
  ⟨rfl, rfl, rfl⟩

/-- Settling an abort releases locks only. -/
theorem sameMoney_settle (l : Ledger) (e : WALEntry) : l.SameMoney (l.settleDecision e false) :=
  (((sameMoney_unlockInShard _ _).trans (sameMoney_applyInShard _ _ _)).trans (sameMoney_unlockInShard _ _)).trans
    (sameMoney_applyInShard _ _ _)

theorem sameMoney_abort (l : Ledger) (tid : Int) : l.SameMoney (l.processTpcDecision tid false) := by
  simp only [processTpcDecision, Bool.false_eq_true, ↓reduceIte, Bool.false_and]
  split
  · exact ⟨(sameMoney_settle _ _).balances, (sameMoney_settle _ _).dbBalances, (sameMoney_settle _ _).balanceApplied⟩
  · exact ⟨rfl, rfl, rfl⟩

/-- A decision forgets the tid, in the index and in the timestamps, and touches no other. -/
theorem getElem?_processTpcDecision {l : Ledger} (hw : l.wal.Ok) (tid : Int) (isCommit : Bool) (t : Int) :
    (l.processTpcDecision tid isCommit).wal.transferIndex[t]? =
        (if t = tid then none else l.wal.transferIndex[t]?) ∧
      (l.processTpcDecision tid isCommit).prepareTimestamps[t]? =
        if t = tid then none else l.prepareTimestamps[t]? := by
  constructor
  · rw [wal_processTpcDecision]
    cases hp : l.wal.transferIndex[tid]? with
    | none =>
      have hself : (l.wal.decideTransaction tid (decisionStatus isCommit)).1 = l.wal := by
        simp [WAL.decideTransaction, hp]
      rw [hself]
      by_cases ht : t = tid
      · rw [if_pos ht, ht, hp]
      · rw [if_neg ht]
    | some p =>
      simp only [WAL.decideTransaction, hp, if_pos hw.canWrite]
      exact WAL.getElem?_erase_tid _ _ _
  · have hstamps : (l.processTpcDecision tid isCommit).prepareTimestamps =
        l.prepareTimestamps.erase tid := by
      simp only [processTpcDecision, decision_wal]
      split <;> rfl
    rw [hstamps, WAL.getElem?_erase_tid]

/-- The aborts of a list of tids: no money moves, and the tids are forgotten. -/
theorem abortAll_spec : ∀ (tids : List Int) {l : Ledger}, l.wal.Ok →
    l.SameMoney (l.decideAll false tids) ∧
      ∀ t, (l.decideAll false tids).wal.transferIndex[t]? =
          (if t ∈ tids then none else l.wal.transferIndex[t]?) ∧
        (l.decideAll false tids).prepareTimestamps[t]? =
          if t ∈ tids then none else l.prepareTimestamps[t]? := by
  intro tids
  induction tids with
  | nil =>
    intro l _
    exact ⟨.refl l, fun t => ⟨by simp [decideAll], by simp [decideAll]⟩⟩
  | cons tid tids ih =>
    intro l hw
    have hw' : (l.processTpcDecision tid false).wal.Ok := by
      rw [wal_processTpcDecision]
      exact hw.decideTransaction tid _
    obtain ⟨hmoney, hforget⟩ := ih hw'
    refine ⟨(sameMoney_abort l tid).trans hmoney, ?_⟩
    intro t
    obtain ⟨hindex, hstamps⟩ := hforget t
    obtain ⟨hindex', hstamps'⟩ := getElem?_processTpcDecision hw tid false t
    rw [hindex'] at hindex
    rw [hstamps'] at hstamps
    constructor
    · refine hindex.trans ?_
      by_cases ht : t = tid
      · simp [ht]
      · simp [ht]
    · refine hstamps.trans ?_
      by_cases ht : t = tid
      · simp [ht]
      · simp [ht]

/-- The loop of `onRoundAbort(false)` changes nothing but locks. -/
theorem releaseAll_spec (l : Ledger) (bs : List BatchEntry) :
    ∃ locks, bs.foldl (ServerImpl.releaseEntry false) l = { l with locks := locks } ∧
      ∀ a, a ∈ locks ↔ a ∈ l.locks ∧ ∀ b ∈ bs, Spares b a := by
  induction bs using List.reverseRecOn with
  | nil => exact ⟨l.locks, rfl, by simp⟩
  | append_singleton bs b ih =>
    obtain ⟨locks, heq, hlocks⟩ := ih
    refine ⟨(ServerImpl.releaseEntry false { l with locks := locks } b).locks, ?_, ?_⟩
    · rw [List.foldl_append, heq, List.foldl_cons, List.foldl_nil]
      unfold ServerImpl.releaseEntry
      split <;> rfl
    · intro a
      rw [ServerImpl.mem_locks_releaseEntry, hlocks a, and_assoc, List.forall_mem_append,
        List.forall_mem_singleton]

/-! ## Keeping, releasing, aborting -/

/-- The kept entries of a fresh batch, as far as the ledger is concerned. -/
structure Keepable (l : Ledger) (ks : List BatchEntry) : Prop where
  distinct : (ks.map (·.request.tid)).Nodup
  free : ∀ b ∈ ks, l.Free b.request.txn
  unknown : ∀ b ∈ ks, b.request.tid ∉ l.wal.transferIndex ∧ b.request.tid ∉ l.prepareTimestamps
  within : ∀ b ∈ ks, b.isCrossShard = false → b.request.txn.within l.isClientInCluster = true

/-- The ledger is back to what it was, but for the log. -/
structure RolledBack (l l' : Ledger) : Prop extends l.SameMoney l' where
  locks : l'.locks = l.locks
  transferIndex : l'.wal.transferIndex = l.wal.transferIndex
  prepareTimestamps : l'.prepareTimestamps = l.prepareTimestamps

section Rollback

variable {l : Ledger} {ks : List BatchEntry}

theorem Keepable.cross_distinct (h : l.Keepable ks) : ((crossRequests ks).map TransferReq.tid).Nodup := by
  rw [crossRequests, List.map_map]
  exact h.distinct.sublist (List.filter_sublist.map _)

/-- An account that was locked before is none of the kept entries'. -/
theorem Keepable.spares (h : l.Keepable ks) {a : Int} (ha : a ∈ l.locks) : ∀ b ∈ ks, Spares b a := by
  intro b hb hintra
  obtain ⟨hsender, hreceiver⟩ : l.isClientInCluster b.request.txn.sender = true ∧
      l.isClientInCluster b.request.txn.receiver = true := by
    simpa [Transaction.within] using h.within b hb hintra
  constructor
  · rintro rfl
    exact (h.free b hb).unlocked _ (mem_inShard.mpr ⟨.inl rfl, hsender⟩) ha
  · rintro rfl
    exact (h.free b hb).unlocked _ (mem_inShard.mpr ⟨.inr rfl, hreceiver⟩) ha

variable (ballot : Ballot) {locks : Finset Int} {tids : List Int}

/-- The locks after the aborts, of a ledger that has kept `ks` and released the intra-shard entries. -/
theorem Keepable.locks_aborted (h : l.Keepable ks) (hw : l.wal.Ok)
    (hsentinel : ∀ b ∈ ks, b.isCrossShard = true → b.request.tid ≠ -1)
    (hlocks : ∀ a, a ∈ locks ↔ a ∈ (l.keep ballot ks).locks ∧ ∀ b ∈ ks, Spares b a)
    (htids : ∀ t, t ∈ tids ↔ t ∈ (crossRequests ks).map TransferReq.tid) :
    (decideAll { l.keep ballot ks with locks := locks } false tids).locks = l.locks := by
  have huntouched := l.untouched_prepareAll ballot (crossRequests ks)
  have hin : ∀ txn, inShard { l.keep ballot ks with locks := locks } txn = l.inShard txn := fun txn =>
    inShard_congr huntouched.constants huntouched.clusterId txn
  have hpending := pendingEntry_prepareAll ballot (crossRequests ks) hw h.cross_distinct
  obtain ⟨-, -, hunlock⟩ := decideAll_spec false tids
    (l := { l.keep ballot ks with locks := locks }) (ok_prepareAll ballot _ hw)
  ext a
  rw [hunlock a]
  show a ∈ locks ∧ _ ↔ _
  rw [hlocks a]
  show (a ∈ l.locks ∪ l.accountsOf ks ∧ _) ∧ _ ↔ _
  rw [Finset.mem_union, mem_accountsOf]
  constructor
  · rintro ⟨⟨hold | ⟨b, hb, ha⟩, hspares⟩, habort⟩
    · exact hold
    · exfalso
      cases hkind : b.isCrossShard with
      | false =>
        -- released with the round
        obtain ⟨hsender, hreceiver⟩ := hspares b hb hkind
        exact (mem_inShard.mp ha).1.elim hsender hreceiver
      | true =>
        -- released by the abort, which reads the prepare back as it was written
        have hr : b.request ∈ crossRequests ks := mem_crossRequests.mpr ⟨b, hb, hkind, rfl⟩
        refine habort b.request.tid ((htids _).mpr (List.mem_map.mpr ⟨_, hr, rfl⟩))
          (hsentinel b hb hkind) _ (hpending _ hr) ?_
        rw [hin]
        exact ha
  · intro hold
    refine ⟨⟨.inl hold, h.spares hold⟩, ?_⟩
    intro t ht _ e he
    obtain ⟨r, hr, rfl⟩ := List.mem_map.mp ((htids t).mp ht)
    obtain ⟨b, hb, -, rfl⟩ := mem_crossRequests.mp hr
    obtain rfl := Option.some.inj ((hpending _ hr).symm.trans he)
    rw [hin]
    exact fun ha => (h.free b hb).unlocked a ha hold

/-- Keeping a fresh batch, releasing its intra-shard entries and aborting its cross-shard ones, in any
order, changes nothing but the log. -/
theorem Keepable.rolledBack (h : l.Keepable ks) (hw : l.wal.Ok)
    (hsentinel : ∀ b ∈ ks, b.isCrossShard = true → b.request.tid ≠ -1)
    (htids : tids.Perm ((crossRequests ks).map TransferReq.tid)) :
    l.RolledBack ((ks.foldl (ServerImpl.releaseEntry false) (l.keep ballot ks)).decideAll false tids) := by
  obtain ⟨locks, hrelease, hlocks⟩ := releaseAll_spec (l.keep ballot ks) ks
  have huntouched := l.untouched_prepareAll ballot (crossRequests ks)
  have hunknown : ∀ t ∈ tids, l.wal.transferIndex[t]? = none ∧ l.prepareTimestamps[t]? = none := by
    intro t ht
    obtain ⟨r, hr, rfl⟩ := List.mem_map.mp (htids.mem_iff.mp ht)
    obtain ⟨b, hb, -, rfl⟩ := mem_crossRequests.mp hr
    obtain ⟨hindex, hstamps⟩ := h.unknown b hb
    exact ⟨Std.ExtTreeMap.getElem?_eq_none hindex, Std.ExtTreeMap.getElem?_eq_none hstamps⟩
  obtain ⟨hmoney, hforget⟩ := abortAll_spec tids
    (l := { l.keep ballot ks with locks := locks }) (ok_prepareAll ballot _ hw)
  have hback : ∀ t : Int, (decideAll { l.keep ballot ks with locks := locks } false tids).wal.transferIndex[t]? =
        l.wal.transferIndex[t]? ∧
      (decideAll { l.keep ballot ks with locks := locks } false tids).prepareTimestamps[t]? =
        l.prepareTimestamps[t]? := by
    intro t
    rw [(hforget t).1, (hforget t).2]
    -- a decided tid was unknown before the round, any other was not touched
    by_cases ht : t ∈ tids
    · rw [if_pos ht, if_pos ht, (hunknown t ht).1, (hunknown t ht).2]
      exact ⟨rfl, rfl⟩
    · rw [if_neg ht, if_neg ht]
      exact getElem?_prepareAll ballot _ fun hin => ht (htids.mem_iff.mpr hin)
  rw [hrelease]
  refine ⟨⟨hmoney.balances.trans huntouched.balances, hmoney.dbBalances.trans huntouched.dbBalances,
    hmoney.balanceApplied.trans huntouched.balanceApplied⟩, ?_, ?_, ?_⟩
  · exact h.locks_aborted ballot hw hsentinel hlocks fun t => htids.mem_iff
  · refine Std.ExtTreeMap.ext_getElem? ?_
    intro t
    exact (hback t).1
  · refine Std.ExtTreeMap.ext_getElem? ?_
    intro t
    exact (hback t).2

end Rollback

end Ledger

/-! ## The failed round -/

namespace ServerImpl

/-- The prepare quorum of the round for `current_` is reached and then, if anything is kept, its accept
phase fails. -/
def failRound (s : ServerImpl) : ServerImpl :=
  if s.onPrepareQuorum.awaitAcceptDecision then s.onPrepareQuorum.onRoundAbort false
  else s.onPrepareQuorum

/-- The coordinator's aborts are handled, one after the other. -/
def abortAll (s : ServerImpl) (tids : List Int) : ServerImpl :=
  tids.foldl (fun s tid => s.handle (.input (.tpcDecision tid false))) s

/-- The tids of the cross-shard entries that `onPrepareQuorum` keeps. -/
def keptCrossTids (s : ServerImpl) : List Int := (crossRequests s.validate.current).map TransferReq.tid

theorem failRound_spec (s : ServerImpl) :
    s.failRound.ledger = s.validate.current.foldl (releaseEntry false) s.validate.ledger ∧
      s.failRound.replies = s.validate.replies ++ s.validate.current.map (answer false) ∧
      s.failRound.iAmDisconnected = s.iAmDisconnected := by
  have hdisc : ∀ u : ServerImpl, u.maybeStartRound.iAmDisconnected = u.iAmDisconnected := by
    intro u
    unfold maybeStartRound
    split <;> rfl
  have hawait : ∀ u : ServerImpl, u.awaitAcceptDecision = false →
      u.maybeStartRound.awaitAcceptDecision = false := by
    intro u hu
    unfold maybeStartRound
    split
    · exact hu
    · rfl
  unfold failRound onPrepareQuorum
  by_cases hempty : s.validate.current.isEmpty = true
  · rw [if_pos hempty, if_neg (by rw [finishRound, hawait _ rfl]; exact Bool.false_ne_true),
      List.isEmpty_iff.mp hempty, finishRound, ledger_maybeStartRound, replies_maybeStartRound, hdisc]
    exact ⟨rfl, (List.append_nil _).symm, rfl⟩
  · have hphase : s.validate.propose.awaitAcceptDecision = true := rfl
    rw [if_neg hempty, if_pos hphase, onRoundAbort, finishRound, ledger_maybeStartRound,
      replies_maybeStartRound, hdisc]
    exact ⟨rfl, rfl, rfl⟩

theorem abortAll_eq {s : ServerImpl} (hconn : s.iAmDisconnected = false) (tids : List Int) :
    (s.abortAll tids).ledger = s.ledger.decideAll false tids ∧ (s.abortAll tids).replies = s.replies ∧
      (s.abortAll tids).iAmDisconnected = false := by
  induction tids using List.reverseRecOn with
  | nil => exact ⟨rfl, rfl, hconn⟩
  | append_singleton tids tid ih =>
    obtain ⟨hledger, hreplies, hdisc⟩ := ih
    have hstep : s.abortAll (tids ++ [tid]) =
        { s.abortAll tids with
          outbox := []
          ledger := (s.abortAll tids).ledger.processTpcDecision tid false } := by
      rw [abortAll, List.foldl_append]
      exact if_neg fun h => Bool.noConfusion (hdisc.symm.trans h)
    rw [hstep]
    refine ⟨?_, hreplies, hdisc⟩
    show (s.abortAll tids).ledger.processTpcDecision tid false = _
    rw [hledger, Ledger.decideAll, Ledger.decideAll, List.foldl_append]
    rfl

/-- A batch as clients send it: distinct tids that the server does not know yet, each request to the
handler of its kind. -/
structure FreshBatch (s : ServerImpl) : Prop where
  distinct : (s.current.map (·.request.tid)).Nodup
  unknown : ∀ b ∈ s.current, b.request.tid ∉ s.ledger.wal.transferIndex ∧
    b.request.tid ∉ s.ledger.prepareTimestamps
  routed : ∀ b ∈ s.current,
    byShard s.ledger.isClientInCluster b.isCrossShard b.request.tid b.request.txn

theorem FreshBatch.keepable {s : ServerImpl} (h : s.FreshBatch) :
    s.validate.current.Sublist s.current ∧ s.ledger.Keepable s.validate.current := by
  obtain ⟨K, hK⟩ := admits_admitAll s.ledger s.promisedNum s.current
  have hkept : s.validate.current = Lib.pick (· ∈ K) s.current := hK.kept
  have hsub : s.validate.current.Sublist s.current := by
    rw [hkept]
    exact Lib.pick_sublist _ _
  refine ⟨hsub, h.distinct.sublist (hsub.map _), ?_, fun b hb => h.unknown b (hsub.subset hb),
    fun b hb hintra => (h.routed b (hsub.subset hb)).2 hintra⟩
  intro b hb
  rw [hkept] at hb
  obtain ⟨i, hi, hbi⟩ := (Lib.mem_pick _).mp hb
  exact ((hK.greedy.exact i b hbi).mp hi).1

/-- **An aborted round leaves money and locks as they were**: the balances, the LevelDB balances, the
applied tids, the locks, the pending tids and the timestamps are those before the round, whatever the
order of the aborts, and every call of the batch has been answered false, once. -/
theorem aborted_round_restores (s : ServerImpl) (tids : List Int) (hw : s.ledger.wal.Ok)
    (hconn : s.iAmDisconnected = false) (hbatch : s.FreshBatch)
    (hsentinel : ∀ b ∈ s.current, b.isCrossShard = true → b.request.tid ≠ -1)
    (htids : tids.Perm s.keptCrossTids) :
    s.ledger.RolledBack (s.failRound.abortAll tids).ledger ∧
      ∃ answers, (s.failRound.abortAll tids).replies = s.replies ++ answers ∧
        answers.Perm (s.current.map (answer false)) := by
  obtain ⟨K, hK⟩ := admits_admitAll s.ledger s.promisedNum s.current
  obtain ⟨hsub, hkeepable⟩ := hbatch.keepable
  obtain ⟨hfail, hreplies, hdisc⟩ := s.failRound_spec
  obtain ⟨hledger, hreplies', -⟩ := abortAll_eq (hdisc.trans hconn) tids
  constructor
  · have hvalid : s.validate.ledger = s.ledger.keep s.promisedNum s.validate.current := hK.ledger
    rw [hledger, hfail, hvalid]
    exact hkeepable.rolledBack s.promisedNum hw (fun b hb => hsentinel b (hsub.subset hb)) htids
  · refine ⟨(admitAll s.ledger s.promisedNum s.current).rejected.map (answer false) ++
      s.validate.current.map (answer false), ?_, ?_⟩
    · rw [hreplies', hreplies, ← List.append_assoc]
      rfl
    · rw [← List.map_append]
      exact (admitAll_perm _ _ _).map _

/-- Server 1 of the first of three shards at its prepare quorum, with the given batch. -/
def atPrepareQuorum (batch : List BatchEntry) : ServerImpl :=
  startRound { fresh ⟨3, 3⟩ 1 with pending := batch }

theorem aborted_round_restores_threeTransfers :
    (atPrepareQuorum threeTransfers).keptCrossTids = [2] ∧
      (atPrepareQuorum threeTransfers).ledger.RolledBack
        ((atPrepareQuorum threeTransfers).failRound.abortAll [2]).ledger := by
  have hkept : (atPrepareQuorum threeTransfers).keptCrossTids = [2] := by decide +kernel
  refine ⟨hkept, (aborted_round_restores (atPrepareQuorum threeTransfers) [2] .empty rfl
    ⟨by decide, ?_, by decide +kernel⟩ (by decide) (by rw [hkept])).1⟩
  intro b _
  exact ⟨Std.ExtTreeMap.not_mem_empty, Std.ExtTreeMap.not_mem_empty⟩

/-- A cross-shard transfer under the tid that the WAL uses for "no entry". -/
def sentinelTransfer : List BatchEntry := [⟨⟨⟨3, 1001, 4⟩, -1⟩, 1, true⟩]

/-- Its abort is written to the WAL and then taken for a decision on an unknown tid: the lock stays. -/
theorem sentinel_tid_keeps_lock :
    ¬ ∀ (s : ServerImpl) (tids : List Int), s.ledger.wal.Ok → s.iAmDisconnected = false → s.FreshBatch →
      tids.Perm s.keptCrossTids →
        s.ledger.RolledBack (s.failRound.abortAll tids).ledger ∧
          ∃ answers, (s.failRound.abortAll tids).replies = s.replies ++ answers ∧
            answers.Perm (s.current.map (answer false)) := by
  intro hall
  have hkept : (atPrepareQuorum sentinelTransfer).keptCrossTids = [-1] := by decide +kernel
  have hrolled := (hall (atPrepareQuorum sentinelTransfer) [-1] .empty rfl
    ⟨by decide, fun b _ => ⟨Std.ExtTreeMap.not_mem_empty, Std.ExtTreeMap.not_mem_empty⟩,
      by decide +kernel⟩ (by rw [hkept])).1
  have hlocked : ((atPrepareQuorum sentinelTransfer).failRound.abortAll [-1]).ledger.locks ≠
      (atPrepareQuorum sentinelTransfer).ledger.locks := by decide +kernel
  exact hlocked hrolled.locks

end ServerImpl

end MultiPaxosDB
