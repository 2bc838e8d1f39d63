/-
# MultiPaxosDB.ClusterSizes — quorums, for every cluster size the servers can be started with.

The number of stubs follows `cluster_size`; the threshold of both phases is `MAJORITY`, a constant.  A vote is a reply
that is counted, and `firstTurn` what the first decisive one of some replies decides, by the handlers.  Both phases of
a round are instances of one `VotingPhase`, and each counts as `Lib.tally` does.

Two sets that pass a phase each have a server in common exactly up to three servers (`quorumsMeet_iff`), and the
answers of all peers decide a phase exactly from three servers on (`alwaysDecides_iff`).
-/
import Mathlib.Data.Bool.Count
import MultiPaxosDB.LeaderRound
import MultiPaxosDB.Lib.Tally
import MultiPaxosDB.Replicas

namespace MultiPaxosDB

open Lib

/-! ## The two voting phases -/

namespace ServerImpl

/-- What the first reply that decides something decides. -/
def firstTurn : ServerImpl → List Event → Option RoundTurn
  | _, [] => none
  | s, e :: es => (s.turn e).or ((s.handle e).firstTurn es)

/-- The reply is counted in the prepare phase: an acknowledgement or a refusal of the current ballot that does not send
the leader back, or a missed deadline. -/
inductive PrepareVote (s : ServerImpl) : Bool → Event → Prop
  | answer {request response} : s.answersPrepare response.ballot = true → s.sendsBack response = false →
      PrepareVote s response.ack (.prepareReply .ok request response)
  | deadline {request response} : s.answersPrepare request.ballot = true →
      PrepareVote s false (.prepareReply .deadlineExceeded request response)

/-- The reply is counted in the accept phase. -/
inductive AcceptVote (s : ServerImpl) : Bool → Event → Prop
  | answer {request response} : s.answersAccept response.ballot = true →
      AcceptVote s response.ack (.acceptReply .ok request response)
  | deadline {request response} : s.answersAccept request.ballot = true →
      AcceptVote s false (.acceptReply .deadlineExceeded request response)

end ServerImpl

/-- A phase of a round in which replies are counted: what it waits for, its counters, its votes, and what it turns to.
A vote that decides nothing leaves the phase open, with one count more and the same votes to come. -/
structure VotingPhase where
  waits : ServerImpl → Prop
  successes : ServerImpl → Nat
  failures : ServerImpl → Nat
  vote : ServerImpl → Bool → Event → Prop
  outcome : Bool → RoundTurn
  turn_vote : ∀ {s v e}, waits s → vote s v e →
    s.turn e = (verdict majority (countVote v (successes s) (failures s)).1
      (countVote v (successes s) (failures s)).2).map outcome
  stays : ∀ {s v e}, waits s → vote s v e → s.turn e = none →
    waits (s.handle e) ∧ (successes (s.handle e), failures (s.handle e)) = countVote v (successes s) (failures s) ∧
      ∀ v' e', vote s v' e' → vote (s.handle e) v' e'

namespace VotingPhase

variable (p : VotingPhase)

/-- The phase has just begun: the proposer has voted for itself. -/
structure Begun (s : ServerImpl) : Prop where
  waits : p.waits s
  successes : p.successes s = 1
  failures : p.failures s = 0

variable {p} {s : ServerImpl}

/-- **The handlers count as a tally does.** -/
theorem firstTurn_eq_tally (hs : p.waits s) {vs : List Bool} {es : List Event} (h : List.Forall₂ (p.vote s) vs es) :
    s.firstTurn es = (tally majority (p.successes s) (p.failures s) vs).map p.outcome := by
  induction es generalizing s vs with
  | nil =>
    cases h
    rfl
  | cons e es ih =>
    cases h with
    | @cons v _ vs _ hv hvs =>
      rw [ServerImpl.firstTurn, tally, p.turn_vote hs hv]
      cases hverdict : verdict majority (countVote v (p.successes s) (p.failures s)).1
        (countVote v (p.successes s) (p.failures s)).2 with
      | some r => rfl
      | none =>
        have hnone : s.turn e = none := by rw [p.turn_vote hs hv, hverdict, Option.map_none]
        obtain ⟨hwaits, hcounts, hvotes⟩ := p.stays hs hv hnone
        simp only [Option.map_none, Option.none_or]
        rw [ih hwaits (hvs.imp fun _ _ hve => hvotes _ _ hve), ← hcounts]

theorem forall₂_map {f : Event → Bool} {es : List Event} (h : ∀ e ∈ es, p.vote s (f e) e) :
    List.Forall₂ (p.vote s) (es.map f) es :=
  List.forall₂_map_left_iff.mpr (List.forall₂_same.mpr h)

/-- Votes that have just begun to be counted are not decided if there are no acknowledgements and too few others. -/
theorem Begun.firstTurn_eq_none_iff (hs : p.Begun s) {vs : List Bool} {es : List Event}
    (h : List.Forall₂ (p.vote s) vs es) : s.firstTurn es = none ↔ vs.count true = 0 ∧ vs.count false < majority := by
  rw [firstTurn_eq_tally hs.waits h, Option.map_eq_none_iff, hs.successes, hs.failures,
    tally_eq_none_iff vs (by decide) (by decide), majority]
  omega

end VotingPhase

section Phases

variable {s : ServerImpl} {v : Bool} {e : Event}

theorem prepareTurn_eq (a b : Nat) : ServerImpl.prepareTurn a b =
    (verdict majority a b).map fun v => if v then .prepareQuorum else .abort true := by
  unfold ServerImpl.prepareTurn verdict
  split_ifs <;> rfl

theorem acceptTurn_eq (a b : Nat) : ServerImpl.acceptTurn a b =
    (verdict majority a b).map fun v => if v then .acceptQuorum else .abort false := by
  unfold ServerImpl.acceptTurn verdict
  split_ifs <;> rfl

theorem turn_prepareVote (hs : s.awaitPrepareDecision = true) (h : s.PrepareVote v e) :
    s.turn e = ServerImpl.prepareTurn (countVote v s.prepareSuccesses s.prepareFailures).1
      (countVote v s.prepareSuccesses s.prepareFailures).2 := by
  cases h with
  | @answer _ response hans hback => cases hack : response.ack <;> simp [ServerImpl.turn, hs, hans, hback, hack, countVote]
  | deadline hans => simp [ServerImpl.turn, hs, hans, countVote]

theorem turn_acceptVote (hs : s.awaitAcceptDecision = true) (h : s.AcceptVote v e) :
    s.turn e = ServerImpl.acceptTurn (countVote v s.acceptSuccesses s.acceptFailures).1
      (countVote v s.acceptSuccesses s.acceptFailures).2 := by
  cases h with
  | @answer _ response hans => cases hack : response.ack <;> simp [ServerImpl.turn, hs, hans, hack, countVote]
  | deadline hans => simp [ServerImpl.turn, hs, hans, countVote]

theorem decidePrepare_of_lt (ha : s.prepareSuccesses < majority) (hb : s.prepareFailures < majority) :
    s.decidePrepare = s := by
  rw [ServerImpl.decidePrepare, if_neg (not_le.mpr ha), if_neg (not_le.mpr hb)]

theorem decideAccept_of_lt (ha : s.acceptSuccesses < majority) (hb : s.acceptFailures < majority) :
    s.decideAccept = s := by
  rw [ServerImpl.decideAccept, if_neg (not_le.mpr ha), if_neg (not_le.mpr hb)]

/-- An answer that does not send the leader back goes to the comparison. -/
theorem countPrepare_eq {response : PrepareRes} (h : s.sendsBack response = false) :
    s.countPrepare response = (s.setPrepareCounts (countVote response.ack s.prepareSuccesses s.prepareFailures).1
      (countVote response.ack s.prepareSuccesses s.prepareFailures).2).decidePrepare := by
  obtain ⟨hlatest, hindex⟩ := Bool.or_eq_false_iff.mp h
  have hcounted : (if response.ack then { s with prepareSuccesses := s.prepareSuccesses + 1 }
      else { s with prepareFailures := s.prepareFailures + 1 }) =
        s.setPrepareCounts (countVote response.ack s.prepareSuccesses s.prepareFailures).1
          (countVote response.ack s.prepareSuccesses s.prepareFailures).2 := by
    cases response.ack <;> rfl
  unfold ServerImpl.countPrepare
  dsimp only
  rw [hcounted, Option.isSome_eq_false_iff.mp hlatest |> Option.isNone_iff_eq_none.mp]
  cases hidx : response.paxosIndex with
  | none => rfl
  | some index =>
    rw [hidx, Option.any_some, decide_eq_false_iff_not] at hindex
    exact if_neg hindex

/-- A vote is counted and put to the comparison. -/
theorem dispatch_prepareVote (hs : s.awaitPrepareDecision = true) (h : s.PrepareVote v e) :
    s.dispatch e = (s.setPrepareCounts (countVote v s.prepareSuccesses s.prepareFailures).1
      (countVote v s.prepareSuccesses s.prepareFailures).2).decidePrepare := by
  have hgo : ¬ (!s.awaitPrepareDecision) = true := by simp [hs]
  cases h with
  | @answer request response hans hback =>
    show s.handlePrepareReply .ok request response = _
    rw [ServerImpl.handlePrepareReply, if_neg hgo, if_neg (by simp), if_pos (by simp [hans]), countPrepare_eq hback]
  | @deadline request response hans =>
    show s.handlePrepareReply .deadlineExceeded request response = _
    rw [ServerImpl.handlePrepareReply, if_neg hgo, if_pos (by simp [hans])]
    rfl

theorem dispatch_acceptVote (hs : s.awaitAcceptDecision = true) (h : s.AcceptVote v e) :
    s.dispatch e = (s.setAcceptCounts (countVote v s.acceptSuccesses s.acceptFailures).1
      (countVote v s.acceptSuccesses s.acceptFailures).2).decideAccept := by
  have hgo : ¬ (!s.awaitAcceptDecision) = true := by simp [hs]
  cases h with
  | @answer request response hans =>
    show s.handleAcceptReply .ok request response = _
    rw [ServerImpl.handleAcceptReply, if_neg hgo, if_neg (by simp), if_pos (by simp [hans])]
    cases response.ack <;> rfl
  | @deadline request response hans =>
    show s.handleAcceptReply .deadlineExceeded request response = _
    rw [ServerImpl.handleAcceptReply, if_neg hgo, if_pos (by simp [hans])]
    rfl

/-- The votes of a phase do not depend on the outbox or the counters. -/
theorem PrepareVote.congr {s' : ServerImpl} (h : s.PrepareVote v e) (hid : s'.serverId = s.serverId)
    (hballot : s'.promisedNum = s.promisedNum) (hledger : s'.ledger = s.ledger) : s'.PrepareVote v e := by
  have hans : s'.answersPrepare = s.answersPrepare := by
    funext b
    rw [ServerImpl.answersPrepare, ServerImpl.answersPrepare, hid, hballot]
  cases h with
  | answer hanswers hback =>
    refine .answer (hans ▸ hanswers) ?_
    rw [ServerImpl.sendsBack, hledger]
    exact hback
  | deadline hanswers => exact .deadline (hans ▸ hanswers)

theorem AcceptVote.congr {s' : ServerImpl} (h : s.AcceptVote v e) (hid : s'.serverId = s.serverId)
    (hballot : s'.acceptNum = s.acceptNum) : s'.AcceptVote v e := by
  have hans : s'.answersAccept = s.answersAccept := by
    funext b
    rw [ServerImpl.answersAccept, ServerImpl.answersAccept, hid, hballot]
  cases h with
  | answer hanswers => exact .answer (hans ▸ hanswers)
  | deadline hanswers => exact .deadline (hans ▸ hanswers)

/-- A vote that decides nothing is counted and no more. -/
theorem handle_prepareVote (hs : s.awaitPrepareDecision = true) (h : s.PrepareVote v e) (hnone : s.turn e = none) :
    s.handle e = ServerImpl.setPrepareCounts { s with outbox := [] }
      (countVote v s.prepareSuccesses s.prepareFailures).1 (countVote v s.prepareSuccesses s.prepareFailures).2 := by
  rw [turn_prepareVote hs h, prepareTurn_eq, Option.map_eq_none_iff, verdict_eq_none_iff] at hnone
  have hvote : ({ s with outbox := [] } : ServerImpl).PrepareVote v e := PrepareVote.congr h rfl rfl rfl
  rw [ServerImpl.handle, dispatch_prepareVote (s := { s with outbox := [] }) hs hvote]
  exact decidePrepare_of_lt hnone.1 hnone.2

theorem handle_acceptVote (hs : s.awaitAcceptDecision = true) (h : s.AcceptVote v e) (hnone : s.turn e = none) :
    s.handle e = ServerImpl.setAcceptCounts { s with outbox := [] }
      (countVote v s.acceptSuccesses s.acceptFailures).1 (countVote v s.acceptSuccesses s.acceptFailures).2 := by
  rw [turn_acceptVote hs h, acceptTurn_eq, Option.map_eq_none_iff, verdict_eq_none_iff] at hnone
  have hvote : ({ s with outbox := [] } : ServerImpl).AcceptVote v e := AcceptVote.congr h rfl rfl
  rw [ServerImpl.handle, dispatch_acceptVote (s := { s with outbox := [] }) hs hvote]
  exact decideAccept_of_lt hnone.1 hnone.2

/-- The prepare phase. -/
def preparePhase : VotingPhase where
  waits s := s.awaitPrepareDecision = true
  successes := ServerImpl.prepareSuccesses
  failures := ServerImpl.prepareFailures
  vote := ServerImpl.PrepareVote
  outcome v := if v then .prepareQuorum else .abort true
  turn_vote hs h := by rw [turn_prepareVote hs h, prepareTurn_eq]
  stays hs h hnone := by
    rw [handle_prepareVote hs h hnone]
    exact ⟨hs, rfl, fun _ _ h' => PrepareVote.congr h' rfl rfl rfl⟩

/-- The accept phase. -/
def acceptPhase : VotingPhase where
  waits s := s.awaitAcceptDecision = true
  successes := ServerImpl.acceptSuccesses
  failures := ServerImpl.acceptFailures
  vote := ServerImpl.AcceptVote
  outcome v := if v then .acceptQuorum else .abort false
  turn_vote hs h := by rw [turn_acceptVote hs h, acceptTurn_eq]
  stays hs h hnone := by
    rw [handle_acceptVote hs h hnone]
    exact ⟨hs, rfl, fun _ _ h' => AcceptVote.congr h' rfl rfl⟩

end Phases

/-! ## Quorums -/

/-- The acknowledgements of the set `q`, its own among them, can let server `i` pass the phase. -/
structure VotingPhase.PassesWith (p : VotingPhase) (c : Constants) (i : Int) (q : Finset Int) : Prop where
  proposer : i ∈ q
  peers : ∀ j ∈ q, j ≠ i → j ∈ stubsOf c i
  passes : ∃ v es, p.Begun (ServerImpl.life c i v) ∧ es.length = (q.erase i).card ∧
    (∀ e ∈ es, p.vote (ServerImpl.life c i v) true e) ∧
    (ServerImpl.life c i v).firstTurn es = some (p.outcome true)

/-- A set that lets one server pass the prepare phase and a set that lets another of its cluster pass the accept phase
have a server in common. -/
def QuorumsMeet (c : Constants) : Prop :=
  ∀ i ∈ serverIds c, ∀ i' ∈ serverIds c, getClusterIdFromServerId c i = getClusterIdFromServerId c i' → i ≠ i' →
    ∀ q q', preparePhase.PassesWith c i q → acceptPhase.PassesWith c i' q' → (q ∩ q').Nonempty

/-- Once all its peers have answered, a server has passed or given up the phase. -/
def AlwaysDecides (p : VotingPhase) (c : Constants) : Prop :=
  ∀ i ∈ serverIds c, ∀ v es, p.Begun (ServerImpl.life c i v) → es.length = (ServerImpl.life c i v).stubs.length →
    (∀ e ∈ es, ∃ b, p.vote (ServerImpl.life c i v) b e) → ((ServerImpl.life c i v).firstTurn es).isSome

section Sizes

variable {c : Constants} {i : Int}

/-! ### Phases that begin -/

/-- A transfer of nothing, which no server turns away. -/
def nothing : TransferReq := { txn := { sender := 0, receiver := 0, amount := 0 }, tid := 0 }

/-- A server that has just sent its first prepares. -/
def preparing : List LifeEvent := [.event (.input (.transfer 0 nothing))]

theorem begun_preparing (c : Constants) (i : Int) : preparePhase.Begun (ServerImpl.life c i preparing) := ⟨rfl, rfl, rfl⟩

/-- Its peers may refuse, or acknowledge. -/
def prepareAnswer (i : Int) (ack : Bool) : Event :=
  .prepareReply .ok ⟨⟨1, i⟩, -1⟩ (ServerImpl.plainPrepareRes ack ⟨1, i⟩)

theorem prepareAnswer_vote (c : Constants) (i : Int) (ack : Bool) :
    preparePhase.vote (ServerImpl.life c i preparing) ack (prepareAnswer i ack) := by
  show ServerImpl.PrepareVote _ (ServerImpl.plainPrepareRes ack ⟨1, i⟩).ack _
  refine .answer ?_ rfl
  show (decide ((1 : Int) = 1) && decide (i = i)) = true
  simp

/-- A server that has just sent its first proposal. -/
def proposing (i : Int) : List LifeEvent := preparing ++ [.event (prepareAnswer i true)]

def acceptAck (i : Int) : Event := .acceptReply .ok ⟨⟨1, i⟩, [nothing]⟩ { ack := true, ballot := ⟨1, i⟩ }

theorem begun_proposing (c : Constants) (i : Int) : acceptPhase.Begun (ServerImpl.life c i (proposing i)) ∧
    acceptPhase.vote (ServerImpl.life c i (proposing i)) true (acceptAck i) := by
  generalize hs : ServerImpl.life c i preparing = s
  have hawait : s.awaitPrepareDecision = true := hs ▸ rfl
  have hvote : s.PrepareVote true (prepareAnswer i true) := hs ▸ prepareAnswer_vote c i true
  have hstep : ServerImpl.life c i (proposing i) = s.handle (prepareAnswer i true) := by
    rw [proposing, ServerImpl.life, List.foldl_append, ← ServerImpl.life, hs]
    rfl
  -- the batch is kept: nothing is locked, and any balance suffices
  have hkeeps : ServerImpl.rejects s.ledger nothing.txn = false := by
    rw [← hs]
    show ServerImpl.rejects (.fresh c _) nothing.txn = false
    simp [ServerImpl.rejects, Ledger.fresh, initialBalance, nothing]
  have hkept : (ServerImpl.admitAll s.ledger s.promisedNum s.current).kept = s.current := by
    have hcurrent : s.current = [{ request := nothing, call := 0, isCrossShard := false }] := hs ▸ rfl
    rw [hcurrent, ServerImpl.admitAll, List.foldl_cons, List.foldl_nil, ServerImpl.validateEntry, if_neg (by simp [hkeeps])]
    rfl
  have hpropose : s.handle (prepareAnswer i true) =
      (ServerImpl.setPrepareCounts { s with outbox := [] } 2 0).validate.propose := by
    rw [ServerImpl.handle, dispatch_prepareVote (s := { s with outbox := [] }) hawait (PrepareVote.congr hvote rfl rfl rfl)]
    have hcounts : countVote true s.prepareSuccesses s.prepareFailures = (2, 0) := by
      rw [← hs]
      rfl
    have hsome : ¬ (ServerImpl.setPrepareCounts { s with outbox := [] } 2 0).validate.current.isEmpty = true := by
      show ¬ (ServerImpl.admitAll s.ledger s.promisedNum s.current).kept.isEmpty = true
      rw [hkept, ← hs]
      exact Bool.false_ne_true
    rw [hcounts]
    exact (if_pos (show majority ≤ 2 from le_rfl)).trans (if_neg hsome)
  rw [hstep, hpropose]
  refine ⟨⟨rfl, rfl, rfl⟩, ?_⟩
  show ServerImpl.AcceptVote _ (AcceptRes.mk true ⟨1, i⟩).ack _
  refine .answer ?_
  show (decide ((1 : Int) = s.promisedNum.num) && decide (i = s.serverId)) = true
  rw [← hs]
  show (decide ((1 : Int) = 1) && decide (i = i)) = true
  simp

/-! ### Intersection -/

theorem VotingPhase.PassesWith.card {p : VotingPhase} {q : Finset Int} (h : p.PassesWith c i q) : majority ≤ q.card := by
  obtain ⟨v, es, -, hlen, -, hpass⟩ := h.passes
  by_contra hcard
  have hone : es.length = 0 := by
    rw [hlen, Finset.card_erase_of_mem h.proposer]
    have : q.card < 2 := not_le.mp hcard
    omega
  rw [List.eq_nil_of_length_eq_zero hone] at hpass
  cases hpass

/-- The set is one of the proposer's cluster. -/
theorem VotingPhase.PassesWith.subset {p : VotingPhase} {q : Finset Int} (hn : 1 ≤ c.clusterSize) (hi : i ∈ serverIds c)
    (h : p.PassesWith c i q) : q ⊆ Finset.Ioc (c.clusterSize * (getClusterIdFromServerId c i - 1))
      (c.clusterSize * getClusterIdFromServerId c i) := by
  intro j hj
  by_cases hji : j = i
  · rw [hji]
    exact (getClusterIdFromServerId_eq_iff hn).mp rfl
  · exact Finset.mem_of_mem_erase ((mem_stubsOf_iff hn hi).mp (h.peers j hj hji))

/-- **Quorums meet up to three servers.** -/
theorem quorumsMeet_iff (hm : 1 ≤ c.numClusters) (hn : 1 ≤ c.clusterSize) : QuorumsMeet c ↔ c.clusterSize ≤ 3 := by
  constructor
  · intro hmeet
    by_contra hbig
    -- servers 1 and 2 against servers 3 and 4
    have hcluster : ∀ j, 1 ≤ j → j ≤ 4 → getClusterIdFromServerId c j = 1 := by
      intro j hj hj'
      rw [getClusterIdFromServerId_eq_iff hn, Finset.mem_Ioc]
      omega
    have hids : ∀ j, 1 ≤ j → j ≤ 4 → j ∈ serverIds c := by
      intro j hj hj'
      refine mem_serverIds.mpr ⟨hj, ?_⟩
      have : 1 * c.clusterSize ≤ c.numClusters * c.clusterSize := Int.mul_le_mul_of_nonneg_right hm (by omega)
      omega
    have hpeer : ∀ i j, 1 ≤ i → i ≤ 4 → 1 ≤ j → j ≤ 4 → ∀ k ∈ ({i, j} : Finset Int), k ≠ i → k ∈ stubsOf c i := by
      intro i j hi hi' hj hj' k hk hne
      rcases Finset.mem_insert.mp hk with rfl | hk
      · exact absurd rfl hne
      · rw [Finset.mem_singleton.mp hk] at hne ⊢
        exact mem_stubsOf.mpr ⟨hids j hj hj', (hcluster j hj hj').trans (hcluster i hi hi').symm, hne⟩
    have hfirst : preparePhase.PassesWith c 1 {1, 2} := by
      refine ⟨by decide, hpeer 1 2 (by decide) (by decide) (by decide) (by decide), preparing, [prepareAnswer 1 true],
        begun_preparing c 1, rfl, ?_, ?_⟩
      · intro e he
        rw [List.mem_singleton.mp he]
        exact prepareAnswer_vote c 1 true
      · rw [VotingPhase.firstTurn_eq_tally (begun_preparing c 1).waits (.cons (prepareAnswer_vote c 1 true) .nil)]
        rfl
    have hsecond : acceptPhase.PassesWith c 3 {3, 4} := by
      obtain ⟨hbegun, hvote⟩ := begun_proposing c 3
      refine ⟨by decide, hpeer 3 4 (by decide) (by decide) (by decide) (by decide), proposing 3, [acceptAck 3],
        hbegun, rfl, ?_, ?_⟩
      · intro e he
        rw [List.mem_singleton.mp he]
        exact hvote
      · rw [VotingPhase.firstTurn_eq_tally hbegun.waits (.cons hvote .nil), hbegun.successes, hbegun.failures]
        rfl
    have hcommon := hmeet 1 (hids 1 (by decide) (by decide)) 3 (hids 3 (by decide) (by decide))
      ((hcluster 1 (by decide) (by decide)).trans (hcluster 3 (by decide) (by decide)).symm) (by decide)
      {1, 2} {3, 4} hfirst hsecond
    exact absurd hcommon (by decide)
  · intro hsmall i hi i' hi' hsame _ q q' hq hq'
    refine Finset.inter_nonempty_of_card_lt_card_add_card (hq.subset hn hi) (hsame ▸ hq'.subset hn hi') ?_
    have hcard := hq.card
    have hcard' := hq'.card
    unfold majority at hcard hcard'
    rw [card_cluster]
    omega

/-! ### Decision -/

/-- All answers decide a phase that three servers or more vote in. -/
theorem alwaysDecides_of_three (p : VotingPhase) (hn : 3 ≤ c.clusterSize) : AlwaysDecides p c := by
  intro i hi v es hbegun hlen hvotes
  choose! f hf using hvotes
  rw [Option.isSome_iff_ne_none]
  intro hnone
  obtain ⟨hyes, hno⟩ := (hbegun.firstTurn_eq_none_iff (VotingPhase.forall₂_map hf)).mp hnone
  have htotal := List.count_true_add_count_false (es.map f)
  have hstubs := length_stubsOf (by omega) hi
  rw [List.length_map, hlen, (ServerImpl.alive_life c i v).stubs] at htotal
  unfold majority at hno
  omega

/-- **The answers of all peers decide from three servers on.** -/
theorem alwaysDecides_iff (hm : 1 ≤ c.numClusters) (hn : 1 ≤ c.clusterSize) :
    AlwaysDecides preparePhase c ∧ AlwaysDecides acceptPhase c ↔ 3 ≤ c.clusterSize := by
  refine ⟨?_, fun h => ⟨alwaysDecides_of_three _ h, alwaysDecides_of_three _ h⟩⟩
  rintro ⟨hprepare, -⟩
  by_contra hsmall
  have hid : (1 : Int) ∈ serverIds c := by
    refine mem_serverIds.mpr ⟨le_rfl, ?_⟩
    have : 1 * 1 ≤ c.numClusters * c.clusterSize := Int.mul_le_mul hm hn (by decide) (by omega)
    omega
  -- the one peer there may be refuses
  have hstubs := length_stubsOf hn hid
  have hvotes : ∀ e ∈ List.replicate (stubsOf c 1).length (prepareAnswer 1 false),
      preparePhase.vote (ServerImpl.life c 1 preparing) false e := by
    intro e he
    rw [List.eq_of_mem_replicate he]
    exact prepareAnswer_vote c 1 false
  have hsome := hprepare 1 hid preparing _ (begun_preparing c 1) (by rw [List.length_replicate]; rfl)
    fun e he => ⟨false, hvotes e he⟩
  rw [((begun_preparing c 1).firstTurn_eq_none_iff (VotingPhase.forall₂_map hvotes)).mpr] at hsome
  · cases hsome
  · rw [List.map_const', List.length_replicate, List.count_replicate, List.count_replicate, majority]
    simp only [beq_self_eq_true, if_true]
    refine ⟨rfl, ?_⟩
    omega

end Sizes

/-- **The fixed threshold fits clusters of three and no others.** -/
theorem quorums_hold_iff (c : Constants) (hm : 1 ≤ c.numClusters) (hn : 1 ≤ c.clusterSize) :
    QuorumsMeet c ∧ AlwaysDecides preparePhase c ∧ AlwaysDecides acceptPhase c ↔ c.clusterSize = 3 := by
  rw [quorumsMeet_iff hm hn, alwaysDecides_iff hm hn]
  omega

theorem quorums_hold_iff_default :
    QuorumsMeet ⟨3, 3⟩ ∧ AlwaysDecides preparePhase ⟨3, 3⟩ ∧ AlwaysDecides acceptPhase ⟨3, 3⟩ :=
  (quorums_hold_iff ⟨3, 3⟩ (by decide) (by decide)).mpr rfl

/-- In a cluster of five, servers 1 and 2 let server 1 pass, and servers 3 and 4 let server 3 pass. -/
theorem quorums_of_five_apart :
    ¬ ∀ c : Constants, 1 ≤ c.numClusters → 1 ≤ c.clusterSize →
      QuorumsMeet c ∧ AlwaysDecides preparePhase c ∧ AlwaysDecides acceptPhase c := by
  intro h
  have hmeet : QuorumsMeet ⟨1, 5⟩ := (h ⟨1, 5⟩ (by decide) (by decide)).1
  exact absurd ((quorumsMeet_iff (by decide) (by decide)).mp hmeet) (by decide)

/-- Two leaders of one cluster of five both commit their first round, each with another server. -/
example :
    let n := Net.run ⟨1, 5⟩
      [.input 1 (.transfer 0 ⟨⟨1, 2, 3⟩, 7⟩), .deliver 0, .complete 0, .deliver 4, .complete 4,
       .input 3 (.transfer 1 ⟨⟨4, 5, 6⟩, 8⟩), .deliver 14, .complete 14, .deliver 18, .complete 18]
    (n.servers 1).ledger.log.map WALEntry.tid = [7] ∧ (n.servers 3).ledger.log.map WALEntry.tid = [8] := by
  decide +kernel

end MultiPaxosDB
