/-
# MultiPaxosDB.Batches — a ballot number identifies one batch.

A `CommitReq` carries a ballot and no batch: the replica applies whatever it last accepted under that
number.  One winner per number makes the proposals of a number one proposal (`Rounds.proposer_unique`);
what remains is that the replica still holds it.  It may not: acceptors compare numbers alone, so a
server that is itself asking for the number can accept another server's batch, and the end of its own
round then empties `accept_batch`.  `acceptsPromised` excludes exactly that acceptance.
-/
import MultiPaxosDB.Rounds

namespace MultiPaxosDB

open Lib

/-- A server that acts on a `CommitReq` commits the batch it holds. -/
theorem ServerImpl.ledger_commitCall {s : ServerImpl} {m : CommitReq} (hconn : s.iAmDisconnected = false)
    (hcom : s.commits m = true) : (s.handle (.commitCall m)).ledger =
      s.acceptBatch.foldl (commitAccepted s.acceptNum) s.ledger := by
  show (processCommitCall { s with outbox := [] } m).ledger = _
  have hconn' : ¬({ s with outbox := [] } : ServerImpl).iAmDisconnected = true := by simp [hconn]
  have hcom' : ({ s with outbox := [] } : ServerImpl).commits m = true := hcom
  rw [processCommitCall, if_neg hconn', if_pos hcom']

namespace Net

variable {n : Net} {ev : NetEvent} {i j : Int}

/-- An `AcceptReq` is only accepted by a server that has promised its ballot to its sender. -/
def acceptsPromised (n : Net) (ev : NetEvent) : Bool :=
  match n.actor ev with
  | some (j, .acceptCall request) =>
    (n.servers j).iAmDisconnected || !(n.servers j).accepts request ||
      decide ((n.servers j).promisedNum.serverId = request.ballot.serverId)
  | _ => true

theorem promised_of_acceptsPromised {request : AcceptReq} (h : n.acceptsPromised ev = true)
    (hactor : n.actor ev = some (j, .acceptCall request)) (hconn : (n.servers j).iAmDisconnected = false)
    (hacc : (n.servers j).accepts request = true) : (n.servers j).promisedNum = request.ballot := by
  have hid : (n.servers j).promisedNum.serverId = request.ballot.serverId := by
    simpa [acceptsPromised, hactor, hconn, hacc] using h
  simp only [ServerImpl.accepts, Bool.and_eq_true, decide_eq_true_eq] at hacc
  exact Ballot.ext hacc.2.symm hid

/-! ## Replies that end a round -/

/-- A reply that brings the failures of the prepare phase to a majority is about a prepare of the
server itself under its present number, so that its promise is still its own. -/
theorem Rounds.own_of_failures (h : n.Rounds) (hl : n.Lawful) {status : Status} {request : PrepareReq}
    {response : PrepareRes} {x y : Nat} (hjust : Justified n i (.prepareReply status request response))
    (hawait : (n.servers i).awaitPrepareDecision = true)
    (hcount : ServerImpl.CountsPrepare { n.servers i with outbox := [] } status request response x y)
    (hmaj : majority ≤ y) : (n.servers i).promisedNum.serverId = i := by
  obtain ⟨r, hr, rfl, hreq, hres⟩ := hjust
  have hwfr := hl.wf.rpcs r hr
  have hfew : ¬majority ≤ (n.servers r.src).prepareFailures :=
    not_le.mpr ((hl.phase r.src).prepare hawait).2.2.2.1
  have hnum : request.ballot.num = (n.servers r.src).promisedNum.num := by
    cases hcount with
    | failed hans =>
      simp only [ServerImpl.answersPrepare, Bool.and_eq_true, decide_eq_true_eq] at hans
      exact hans.1
    | nacked hans =>
      have hanswer := hwfr.reply _ (hres rfl)
      rw [hreq] at hanswer
      cases hanswer with
      | prepare hballot =>
        simp only [ServerImpl.answersPrepare, hballot, Bool.and_eq_true, decide_eq_true_eq] at hans
        exact hans.1
    | acked => exact absurd hmaj hfew
    | other => exact absurd hmaj hfew
  have hown : request.ballot.serverId = r.src := hwfr.proposer request hreq
  rcases (h.awaits r.src hawait).promise with hself | ⟨q, hq, hqb⟩
  · exact hself
  · -- it has voted for its own ballot and for the promised one, under one number
    have heq := hl.once r.src _ _ (.inl ⟨request, ⟨r, hr, rfl, hreq⟩, rfl⟩) (.inr ⟨q, hq, hqb⟩) hnum
    rw [← heq]
    exact hown

/-- A reply that completes a majority of the accept phase, of either kind, is about a proposal of the
server itself under the number it last accepted. -/
theorem proposed_of_counts (hwf : n.WellFormed) (hphase : (n.servers i).Phase) {status : Status}
    {request : AcceptReq} {response : AcceptRes} {x y : Nat}
    (hjust : Justified n i (.acceptReply status request response))
    (hawait : (n.servers i).awaitAcceptDecision = true)
    (hcount : ServerImpl.CountsAccept { n.servers i with outbox := [] } status request response x y)
    (hmaj : majority ≤ x ∨ majority ≤ y) :
    n.Proposed i request ∧ request.ballot.num = (n.servers i).acceptNum.num := by
  obtain ⟨r, hr, rfl, hreq, hres⟩ := hjust
  refine ⟨⟨r, hr, rfl, hreq⟩, ?_⟩
  obtain ⟨hone, hfew⟩ := hphase.accept hawait
  have hanswered : status = .ok → ServerImpl.answersAccept { n.servers r.src with outbox := [] }
      response.ballot = true → request.ballot.num = (n.servers r.src).acceptNum.num := by
    intro hok hans
    have hanswer := (hwf.rpcs r hr).reply _ (hres hok)
    rw [hreq] at hanswer
    cases hanswer with
    | accept hballot =>
      simp only [ServerImpl.answersAccept, hballot, Bool.and_eq_true, decide_eq_true_eq] at hans
      exact hans.1
  cases hcount with
  | failed hans =>
    simp only [ServerImpl.answersAccept, Bool.and_eq_true, decide_eq_true_eq] at hans
    exact hans.1
  | acked hans => exact hanswered rfl hans
  | nacked hans => exact hanswered rfl hans
  | other =>
    rcases hmaj with hmaj | hmaj
    · have hmaj : majority ≤ (n.servers r.src).acceptSuccesses := hmaj
      rw [hone] at hmaj
      exact absurd hmaj (by decide)
    · exact absurd hfew (not_lt.mpr hmaj)

/-! ## What a server holds for a number -/

/-- Server `j`, in state `s`: what it accepted under the number it has promised it accepted from the
server it has promised, and if that is another server, its batch is still there. -/
structure Holds (n : Net) (j : Int) (s : ServerImpl) : Prop where
  low : s.promisedNum.num ≤ s.ballotNum ∧ s.acceptNum.num ≤ s.ballotNum
  own : s.acceptNum.num = s.promisedNum.num → s.acceptNum = s.promisedNum
  held : s.promisedNum.serverId ≠ j → s.acceptNum.num = s.promisedNum.num → 0 < s.acceptNum.num →
    ∃ p ∈ stubsOf n.constants j, n.Proposed p { ballot := s.acceptNum, batch := s.acceptBatch }

theorem Holds.mono {n' : Net} (hext : n.Extends n') (hconst : n'.constants = n.constants)
    {s t : ServerImpl} (h : n.Holds j s) (hprom : t.promisedNum = s.promisedNum)
    (hacc : t.acceptNum = s.acceptNum) (hbatch : t.acceptBatch = s.acceptBatch)
    (hnum : s.ballotNum ≤ t.ballotNum) : n'.Holds j t where
  low := by
    rw [hprom, hacc]
    exact ⟨h.low.1.trans hnum, h.low.2.trans hnum⟩
  own := by
    rw [hprom, hacc]
    exact h.own
  held := by
    rw [hprom, hacc, hbatch, hconst]
    intro hother hsame hpos
    obtain ⟨p, hp, hprop⟩ := h.held hother hsame hpos
    exact ⟨p, hp, HasSent.mono hext hprop⟩

/-- A round that ends empties the batch, which is no loss if there was none of another server. -/
theorem Holds.clear {n' : Net} {s t : ServerImpl} (h : n.Holds j s)
    (hprom : t.promisedNum = s.promisedNum) (hacc : t.acceptNum = s.acceptNum)
    (hnum : t.ballotNum = s.ballotNum)
    (hown : s.acceptNum.num = s.promisedNum.num → 0 < s.acceptNum.num → s.promisedNum.serverId = j) :
    n'.Holds j t where
  low := by
    rw [hprom, hacc, hnum]
    exact h.low
  own := by
    rw [hprom, hacc]
    exact h.own
  held := by
    rw [hprom, hacc]
    intro hother hsame hpos
    exact absurd (hown hsame hpos) hother

/-- Under a new promise nothing is accepted yet. -/
theorem Holds.raised {n' : Net} {s t : ServerImpl} (hs : s.acceptNum.num ≤ s.ballotNum)
    (hacc : t.acceptNum = s.acceptNum) (hprom : t.promisedNum.num = t.ballotNum)
    (hlt : s.ballotNum < t.ballotNum) : n'.Holds j t := by
  have hless : t.acceptNum.num < t.promisedNum.num := by
    rw [hacc, hprom]
    omega
  refine ⟨⟨hprom.le, by omega⟩, ?_, ?_⟩
  · intro hsame
    omega
  · intro _ hsame
    omega

/-! ## The invariant -/

structure Batches (n : Net) : Prop where
  positive : ∀ i a, n.Proposed i a → 0 < a.ballot.num
  announced : ∀ i m, n.HasSent i (.commit m) → ∃ a, n.Proposed i a ∧ a.ballot.num = m.ballot.num
  holds : ∀ j, n.Holds j (n.servers j)

section Step

variable (hb : n.Batches) (h : n.Rounds) (hl : n.Lawful) (hc : n.constants.clusterSize = 3)

include h hl in
/-- A proposal carries the id of its sender. -/
theorem Rounds.proposal_serverId {a : AcceptReq} (ha : n.Proposed i a) : a.ballot.serverId = i := by
  obtain ⟨-, q, hq, hqa⟩ := h.proposer i a ha
  rw [← hqa]
  exact (hq.votes hl.wf).2.1

include hb h hl hc

/-- If server `i` has proposed under the number it last accepted and promised, the promise is its own:
the other proposer of that number would be another server. -/
theorem Batches.own_of_proposed {a : AcceptReq} (ha : n.Proposed i a)
    (hnum : a.ballot.num = (n.servers i).acceptNum.num)
    (hsame : (n.servers i).acceptNum.num = (n.servers i).promisedNum.num)
    (hpos : 0 < (n.servers i).acceptNum.num) : (n.servers i).promisedNum.serverId = i := by
  by_contra hother
  obtain ⟨p, hp, hprop⟩ := (hb.holds i).held hother hsame hpos
  have hp := mem_stubsOf.mp hp
  exact hp.2.2 (h.proposer_unique hl hc hp.2.1 hprop ha hnum.symm).2

theorem Batches.holds_core {e : Event} {t : ServerImpl} (hactor : n.actor ev = some (i, e))
    (hok : n.acceptsPromised ev = true) (hup : (n.servers i).Raises e)
    (hcore : ServerImpl.Core { n.servers i with outbox := [] } e t) : (n.step ev).Holds i t := by
  have hs := hb.holds i
  have hmono : ∀ {t : ServerImpl}, t.promisedNum = (n.servers i).promisedNum →
      t.acceptNum = (n.servers i).acceptNum → t.acceptBatch = (n.servers i).acceptBatch →
      (n.servers i).ballotNum ≤ t.ballotNum → (n.step ev).Holds i t := fun hprom hacc hbatch hnum =>
    hs.mono (n.extends_step ev) (n.constants_step ev) hprom hacc hbatch hnum
  cases hcore with
  | promise request _ hlt _ => exact .raised hs.low.2 rfl rfl hlt
  | accept request hconn hacc =>
    have hprom := promised_of_acceptsPromised hok hactor hconn hacc
    obtain ⟨r, hr, rfl, hreq, -⟩ := justified hactor
    have hwf := hl.wf.rpcs r hr
    refine ⟨⟨hs.low.1, hprom ▸ hs.low.1⟩, fun _ => hprom.symm, ?_⟩
    intro _ _ _
    refine ⟨r.src, ?_, HasSent.mono (n.extends_step ev) ⟨r, hr, rfl, hreq⟩⟩
    rw [constants_step]
    exact stubsOf_symm hwf.src hwf.dst
  | propose x y hawait hcount hmaj =>
    have hself := (h.quorum_of_counts hl hc hactor hawait hcount hmaj).2
    exact ⟨⟨hs.low.1, hs.low.1⟩, fun _ => rfl, fun hother => absurd hself hother⟩
  | reject x y hawait hcount hmaj =>
    have hself := (h.quorum_of_counts hl hc hactor hawait hcount hmaj).2
    exact hs.clear rfl rfl rfl fun _ _ => hself
  | abortPrepare x y hawait hcount hmaj =>
    have hself := h.own_of_failures hl (justified hactor) hawait hcount hmaj
    exact hs.clear rfl rfl rfl fun _ _ => hself
  | commitRound x y hawait hcount hmaj =>
    obtain ⟨ha, hnum⟩ :=
      proposed_of_counts hl.wf (hl.phase i) (justified hactor) hawait hcount (.inl hmaj)
    exact hs.clear rfl rfl rfl (hb.own_of_proposed h hl hc ha hnum)
  | abortAccept x y hawait hcount hmaj =>
    obtain ⟨ha, hnum⟩ :=
      proposed_of_counts hl.wf (hl.phase i) (justified hactor) hawait hcount (.inr hmaj)
    exact hs.clear rfl rfl rfl (hb.own_of_proposed h hl hc ha hnum)
  | synced response hack _ => exact hmono rfl rfl rfl (hup.sync response rfl hack)
  | _ => exact hmono rfl rfl rfl le_rfl

theorem Batches.holds_step (hraise : n.syncRaises ev = true) (hok : n.acceptsPromised ev = true)
    (k : Int) : (n.step ev).Holds k ((n.step ev).servers k) := by
  have hidle : (n.step ev).Holds k (n.servers k) :=
    (hb.holds k).mono (n.extends_step ev) (n.constants_step ev) rfl rfl rfl le_rfl
  rcases n.step_cases ev with ⟨-, hservers⟩ | ⟨i, e, u, hactor, hmoves, -, hstep⟩
  · rw [hservers]
    exact hidle
  · by_cases hk : k = i
    · subst hk
      rw [hstep, servers_after_self, ← hstep]
      have hup := raises hl.wf (hl.phase k) hactor hraise
      cases hmoves with
      | done hcore => exact hb.holds_core h hl hc hactor hok hup hcore
      | @start t hcore =>
        have ht := hb.holds_core h hl hc hactor hok hup hcore
        exact .raised (s := t) ht.low.2 rfl rfl (Int.lt_add_one_of_le le_rfl)
      | @retry t hpre =>
        have hle : (n.servers k).ballotNum ≤ t.ballotNum := hpre.ballotNum_le ⟨hup.hint, hup.sync⟩
        have hacc : t.acceptNum = (n.servers k).acceptNum := by cases hpre <;> rfl
        have hlow : t.acceptNum.num ≤ t.ballotNum := by
          rw [hacc]
          exact (hb.holds k).low.2.trans hle
        exact .raised (s := t) hlow rfl rfl (Int.lt_add_one_of_le le_rfl)
    · rw [hstep, servers_after_ne n ev u hk, ← hstep]
      exact hidle

theorem Batches.step (hraise : n.syncRaises ev = true) (hok : n.acceptsPromised ev = true) :
    (n.step ev).Batches where
  positive := by
    intro i a ha
    rcases h.proposed_step hl hc ha with hold | ⟨rfl, hawait, -⟩
    · exact hb.positive i a hold
    · exact (h.awaits i hawait).positive
  announced := by
    intro i m hm
    rcases hasSent_step hm with hold | hnew
    · obtain ⟨a, ha, hnum⟩ := hb.announced i m hold
      exact ⟨a, HasSent.mono (n.extends_step ev) ha, hnum⟩
    · obtain ⟨hballot, status, request, response, x, y, hactor, hawait, hcount, hmaj⟩ := hnew.announcement
      obtain ⟨ha, hnum⟩ :=
        proposed_of_counts hl.wf (hl.phase i) (justified hactor) hawait hcount (.inl hmaj)
      exact ⟨request, HasSent.mono (n.extends_step ev) ha, by rw [hballot]; exact hnum⟩
  holds := hb.holds_step h hl hc hraise hok

/-- The batch a server applies on a matching `CommitReq` is the one its sender proposed. -/
theorem Batches.held_of_commits {m : CommitReq} {i j : Int} (hi : i ∈ stubsOf n.constants j)
    (hm : n.HasSent i (.commit m)) (hcom : (n.servers j).commits m = true) :
    ∃ a, n.Proposed i a ∧ a.ballot.num = m.ballot.num ∧ a.ballot = (n.servers j).acceptNum ∧
      a.batch = (n.servers j).acceptBatch := by
  obtain ⟨a, ha, hnum⟩ := hb.announced i m hm
  have hi := mem_stubsOf.mp hi
  simp only [ServerImpl.commits, Bool.and_eq_true, decide_eq_true_eq] at hcom
  have hsame : (n.servers j).acceptNum.num = (n.servers j).promisedNum.num := hcom.2.trans hcom.1.symm
  have hacc : (n.servers j).acceptNum.num = a.ballot.num := hcom.2.trans hnum.symm
  have hpos : 0 < (n.servers j).acceptNum.num := hacc ▸ hb.positive i a ha
  by_cases hself : (n.servers j).promisedNum.serverId = j
  · -- then `j` itself would have proposed under this number
    exfalso
    rcases h.accepted j with hzero | ⟨p, a', hp, ha', hab⟩
    · rw [hzero] at hpos
      exact absurd hpos (by decide)
    · have hpj : p = j := by
        rw [← h.proposal_serverId hl ha', hab, (hb.holds j).own hsame]
        exact hself
      subst hpj
      exact hi.2.2 (h.proposer_unique hl hc hi.2.1 ha ha' (by rw [hab, hacc])).2
  · obtain ⟨p, hp, hprop⟩ := (hb.holds j).held hself hsame hpos
    have hp := mem_stubsOf.mp hp
    obtain ⟨heq, rfl⟩ := h.proposer_unique hl hc (hi.2.1.trans hp.2.1.symm) ha hprop hacc.symm
    exact ⟨a, ha, hnum, by rw [heq], by rw [heq]⟩

end Step

/-- The two conditions of this module on a step. -/
def oneBatchPerNumber (n : Net) (ev : NetEvent) : Bool := n.syncRaises ev && n.acceptsPromised ev

theorem batches_reach {c : Constants} (hc : c.clusterSize = 3)
    (hr : Reach Net.step (fun n ev => n.oneBatchPerNumber ev = true) (Net.fresh c) n) :
    n.Batches ∧ n.Rounds ∧ n.Lawful ∧ n.constants.clusterSize = 3 := by
  have hraises : ∀ {n}, Reach Net.step (fun n ev => n.oneBatchPerNumber ev = true) (Net.fresh c) n →
      Reach Net.step (fun n ev => n.syncRaises ev = true) (Net.fresh c) n := fun hr =>
    hr.mono fun n ev hok => (Bool.and_eq_true _ _ ▸ hok).1
  have hbase : ∀ {n}, Reach Net.step (fun n ev => n.oneBatchPerNumber ev = true) (Net.fresh c) n →
      n.Rounds ∧ n.Lawful ∧ n.constants.clusterSize = 3 := fun hr =>
    ⟨rounds_reach hc (hraises hr), lawful_reach (hraises hr), by rw [constants_reach hr]; exact hc⟩
  refine ⟨hr.invariant (motive := Batches) ⟨?_, ?_, ?_⟩ ?_, hbase hr⟩
  · rintro i a ⟨r, hr, -⟩
    exact absurd hr List.not_mem_nil
  · rintro i m ⟨r, hr, -⟩
    exact absurd hr List.not_mem_nil
  · intro j
    exact ⟨⟨le_rfl, le_rfl⟩, fun _ => rfl, fun _ _ hpos => absurd hpos (lt_irrefl 0)⟩
  · intro n ev hr hb hok
    obtain ⟨h, hl, hc⟩ := hbase hr
    simp only [oneBatchPerNumber, Bool.and_eq_true] at hok
    exact hb.step h hl hc hok.1 hok.2

/-- Any two proposals of one cluster under one number are one proposal of one server. -/
def BallotIdentifiesBatch (n : Net) : Prop :=
  ∀ i i' a a', getClusterIdFromServerId n.constants i = getClusterIdFromServerId n.constants i' →
    n.Proposed i a → n.Proposed i' a' → a.ballot.num = a'.ballot.num → a.batch = a'.batch ∧ i = i'

/-- If the event hands a `CommitReq` to a server that acts on it, the server commits the batch that the
sender of the `CommitReq` proposed under its number. -/
def AppliesProposed (n : Net) (ev : NetEvent) : Prop :=
  ∀ k r m, ev = .deliver k → n.rpcs[k]? = some r → r.res = none → r.req = .commit m →
    (n.servers r.dst).iAmDisconnected = false → (n.servers r.dst).commits m = true →
    ∃ a, n.Proposed r.src a ∧ a.ballot.num = m.ballot.num ∧
      ((n.step ev).servers r.dst).ledger =
        a.batch.foldl (ServerImpl.commitAccepted a.ballot) (n.servers r.dst).ledger

end Net

/-- **A ballot number identifies one batch.**  In a deployment of clusters of three, in every run in
which ballots are never set back by a sync reply and a server accepts only what the server it has
promised proposes: the proposals under one number are one, and a `CommitReq` makes a replica commit the
batch its sender proposed. -/
theorem ballot_identifies_batch (c : Constants) (hc : c.clusterSize = 3) (n : Net)
    (hr : Reach Net.step (fun n ev => n.oneBatchPerNumber ev = true) (Net.fresh c) n) :
    n.BallotIdentifiesBatch ∧ ∀ ev, n.AppliesProposed ev := by
  obtain ⟨hb, h, hl, hc⟩ := Net.batches_reach hc hr
  constructor
  · intro i i' a a' hcluster ha ha' hnum
    obtain ⟨rfl, hii⟩ := h.proposer_unique hl hc hcluster ha ha' hnum
    exact ⟨rfl, hii⟩
  · rintro ev k r m rfl hk hres hreq hconn hcom
    have hmem : r ∈ n.rpcs := List.mem_of_getElem? hk
    have hwf := hl.wf.rpcs r hmem
    obtain ⟨a, ha, hnum, hballot, hbatch⟩ := hb.held_of_commits h hl hc
      (stubsOf_symm hwf.src hwf.dst) ⟨r, hmem, rfl, hreq⟩ hcom
    refine ⟨a, ha, hnum, ?_⟩
    have hactor : n.actor (.deliver k) = some (r.dst, .commitCall m) := by
      simp [Net.actor, hk, hres, hreq, callEvent]
    rw [Net.step_eq_after hactor, Net.servers_after_self]
    rw [ServerImpl.ledger_commitCall hconn hcom, hballot, hbatch]

/-- In the run of the lagging server, the commit of the first transfer reaches server 2 as proposed. -/
theorem ballot_identifies_batch_promiseWhileSyncing :
    (Net.run ⟨3, 3⟩ promiseWhileSyncing).BallotIdentifiesBatch ∧
      ∀ ev, (Net.run ⟨3, 3⟩ promiseWhileSyncing).AppliesProposed ev :=
  ballot_identifies_batch ⟨3, 3⟩ rfl (Net.run ⟨3, 3⟩ promiseWhileSyncing)
    (Net.reach_run ⟨3, 3⟩ (by decide +kernel))

/-- Server 1 leads three prepares with server 2; server 3 finds itself behind twice and asks server 1
for its log twice.  With the first answer it is at ballot 3; it leads a transfer under ballot 4, which
both others acknowledge.  The second answer sets it back to ballot 3, so that its next transfer is
asked for under ballot 4 again, and the old acknowledgement of server 2 makes the quorum. -/
def twoSyncs : List NetEvent :=
  [.input 1 (.tpcPrepare 0 ⟨⟨1, 1001, 1⟩, 1⟩), .deliver 0, .complete 0, .deliver 2, .complete 2,
   .input 1 (.tpcPrepare 1 ⟨⟨2, 1002, 1⟩, 2⟩), .deliver 6, .deliver 7, .complete 6, .deliver 9, .complete 9,
   .input 1 (.tpcPrepare 2 ⟨⟨3, 1003, 1⟩, 3⟩), .deliver 13, .deliver 14, .complete 13, .deliver 16,
   .complete 16, .deliver 8, .deliver 15, .complete 8,
   .input 3 (.transfer 3 ⟨⟨4, 5, 1⟩, 4⟩), .deliver 20, .deliver 21, .complete 20, .deliver 22, .complete 22,
   .complete 15, .input 3 (.transfer 4 ⟨⟨6, 7, 1⟩, 5⟩), .complete 21]

/-- Server 3 has proposed two different batches under ballot 4. -/
theorem two_batches_of_one_ballot :
    ¬ ∀ es : List NetEvent, (Net.run ⟨3, 3⟩ es).BallotIdentifiesBatch ∧
      ∀ ev, (Net.run ⟨3, 3⟩ es).AppliesProposed ev := by
  intro h
  have hfirst : (Net.run ⟨3, 3⟩ twoSyncs).HasSent 3 (.accept ⟨⟨4, 3⟩, [⟨⟨4, 5, 1⟩, 4⟩]⟩) := by
    decide +kernel
  have hsecond : (Net.run ⟨3, 3⟩ twoSyncs).HasSent 3 (.accept ⟨⟨4, 3⟩, [⟨⟨6, 7, 1⟩, 5⟩]⟩) := by
    decide +kernel
  have hsame := ((h twoSyncs).1 3 3 _ _ rfl hfirst hsecond rfl).1
  revert hsame
  decide

end MultiPaxosDB
