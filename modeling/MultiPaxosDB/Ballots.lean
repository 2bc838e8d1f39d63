/-
# MultiPaxosDB.Ballots — when ballot numbers only rise.

Four handlers assign `ballot_num`: a server's own increment, a proposer's ballot, a peer's hint, and
`handleSyncReply`, which takes over the ballot of the responder's last entry whatever its own number
is.  The first three only raise it.  `SyncRaises` is the condition on the fourth — no acknowledged
sync reply is handled by a server that is already past its ballot — and under it the numbers of the
prepares a server sends, and of those it acknowledges, strictly increase (`ballots_increase`).
Without it they do not (`ballots_can_fall`).
-/
import MultiPaxosDB.Wire

namespace MultiPaxosDB

open Lib

namespace Net

/-! ## History -/

/-- Server `i` has sent the prepare `q`. -/
def Issued (n : Net) (i : Int) (q : PrepareReq) : Prop := n.HasSent i (.prepare q)

/-- Server `j` has acknowledged the prepare `q`. -/
def Acked (n : Net) (j : Int) (q : PrepareReq) : Prop :=
  ∃ r ∈ n.rpcs, r.dst = j ∧ r.req = .prepare q ∧ ∃ p, r.res = some (.prepare p) ∧ p.ack = true

/-- The event makes server `j` acknowledge the prepare `q`. -/
def Acks (n : Net) (ev : NetEvent) (j : Int) (q : PrepareReq) : Prop :=
  n.actor ev = some (j, .prepareCall q) ∧ ((n.servers j).processPrepareCall q).2.ack = true

/-- An acknowledged sync reply is only handled by a server whose ballot number is not above that of
the responder's last entry. -/
def syncRaises (n : Net) (ev : NetEvent) : Bool :=
  match n.actor ev with
  | some (i, .syncReply .ok response) =>
    !response.ack || decide ((n.servers i).ballotNum ≤ response.lastInsertedBallot.num)
  | _ => true

theorem ballotNum_le_of_syncRaises {n : Net} {ev : NetEvent} {i : Int} {response : SyncRes}
    (h : n.syncRaises ev = true) (hactor : n.actor ev = some (i, .syncReply .ok response))
    (hack : response.ack = true) : (n.servers i).ballotNum ≤ response.lastInsertedBallot.num := by
  simpa [syncRaises, hactor, hack] using h

end Net

/-! ## One server -/

namespace ServerImpl

theorem ack_processPrepareCall {s : ServerImpl} {request : PrepareReq}
    (h : (s.processPrepareCall request).2.ack = true) :
    s.iAmDisconnected = false ∧ s.ballotNum < request.ballot.num ∧
      request.paxosIndex = s.ledger.paxosIndex := by
  have hconn : s.iAmDisconnected = false := by
    cases hd : s.iAmDisconnected with
    | false => rfl
    | true => simp [processPrepareCall, hd, plainPrepareRes] at h
  have hprom : s.promises request = true := by
    cases hp : s.promises request with
    | true => rfl
    | false => simp [processPrepareCall, hconn, hp, plainPrepareRes] at h
  simp only [promises, Bool.and_eq_true, decide_eq_true_eq] at hprom
  exact ⟨hconn, hprom⟩

theorem processPrepareCall_acks {s : ServerImpl} {request : PrepareReq}
    (hconn : s.iAmDisconnected = false) (hlt : s.ballotNum < request.ballot.num)
    (hidx : request.paxosIndex = s.ledger.paxosIndex) :
    (s.processPrepareCall request).2.ack = true := by
  have hprom : s.promises request = true := by simp [promises, hlt, hidx]
  simp only [processPrepareCall, hconn, hprom]
  split
  · contradiction
  · split
    · rfl
    · rfl

/-- The state an acknowledged prepare leaves. -/
theorem handle_prepareCall_of_ack {s : ServerImpl} {request : PrepareReq}
    (h : (s.processPrepareCall request).2.ack = true) :
    s.handle (.prepareCall request) = persistBallotNum { s with
      outbox := []
      promised := true
      promisedNum := request.ballot
      ballotNum := request.ballot.num } := by
  obtain ⟨hconn, hlt, hidx⟩ := ack_processPrepareCall h
  show (processPrepareCall { s with outbox := [] } request).1 = _
  rw [processPrepareCall_fst]
  simp [promise, hconn, hlt, hidx]

/-- The two outside numbers a server may take over are not below its own. -/
structure Raises (s : ServerImpl) (e : Event) : Prop where
  hint : ∀ request response latest, e = .prepareReply .ok request response →
    s.awaitPrepareDecision = true → s.answersPrepare response.ballot = true →
    response.latestBallotNum = some latest → s.ballotNum ≤ latest
  sync : ∀ response, e = .syncReply .ok response → response.ack = true →
    s.ballotNum ≤ response.lastInsertedBallot.num

theorem Core.ballotNum_le {s t : ServerImpl} {e : Event} (h : Core s e t) (hup : s.Raises e) :
    s.ballotNum ≤ t.ballotNum := by
  cases h with
  | promise request _ hlt _ => exact hlt.le
  | synced response hack _ => exact hup.sync response rfl hack
  | _ => exact le_rfl

theorem Pre.ballotNum_le {s t : ServerImpl} {e : Event} (h : Pre s e t) (hup : s.Raises e) :
    s.ballotNum ≤ t.ballotNum := by
  cases h with
  | staleBallot a b latest hawait _ hans hlatest => exact hup.hint _ _ latest rfl hawait hans hlatest
  | synced response hack _ => exact hup.sync response rfl hack
  | notSynced => exact le_rfl

/-- The phase a server is in: while it awaits the outcome of a phase, its own vote is counted and no
quorum is, it has a batch, and in the prepare phase its number is the promised one. -/
structure Phase (s : ServerImpl) : Prop where
  prepare : s.awaitPrepareDecision = true → s.ballotNum = s.promisedNum.num ∧ s.current ≠ [] ∧
    s.prepareSuccesses = 1 ∧ s.prepareFailures < majority ∧ s.awaitAcceptDecision = false
  accept : s.awaitAcceptDecision = true → s.acceptSuccesses = 1 ∧ s.acceptFailures < majority

theorem Phase.fresh (c : Constants) (serverId : Int) : (ServerImpl.fresh c serverId).Phase where
  prepare := by intro h; cases h
  accept := by intro h; cases h

theorem Phase.not_prepare {s : ServerImpl} (h : s.Phase) (haccept : s.awaitAcceptDecision = true) :
    s.awaitPrepareDecision = false := by
  by_contra hprepare
  have hnot := (h.prepare (by simpa using hprepare)).2.2.2.2
  rw [haccept] at hnot
  cases hnot

/-- A new prepare phase is one, wherever it starts from, if there is a batch. -/
theorem Phase.reissue {s : ServerImpl} (hcur : s.current ≠ []) : s.reissuePrepareForCurrent.Phase where
  prepare := fun _ => ⟨rfl, hcur, rfl, show 0 < majority by decide, rfl⟩
  accept := by intro h; cases h

/-- Only an acknowledgement moves the successes, so that one stands behind every prepare quorum. -/
theorem CountsPrepare.of_majority {s : ServerImpl} {status : Status} {request : PrepareReq}
    {response : PrepareRes} {x y : Nat} (h : s.CountsPrepare status request response x y)
    (hone : s.prepareSuccesses = 1) (hmaj : majority ≤ x) :
    status = .ok ∧ s.answersPrepare response.ballot = true ∧ response.ack = true := by
  cases h with
  | acked hans hack => exact ⟨rfl, hans, hack⟩
  | _ =>
    rw [hone] at hmaj
    exact absurd hmaj (by decide)

theorem Core.phase {s t : ServerImpl} {e : Event} (h : Core s e t) (hs : s.Phase) : t.Phase := by
  cases h with
  | promise => exact ⟨fun ha => ⟨rfl, (hs.prepare ha).2⟩, hs.accept⟩
  | countPrepare a b hawait hcount ha hb =>
    obtain ⟨hnum, hcur, hsucc, -, hacc⟩ := hs.prepare hawait
    have ha1 : a = 1 := by
      cases hcount with
      | acked => rw [hsucc] at ha; exact absurd ha (by decide)
      | _ => exact hsucc
    exact ⟨fun _ => ⟨hnum, hcur, ha1, hb, hacc⟩, hs.accept⟩
  | staleLog => exact ⟨(by intro h; cases h), hs.accept⟩
  | propose => exact ⟨(by intro h; cases h), fun _ => ⟨rfl, show 0 < majority by decide⟩⟩
  | reject | abortPrepare | commitRound | abortAccept =>
    exact ⟨(by intro h; cases h), (by intro h; cases h)⟩
  | countAccept a b hawait hcount ha hb =>
    have ha1 : a = 1 := by
      cases hcount with
      | acked => rw [(hs.accept hawait).1] at ha; exact absurd ha (by decide)
      | _ => exact (hs.accept hawait).1
    exact ⟨hs.prepare, fun _ => ⟨ha1, hb⟩⟩
  | synced response _ hcur => exact ⟨fun ha => absurd hcur (hs.prepare ha).2.1, hs.accept⟩
  | _ => exact ⟨hs.prepare, hs.accept⟩

theorem Pre.current_ne_nil {s t : ServerImpl} {e : Event} (h : Pre s e t) (hs : s.Phase) :
    t.current ≠ [] := by
  cases h with
  | staleBallot a b latest hawait => exact (hs.prepare hawait).2.1
  | synced response _ hcur => exact hcur
  | notSynced hcur => exact hcur

theorem Moves.phase {s u : ServerImpl} {e : Event} (h : Moves s e u) (hs : s.Phase) : u.Phase := by
  cases h with
  | done hcore => exact hcore.phase hs
  | @start t _ _ _ hpend => exact .reissue (s := t.takePending) hpend
  | retry hpre => exact .reissue (hpre.current_ne_nil hs)

theorem handle_phase {s : ServerImpl} (h : s.Phase) (e : Event) : (s.handle e).Phase :=
  (s.handle_moves e).phase ⟨h.prepare, h.accept⟩

end ServerImpl

/-! ## The network -/

namespace Net

theorem phase_reach {c : Constants} {ok : Net → NetEvent → Prop} {n : Net}
    (hr : Reach Net.step ok (Net.fresh c) n) : ∀ i, (n.servers i).Phase := by
  refine hr.invariant (motive := fun n => ∀ i, (n.servers i).Phase)
    (fun i => ServerImpl.Phase.fresh c i) ?_
  intro n ev _ h _
  rcases n.step_cases ev with ⟨-, hservers⟩ | ⟨i, e, u, -, -, hu, hstep⟩
  · rwa [hservers]
  · rw [hstep]
    exact forall_servers_after (P := fun _ s => s.Phase) ev h (hu ▸ ServerImpl.handle_phase (h i) e)

/-- In a run, a hint is never below the number the server asked with. -/
theorem raises {n : Net} {ev : NetEvent} {i : Int} {e : Event} (hwf : n.WellFormed)
    (hphase : (n.servers i).Phase) (hactor : n.actor ev = some (i, e)) (hok : n.syncRaises ev = true) :
    (n.servers i).Raises e where
  hint := by
    rintro request response latest rfl hawait hans hlatest
    obtain ⟨r, hr, rfl, hreq, hres⟩ := justified hactor
    have hanswer := (hwf.rpcs r hr).reply _ (hres rfl)
    rw [hreq] at hanswer
    cases hanswer with
    | prepare hballot hhint _ =>
      have hnum : response.ballot.num = (n.servers r.src).promisedNum.num := by
        simp only [ServerImpl.answersPrepare, Bool.and_eq_true, decide_eq_true_eq] at hans
        exact hans.1
      have hle := hhint latest hlatest
      rw [(hphase.prepare hawait).1, ← hnum, hballot]
      exact hle
  sync := by
    rintro response rfl hack
    exact ballotNum_le_of_syncRaises hok hactor hack

/-- What was sent and acknowledged so far is not above the present numbers. -/
structure BallotsBound (n : Net) : Prop where
  issued : ∀ i q, n.Issued i q → q.ballot.num ≤ (n.servers i).ballotNum
  acked : ∀ j q, n.Acked j q → q.ballot.num ≤ (n.servers j).ballotNum

variable {n : Net} {ev : NetEvent}

/-- The event, seen from the acting server: its number rises, and its prepares are above the old
number and not above the new. -/
theorem acting_raises (hwf : n.WellFormed) {i : Int} {e : Event} {u : ServerImpl}
    (hjust : Justified n i e) (hup : (n.servers i).Raises e)
    (hmoves : ServerImpl.Moves { n.servers i with outbox := [] } e u) :
    (n.servers i).ballotNum ≤ u.ballotNum ∧
      ∀ dst q, { dst := dst, req := .prepare q } ∈ u.outbox →
        (n.servers i).ballotNum < q.ballot.num ∧ q.ballot.num ≤ u.ballotNum := by
  have hup' : ServerImpl.Raises { n.servers i with outbox := [] } e := ⟨hup.hint, hup.sync⟩
  cases hmoves with
  | done hcore =>
    refine ⟨hcore.ballotNum_le hup', ?_⟩
    intro dst q hc
    exact absurd rfl ((hwf.core_sent hjust hcore hc).2 q)
  | @start t hcore =>
    have hle : (n.servers i).ballotNum ≤ t.ballotNum := hcore.ballotNum_le hup'
    refine ⟨hle.trans (Int.lt_add_one_of_le le_rfl).le, ?_⟩
    intro dst q hc
    rcases ServerImpl.mem_outbox_reissue hc with hold | ⟨-, hreq⟩
    · exact absurd rfl ((hwf.core_sent hjust hcore hold).2 q)
    · obtain rfl := RpcReq.prepare.inj hreq
      exact ⟨Int.lt_add_one_of_le hle, le_rfl⟩
  | @retry t hpre =>
    have hle : (n.servers i).ballotNum ≤ t.ballotNum := hpre.ballotNum_le hup'
    refine ⟨hle.trans (Int.lt_add_one_of_le le_rfl).le, ?_⟩
    intro dst q hc
    rcases ServerImpl.mem_outbox_reissue hc with hold | ⟨-, hreq⟩
    · rw [hpre.outbox] at hold
      exact absurd hold (by simp)
    · obtain rfl := RpcReq.prepare.inj hreq
      exact ⟨Int.lt_add_one_of_le hle, le_rfl⟩

theorem ballotNum_step (hwf : n.WellFormed) (hphase : ∀ i, (n.servers i).Phase)
    (hok : n.syncRaises ev = true) (j : Int) :
    (n.servers j).ballotNum ≤ ((n.step ev).servers j).ballotNum := by
  rcases n.step_cases ev with ⟨-, hservers⟩ | ⟨i, e, u, hactor, hmoves, -, hstep⟩
  · rw [hservers]
  · rw [hstep]
    exact forall_servers_after (P := fun j s => (n.servers j).ballotNum ≤ s.ballotNum) ev
      (fun _ => le_rfl) (acting_raises hwf (justified hactor) (raises hwf (hphase i) hactor hok) hmoves).1 j

/-- A prepare acknowledged after a step was acknowledged before it or in it. -/
theorem acked_step {j : Int} {q : PrepareReq} (h : (n.step ev).Acked j q) :
    n.Acked j q ∨ n.Acks ev j q := by
  obtain ⟨r', hr', rfl, hreq, p, hp, hack⟩ := h
  have hold : ∀ r ∈ n.rpcs, r.Later r' → (r'.res = r.res ∨ n.AnsweredBy ev r r') →
      n.Acked r'.dst q ∨ n.Acks ev r'.dst q := by
    rintro r hr hlater (hsame | ⟨-, hactor, hnew⟩)
    · exact .inl ⟨r, hr, hlater.dst.symm, hlater.req ▸ hreq, p, hsame ▸ hp, hack⟩
    · rw [← hlater.dst, ← hlater.req, hreq] at hactor hnew
      rw [hnew, Option.some.injEq] at hp
      obtain rfl := RpcRes.prepare.inj hp
      exact .inr ⟨hactor, hack⟩
  rcases n.step_cases ev with ⟨hnone, -⟩ | ⟨i, e, u, hactor, -, hu, hstep⟩
  · obtain ⟨r, hr, hlater, hres⟩ := mem_rpcs_step_of_none hnone hr'
    exact hold r hr hlater (.inl hres)
  · rw [hstep] at hr'
    rcases mem_rpcs_after hr' with ⟨r, hr, hlater, hres⟩ | ⟨-, -, hres⟩
    · exact hold r hr hlater hres
    · rw [hp] at hres
      exact absurd hres (by simp)

/-- The prepares a step sends are numbered above the old number of their sender, and not above the
new one. -/
theorem sends_bound (hwf : n.WellFormed) (hphase : ∀ i, (n.servers i).Phase)
    (hok : n.syncRaises ev = true) {i : Int} {q : PrepareReq} (h : n.Sends ev i (.prepare q)) :
    (n.servers i).ballotNum < q.ballot.num ∧ q.ballot.num ≤ ((n.step ev).servers i).ballotNum := by
  obtain ⟨e, dst, hactor, hc⟩ := h.outbox
  rw [step_eq_after hactor, servers_after_self]
  exact (acting_raises hwf (justified hactor) (raises hwf (hphase i) hactor hok)
    ((n.servers i).handle_moves e)).2 dst q hc

/-- So are the prepares a step acknowledges. -/
theorem acks_bound {j : Int} {q : PrepareReq} (h : n.Acks ev j q) :
    (n.servers j).ballotNum < q.ballot.num ∧ q.ballot.num ≤ ((n.step ev).servers j).ballotNum := by
  obtain ⟨hactor, hack⟩ := h
  rw [step_eq_after hactor, servers_after_self, ServerImpl.handle_prepareCall_of_ack hack]
  exact ⟨(ServerImpl.ack_processPrepareCall hack).2.1, le_rfl⟩

theorem BallotsBound.step (h : n.BallotsBound) (hwf : n.WellFormed)
    (hphase : ∀ i, (n.servers i).Phase) (hok : n.syncRaises ev = true) : (n.step ev).BallotsBound where
  issued := by
    intro i q hq
    rcases hasSent_step hq with hold | hnew
    · exact (h.issued i q hold).trans (ballotNum_step hwf hphase hok i)
    · exact (sends_bound hwf hphase hok hnew).2
  acked := by
    intro j q hq
    rcases acked_step hq with hold | hnew
    · exact (h.acked j q hold).trans (ballotNum_step hwf hphase hok j)
    · exact (acks_bound hnew).2

theorem not_issued_fresh (c : Constants) (i : Int) (q : PrepareReq) : ¬(Net.fresh c).Issued i q := by
  rintro ⟨r, hr, -⟩
  exact absurd hr (List.not_mem_nil)

theorem not_acked_fresh (c : Constants) (j : Int) (q : PrepareReq) : ¬(Net.fresh c).Acked j q := by
  rintro ⟨r, hr, -⟩
  exact absurd hr (List.not_mem_nil)

theorem ballotsBound_reach {c : Constants}
    (hr : Reach Net.step (fun n ev => n.syncRaises ev = true) (Net.fresh c) n) : n.BallotsBound := by
  refine hr.invariant (motive := BallotsBound) ?_ ?_
  · exact ⟨fun i q h => absurd h (not_issued_fresh c i q), fun j q h => absurd h (not_acked_fresh c j q)⟩
  · intro n ev hr h hok
    exact h.step (.reach hr) (phase_reach hr) hok

/-- **Ballot monotonicity of one step**: no number falls, and what is sent or acknowledged in the step
is numbered above everything the same server sent or acknowledged before. -/
structure BallotsIncrease (n : Net) (ev : NetEvent) : Prop where
  ballotNum : ∀ i, (n.servers i).ballotNum ≤ ((n.step ev).servers i).ballotNum
  sent : ∀ i q q', n.Issued i q → n.Sends ev i (.prepare q') → q.ballot.num < q'.ballot.num
  acked : ∀ j q q', n.Acked j q → n.Acks ev j q' → q.ballot.num < q'.ballot.num

end Net

/-- **Ballot monotonicity.**  In every run in which no acknowledged sync reply is handled by a server
already past its ballot, every step keeps the ballot numbers increasing. -/
theorem ballots_increase (c : Constants) (n : Net)
    (hr : Reach Net.step (fun n ev => n.syncRaises ev = true) (Net.fresh c) n) (ev : NetEvent)
    (hok : n.syncRaises ev = true) : n.BallotsIncrease ev where
  ballotNum := Net.ballotNum_step (.reach hr) (Net.phase_reach hr) hok
  sent := by
    intro i q q' hq hq'
    exact ((Net.ballotsBound_reach hr).issued i q hq).trans_lt
      (Net.sends_bound (.reach hr) (Net.phase_reach hr) hok hq').1
  acked := by
    intro j q q' hq hq'
    exact ((Net.ballotsBound_reach hr).acked j q hq).trans_lt (Net.acks_bound hq').1

/-- Server 1 commits a transfer with server 2 and starts another round.  Server 3, which has seen none
of it, finds itself behind and asks server 1 for its log; before the reply arrives it promises ballot
2 to server 2, which lags as well. -/
def promiseWhileSyncing : List NetEvent :=
  [.input 1 (.transfer 0 ⟨⟨1, 2, 5⟩, 1⟩), .deliver 0, .complete 0, .deliver 2, .complete 2,
   .input 1 (.transfer 1 ⟨⟨1, 2, 5⟩, 2⟩), .deliver 7, .deliver 8,
   .input 2 (.transfer 2 ⟨⟨3, 4, 5⟩, 3⟩), .deliver 10]

/-- Up to here every step is as asked; the sync reply that comes next is not. -/
theorem ballots_increase_promiseWhileSyncing :
    (Net.run ⟨3, 3⟩ promiseWhileSyncing).BallotsIncrease (.deliver 9) :=
  ballots_increase ⟨3, 3⟩ (Net.run ⟨3, 3⟩ promiseWhileSyncing)
    (Net.reach_run ⟨3, 3⟩ (by decide +kernel)) (.deliver 9) (by decide +kernel)

/-- The reply carries ballot 1, and server 3 falls back from 2 to 1. -/
theorem ballots_can_fall :
    ¬ ∀ (es : List NetEvent) (ev : NetEvent), (Net.run ⟨3, 3⟩ es).BallotsIncrease ev := by
  intro h
  have hle := (h promiseWhileSyncing (.complete 8)).ballotNum 3
  revert hle
  decide +kernel

end MultiPaxosDB
