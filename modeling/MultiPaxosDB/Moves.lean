/-
# MultiPaxosDB.Moves — what one event can do to a server, said once.

`Core s e t` lists the moves of the handlers: the event `e`, handled in `s`, leaves `t`.  After a move
the next round may start.  `Pre s e t` lists the moves that end in a new prepare phase for the batch
in flight, up to that phase.  `handle_moves` is the inversion lemma — every `handle` is a `Core`,
perhaps with the start of a round, or a `Pre` with its prepare phase — and the invariants of the later
modules are proved by cases on these, never by unfolding a handler.
-/
import MultiPaxosDB.Server

namespace MultiPaxosDB

/-- The batch entry a client call is enqueued as. -/
def Input.entry : Input → Option BatchEntry
  | .transfer call request => some { request := request, call := call, isCrossShard := false }
  | .tpcPrepare call request => some { request := request, call := call, isCrossShard := true }
  | _ => none

namespace ServerImpl

/-- The two counters of the prepare phase set to `a` and `b`. -/
def setPrepareCounts (s : ServerImpl) (a b : Nat) : ServerImpl :=
  { s with prepareSuccesses := a, prepareFailures := b }

/-- The two counters of the accept phase set to `a` and `b`. -/
def setAcceptCounts (s : ServerImpl) (a b : Nat) : ServerImpl :=
  { s with acceptSuccesses := a, acceptFailures := b }

/-- How a prepare reply moves the counters of the prepare phase. -/
inductive CountsPrepare (s : ServerImpl) : Status → PrepareReq → PrepareRes → Nat → Nat → Prop
  | failed {request response} : s.answersPrepare request.ballot = true →
      CountsPrepare s .deadlineExceeded request response s.prepareSuccesses (s.prepareFailures + 1)
  | acked {request response} : s.answersPrepare response.ballot = true → response.ack = true →
      CountsPrepare s .ok request response (s.prepareSuccesses + 1) s.prepareFailures
  | nacked {request response} : s.answersPrepare response.ballot = true → response.ack = false →
      CountsPrepare s .ok request response s.prepareSuccesses (s.prepareFailures + 1)
  | other {status request response} :
      CountsPrepare s status request response s.prepareSuccesses s.prepareFailures

/-- How an accept reply moves the counters of the accept phase. -/
inductive CountsAccept (s : ServerImpl) : Status → AcceptReq → AcceptRes → Nat → Nat → Prop
  | failed {request response} : s.answersAccept request.ballot = true →
      CountsAccept s .deadlineExceeded request response s.acceptSuccesses (s.acceptFailures + 1)
  | acked {request response} : s.answersAccept response.ballot = true → response.ack = true →
      CountsAccept s .ok request response (s.acceptSuccesses + 1) s.acceptFailures
  | nacked {request response} : s.answersAccept response.ballot = true → response.ack = false →
      CountsAccept s .ok request response s.acceptSuccesses (s.acceptFailures + 1)
  | other {status request response} :
      CountsAccept s status request response s.acceptSuccesses s.acceptFailures

/-- The moves of the handlers, each with the guard it stands behind. -/
inductive Core (s : ServerImpl) : Event → ServerImpl → Prop
  | idle {e} : Core s e s
  | refuse {x : Input} (b : BatchEntry) : x.entry = some b → s.iAmDisconnected = true →
      Core s (.input x) (s.completeTransfers [b] false)
  | transfer (call : Nat) (request : TransferReq) :
      Core s (.input (.transfer call request))
        { s with pending := s.pending ++ [{ request := request, call := call, isCrossShard := false }] }
  | tpcPrepare (call : Nat) (request : TransferReq) :
      Core s (.input (.tpcPrepare call request))
        { s with pending := s.pending ++ [{ request := request, call := call, isCrossShard := true }] }
  | decision (tid : Int) (isCommit : Bool) :
      Core s (.input (.tpcDecision tid isCommit))
        { s with ledger := s.ledger.processTpcDecision tid isCommit }
  | disconnect (servers : List Int) :
      Core s (.input (.disconnect servers)) (s.processDisconnectCall servers)
  | tick (ms : Nat) :
      Core s (.input (.tick ms)) { s with ledger := { s.ledger with clock := s.ledger.clock + ms } }
  | sweep : Core s (.input .sweep) { s with ledger := s.ledger.sweep }
  | promise (request : PrepareReq) : s.iAmDisconnected = false → s.ballotNum < request.ballot.num →
      request.paxosIndex = s.ledger.paxosIndex →
      Core s (.prepareCall request) (persistBallotNum { s with
        promised := true
        promisedNum := request.ballot
        ballotNum := request.ballot.num })
  | behind (request : PrepareReq) : s.ballotNum < request.ballot.num →
      s.ledger.paxosIndex < request.paxosIndex →
      Core s (.prepareCall request) (sendSync { s with inSync := true } request.ballot.serverId)
  | accept (request : AcceptReq) : s.iAmDisconnected = false → s.accepts request = true →
      Core s (.acceptCall request) { s with
        accepted := true
        acceptNum := request.ballot
        acceptBatch := request.batch
        ledger := request.batch.foldl (acceptEntry request.ballot) s.ledger }
  | commit (request : CommitReq) : s.iAmDisconnected = false → s.commits request = true →
      Core s (.commitCall request) { s with
        ledger := s.acceptBatch.foldl (commitAccepted s.acceptNum) s.ledger
        promised := false
        accepted := false }
  | countPrepare {status request response} (a b : Nat) : s.awaitPrepareDecision = true →
      s.CountsPrepare status request response a b → a < majority → b < majority →
      Core s (.prepareReply status request response) (s.setPrepareCounts a b)
  | staleLog {request response} (a b : Nat) (index : Int) : s.awaitPrepareDecision = true →
      s.CountsPrepare .ok request response a b → s.answersPrepare response.ballot = true →
      response.paxosIndex = some index → s.ledger.paxosIndex < index →
      Core s (.prepareReply .ok request response)
        (sendSync { s.setPrepareCounts a b with inSync := true, awaitPrepareDecision := false }
          (response.serverId.getD 0))
  | reject {status request response} (a b : Nat) : s.awaitPrepareDecision = true →
      s.CountsPrepare status request response a b → majority ≤ a →
      (s.setPrepareCounts a b).validate.current = [] →
      Core s (.prepareReply status request response) (s.setPrepareCounts a b).validate.clearRound
  | propose {status request response} (a b : Nat) : s.awaitPrepareDecision = true →
      s.CountsPrepare status request response a b → majority ≤ a →
      (s.setPrepareCounts a b).validate.current ≠ [] →
      Core s (.prepareReply status request response) (s.setPrepareCounts a b).validate.propose
  | abortPrepare {status request response} (a b : Nat) : s.awaitPrepareDecision = true →
      s.CountsPrepare status request response a b → majority ≤ b →
      Core s (.prepareReply status request response)
        ((s.setPrepareCounts a b).abortRound true).clearRound
  | countAccept {status request response} (a b : Nat) : s.awaitAcceptDecision = true →
      s.CountsAccept status request response a b → a < majority → b < majority →
      Core s (.acceptReply status request response) (s.setAcceptCounts a b)
  | commitRound {status request response} (a b : Nat) : s.awaitAcceptDecision = true →
      s.CountsAccept status request response a b → majority ≤ a →
      Core s (.acceptReply status request response) (s.setAcceptCounts a b).commitRound.clearRound
  | abortAccept {status request response} (a b : Nat) : s.awaitAcceptDecision = true →
      s.CountsAccept status request response a b → majority ≤ b →
      Core s (.acceptReply status request response)
        ((s.setAcceptCounts a b).abortRound false).clearRound
  | synced (response : SyncRes) : response.ack = true → s.current = [] →
      Core s (.syncReply .ok response) { s.applySync response with inSync := false }
  | notSynced {status response} : s.current = [] →
      Core s (.syncReply status response) { s with inSync := false }

/-- The moves that end in `reissuePrepareForCurrent`, up to that call. -/
inductive Pre (s : ServerImpl) : Event → ServerImpl → Prop
  | staleBallot {request response} (a b : Nat) (latest : Int) : s.awaitPrepareDecision = true →
      s.CountsPrepare .ok request response a b → s.answersPrepare response.ballot = true →
      response.latestBallotNum = some latest →
      Pre s (.prepareReply .ok request response)
        (persistBallotNum { s.setPrepareCounts a b with ballotNum := latest })
  | synced (response : SyncRes) : response.ack = true → s.current ≠ [] →
      Pre s (.syncReply .ok response) { s.applySync response with inSync := false }
  | notSynced {status response} : s.current ≠ [] →
      Pre s (.syncReply status response) { s with inSync := false }

/-! ## What a move sends -/

/-- What `f` reads off the calls to one server among some calls. -/
def sentTo {α : Type} (f : RpcReq → List α) (outbox : List OutCall) (dst : Int) : List α :=
  (outbox.filter fun c => decide (c.dst = dst)).flatMap fun c => f c.req

section SentTo

variable {α : Type} {f : RpcReq → List α}

theorem sentTo_eq_nil {outbox : List OutCall} (h : ∀ c ∈ outbox, f c.req = []) (dst : Int) :
    sentTo f outbox dst = [] := by
  rw [sentTo, List.flatMap_eq_nil_iff]
  exact fun c hc => h c (List.mem_of_mem_filter hc)

theorem sentTo_append (xs ys : List OutCall) (dst : Int) :
    sentTo f (xs ++ ys) dst = sentTo f xs dst ++ sentTo f ys dst := by
  rw [sentTo, List.filter_append, List.flatMap_append]
  rfl

/-- One call to every stub is one call to this one. -/
theorem sentTo_sendAll {stubs : List Int} (hstubs : stubs.Nodup) (req : RpcReq) (dst : Int) :
    sentTo f (stubs.map fun dst => { dst := dst, req := req }) dst = if dst ∈ stubs then f req else [] := by
  induction stubs with
  | nil => rfl
  | cons j stubs ih =>
    obtain ⟨hj, hrest⟩ := List.nodup_cons.mp hstubs
    have ih := ih hrest
    unfold sentTo at ih ⊢
    by_cases heq : j = dst
    · subst heq
      rw [if_neg hj] at ih
      simp [ih]
    · simp [heq, Ne.symm heq, ih]

end SentTo

/-- The proposal of a server that passes its prepare quorum now. -/
def proposal (s : ServerImpl) : AcceptReq :=
  { ballot := s.promisedNum
    batch := (admitAll s.ledger s.promisedNum s.current).kept.map BatchEntry.request }

/-- The RPCs that leave with a `Core`: a `SyncReq` to the server that showed to be ahead, the proposal
at a prepare quorum, the announcement at an accept quorum. -/
inductive CoreSent (s t : ServerImpl) : Event → OutCall → Prop
  | behind (request : PrepareReq) :
      CoreSent s t (.prepareCall request) { dst := request.ballot.serverId, req := .sync s.syncReq }
  | staleLog {request response index} : response.paxosIndex = some index →
      CoreSent s t (.prepareReply .ok request response)
        { dst := response.serverId.getD 0, req := .sync s.syncReq }
  | accept {status request response} (dst : Int) (a b : Nat) : dst ∈ s.stubs →
      s.awaitPrepareDecision = true → s.CountsPrepare status request response a b → majority ≤ a →
      t.awaitPrepareDecision = false →
      CoreSent s t (.prepareReply status request response) { dst := dst, req := .accept s.proposal }
  | commit {status request response} (dst : Int) (a b : Nat) : dst ∈ s.stubs →
      s.awaitAcceptDecision = true → s.CountsAccept status request response a b → majority ≤ a →
      CoreSent s t (.acceptReply status request response)
        { dst := dst, req := .commit { ballot := s.acceptNum } }

theorem Core.sent {s t : ServerImpl} {e : Event} (h : Core s e t) (hout : s.outbox = [])
    {c : OutCall} (hc : c ∈ t.outbox) : CoreSent s t e c := by
  have hnone : ∀ {P : Prop}, c ∈ s.outbox → P := fun hmem => absurd (hout ▸ hmem) (by simp)
  have hall : ∀ req, c ∈ s.outbox ++ s.stubs.map (fun dst => { dst := dst, req := req }) →
      ∃ dst ∈ s.stubs, c = { dst := dst, req := req } := by
    intro req hmem
    rcases List.mem_append.mp hmem with hold | hnew
    · exact hnone hold
    · obtain ⟨dst, hdst, rfl⟩ := List.mem_map.mp hnew
      exact ⟨dst, hdst, rfl⟩
  cases h with
  | behind request =>
    rcases List.mem_append.mp hc with hold | hnew
    · exact hnone hold
    · rw [List.mem_singleton.mp hnew]
      exact .behind request
  | staleLog a b index _ _ _ hindex =>
    rcases List.mem_append.mp hc with hold | hnew
    · exact hnone hold
    · rw [List.mem_singleton.mp hnew]
      exact .staleLog hindex
  | propose a b hawait hcount hmaj =>
    obtain ⟨dst, hdst, rfl⟩ := hall _ hc
    exact .accept dst a b hdst hawait hcount hmaj rfl
  | commitRound a b hawait hcount hmaj =>
    obtain ⟨dst, hdst, rfl⟩ := hall _ hc
    exact .commit dst a b hdst hawait hcount hmaj
  | _ => exact hnone hc

theorem CoreSent.not_prepare {s t : ServerImpl} {e : Event} {c : OutCall} (h : CoreSent s t e c)
    (request : PrepareReq) : c.req ≠ .prepare request := by
  intro hreq
  cases h <;> cases hreq

theorem Pre.outbox {s t : ServerImpl} {e : Event} (h : Pre s e t) : t.outbox = s.outbox := by
  cases h <;> rfl

/-- The `PrepareReq` of the next prepare phase. -/
def nextPrepare (s : ServerImpl) : PrepareReq :=
  { ballot := { num := s.ballotNum + 1, serverId := s.serverId }, paxosIndex := s.ledger.paxosIndex }

/-- A prepare phase adds its prepares to the outbox. -/
theorem mem_outbox_reissue {t : ServerImpl} {c : OutCall}
    (hc : c ∈ t.reissuePrepareForCurrent.outbox) :
    c ∈ t.outbox ∨ (c.dst ∈ t.stubs ∧ c.req = .prepare t.nextPrepare) := by
  rcases List.mem_append.mp hc with hold | hnew
  · exact .inl hold
  · obtain ⟨dst, hdst, rfl⟩ := List.mem_map.mp hnew
    exact .inr ⟨hdst, rfl⟩

/-- What a retry leaves alone: the batches, the replies and the flags of the round and of the connection. -/
structure RetryFrame (s t : ServerImpl) : Prop where
  current : t.current = s.current
  pending : t.pending = s.pending
  acceptBatch : t.acceptBatch = s.acceptBatch
  replies : t.replies = s.replies
  isPaxosRunning : t.isPaxosRunning = s.isPaxosRunning
  iAmDisconnected : t.iAmDisconnected = s.iAmDisconnected

theorem Pre.frame {s t : ServerImpl} {e : Event} (h : Pre s e t) : RetryFrame s t.reissuePrepareForCurrent := by
  have hkeep : RetryFrame s t := by cases h <;> exact ⟨rfl, rfl, rfl, rfl, rfl, rfl⟩
  exact ⟨hkeep.current, hkeep.pending, hkeep.acceptBatch, hkeep.replies, hkeep.isPaxosRunning, hkeep.iAmDisconnected⟩

/-- `startRound` up to its call of `reissuePrepareForCurrent`. -/
def takePending (t : ServerImpl) : ServerImpl :=
  { t with current := t.pending, pending := [], isPaxosRunning := true }

/-- The event `e`, handled in `s`, leaves `u`. -/
inductive Moves (s : ServerImpl) (e : Event) : ServerImpl → Prop
  | done {t} : Core s e t → Moves s e t
  | start {t} : Core s e t → t.isPaxosRunning = false → t.inSync = false → t.pending ≠ [] →
      Moves s e t.takePending.reissuePrepareForCurrent
  | retry {t} : Pre s e t → Moves s e t.reissuePrepareForCurrent

/-- What leaves with a move and is not a prepare left with its `Core`, which is all that touches the
ledger. -/
theorem Moves.core_of_sent {s u : ServerImpl} {e : Event} (h : Moves s e u) (hout : s.outbox = [])
    {c : OutCall} (hc : c ∈ u.outbox) (hno : ∀ request, c.req ≠ .prepare request) :
    ∃ t, Core s e t ∧ c ∈ t.outbox ∧ u.ledger = t.ledger := by
  cases h with
  | done hcore => exact ⟨_, hcore, hc, rfl⟩
  | @start t hcore =>
    rcases mem_outbox_reissue hc with hold | ⟨-, hreq⟩
    · exact ⟨t, hcore, hold, rfl⟩
    · exact absurd hreq (hno _)
  | retry hpre =>
    rcases mem_outbox_reissue hc with hold | ⟨-, hreq⟩
    · rw [hpre.outbox, hout] at hold
      exact absurd hold (by simp)
    · exact absurd hreq (hno _)

/-- The ledger of a server that has just sent its proposal. -/
theorem Core.ledger_of_accept {s t : ServerImpl} {e : Event} (h : Core s e t) (hout : s.outbox = [])
    {dst : Int} {a : AcceptReq} (hc : { dst := dst, req := .accept a } ∈ t.outbox) :
    t.ledger = (admitAll s.ledger s.promisedNum s.current).ledger := by
  cases h with
  | propose => rfl
  | behind | staleLog => simp [sendSync, setPrepareCounts, hout] at hc
  | commitRound => simp [ServerImpl.commitRound, clearRound, completeTransfers, sendAll, setAcceptCounts, hout] at hc
  | _ => exact absurd (hout ▸ hc : _ ∈ []) List.not_mem_nil

/-- The ledger of a server that has just announced that its round is committed. -/
theorem Core.ledger_of_commit {s t : ServerImpl} {e : Event} (h : Core s e t) (hout : s.outbox = [])
    {dst : Int} {m : CommitReq} (hc : { dst := dst, req := .commit m } ∈ t.outbox) :
    t.ledger = s.current.foldl (commitEntry s.acceptNum) s.ledger := by
  cases h with
  | commitRound => rfl
  | behind | staleLog => simp [sendSync, setPrepareCounts, hout] at hc
  | propose => simp [ServerImpl.propose, validate, completeTransfers, sendAll, setPrepareCounts, hout] at hc
  | _ => exact absurd (hout ▸ hc : _ ∈ []) List.not_mem_nil

theorem Moves.maybeStart {s t : ServerImpl} {e : Event} (h : Core s e t) :
    Moves s e t.maybeStartRound := by
  unfold maybeStartRound
  split
  · exact .done h
  · rename_i hguard
    simp only [Bool.or_eq_true, List.isEmpty_iff, not_or, Bool.not_eq_true] at hguard
    exact .start h hguard.1.1 hguard.1.2 hguard.2

/-! ## The inversion lemma, handler by handler -/

variable (s : ServerImpl)

theorem enqueueClientTxn_transfer_moves (call : Nat) (request : TransferReq) :
    Moves s (.input (.transfer call request)) (s.enqueueClientTxn call request false) := by
  unfold enqueueClientTxn
  split
  · rename_i hdisc
    exact .done (.refuse _ rfl hdisc)
  · exact .maybeStart (.transfer call request)

theorem enqueueClientTxn_tpcPrepare_moves (call : Nat) (request : TransferReq) :
    Moves s (.input (.tpcPrepare call request)) (s.enqueueClientTxn call request true) := by
  unfold enqueueClientTxn
  split
  · rename_i hdisc
    exact .done (.refuse _ rfl hdisc)
  · exact .maybeStart (.tpcPrepare call request)

theorem handleInput_moves (i : Input) : Moves s (.input i) (s.handleInput i) := by
  cases i with
  | transfer call request => exact s.enqueueClientTxn_transfer_moves call request
  | tpcPrepare call request => exact s.enqueueClientTxn_tpcPrepare_moves call request
  | tpcDecision tid isCommit =>
    show Moves s _ (s.processTpcDecision tid isCommit)
    unfold processTpcDecision
    split
    · exact .done .idle
    · exact .done (.decision tid isCommit)
  | disconnect servers => exact .done (.disconnect servers)
  | tick ms => exact .done (.tick ms)
  | sweep => exact .done .sweep

/-- The reply aside, `processPrepareCall` is `promise`. -/
theorem processPrepareCall_fst (request : PrepareReq) :
    (s.processPrepareCall request).1 = if s.iAmDisconnected then s else s.promise request := by
  unfold processPrepareCall
  split
  · rfl
  · dsimp only
    split_ifs <;> rfl

theorem processPrepareCall_moves (request : PrepareReq) :
    Moves s (.prepareCall request) (s.processPrepareCall request).1 := by
  rw [processPrepareCall_fst]
  split
  · exact .done .idle
  · rename_i hconn
    unfold promise
    split
    · rename_i hnum
      split
      · rename_i hidx
        exact .done (.promise request (by simpa using hconn) hnum hidx)
      · split
        · rename_i hidx
          exact .done (.behind request hnum hidx)
        · exact .done .idle
    · exact .done .idle

theorem processAcceptCall_moves (request : AcceptReq) :
    Moves s (.acceptCall request) (s.processAcceptCall request).1 := by
  unfold processAcceptCall
  split
  · exact .done .idle
  · rename_i hconn
    split
    · rename_i hacc
      exact .done (.accept request (by simpa using hconn) hacc)
    · exact .done .idle

theorem processCommitCall_moves (request : CommitReq) :
    Moves s (.commitCall request) (s.processCommitCall request) := by
  unfold processCommitCall
  split
  · exact .done .idle
  · rename_i hconn
    split
    · rename_i hcom
      exact .done (.commit request (by simpa using hconn) hcom)
    · exact .done .idle

section Replies

variable {s}

theorem decidePrepare_moves {a b : Nat} {status : Status} {request : PrepareReq}
    {response : PrepareRes} (hawait : s.awaitPrepareDecision = true)
    (hcount : s.CountsPrepare status request response a b) :
    Moves s (.prepareReply status request response) (s.setPrepareCounts a b).decidePrepare := by
  unfold decidePrepare
  split
  · rename_i hmaj
    unfold onPrepareQuorum
    split
    · rename_i hempty
      exact .maybeStart (.reject a b hawait hcount hmaj (List.isEmpty_iff.mp hempty))
    · rename_i hkept
      exact .done (.propose a b hawait hcount hmaj fun h => hkept (List.isEmpty_iff.mpr h))
  · rename_i hsucc
    split
    · rename_i hmaj
      exact .maybeStart (.abortPrepare a b hawait hcount hmaj)
    · rename_i hfail
      exact .done (.countPrepare a b hawait hcount (not_le.mp hsucc) (not_le.mp hfail))

/-- The branches of a counted reply, once the counters are up to date. -/
theorem countPrepare_branches {a b : Nat} {request : PrepareReq} {response : PrepareRes}
    (hawait : s.awaitPrepareDecision = true) (hans : s.answersPrepare response.ballot = true)
    (hcount : s.CountsPrepare .ok request response a b)
    (hcounted : (if response.ack then { s with prepareSuccesses := s.prepareSuccesses + 1 }
      else { s with prepareFailures := s.prepareFailures + 1 }) = s.setPrepareCounts a b) :
    Moves s (.prepareReply .ok request response) (s.countPrepare response) := by
  unfold countPrepare
  dsimp only
  rw [hcounted]
  split
  · rename_i latest hlatest
    exact .retry (.staleBallot a b latest hawait hcount hans hlatest)
  · split
    · rename_i index hindex
      split
      · rename_i hgt
        exact .done (.staleLog a b index hawait hcount hans hindex hgt)
      · exact decidePrepare_moves hawait hcount
    · exact decidePrepare_moves hawait hcount

theorem countPrepare_moves {request : PrepareReq} {response : PrepareRes}
    (hawait : s.awaitPrepareDecision = true) (hans : s.answersPrepare response.ballot = true) :
    Moves s (.prepareReply .ok request response) (s.countPrepare response) := by
  cases hack : response.ack with
  | true => exact countPrepare_branches hawait hans (.acked hans hack) (by simp [hack, setPrepareCounts])
  | false => exact countPrepare_branches hawait hans (.nacked hans hack) (by simp [hack, setPrepareCounts])

theorem handlePrepareReply_moves (status : Status) (request : PrepareReq) (response : PrepareRes) :
    Moves s (.prepareReply status request response)
      (s.handlePrepareReply status request response) := by
  unfold handlePrepareReply
  split
  · exact .done .idle
  · rename_i hawait
    have hawait : s.awaitPrepareDecision = true := by simpa using hawait
    split
    · rename_i hdeadline
      simp only [Bool.and_eq_true, decide_eq_true_eq] at hdeadline
      obtain ⟨rfl, hans⟩ := hdeadline
      exact decidePrepare_moves hawait (.failed hans)
    · split
      · rename_i hok
        simp only [Bool.and_eq_true, decide_eq_true_eq] at hok
        obtain ⟨rfl, hans⟩ := hok
        exact countPrepare_moves hawait hans
      · exact decidePrepare_moves hawait .other

theorem decideAccept_moves {a b : Nat} {status : Status} {request : AcceptReq}
    {response : AcceptRes} (hawait : s.awaitAcceptDecision = true)
    (hcount : s.CountsAccept status request response a b) :
    Moves s (.acceptReply status request response) (s.setAcceptCounts a b).decideAccept := by
  unfold decideAccept
  split
  · rename_i hmaj
    exact .maybeStart (.commitRound a b hawait hcount hmaj)
  · rename_i hsucc
    split
    · rename_i hmaj
      exact .maybeStart (.abortAccept a b hawait hcount hmaj)
    · rename_i hfail
      exact .done (.countAccept a b hawait hcount (not_le.mp hsucc) (not_le.mp hfail))

theorem handleAcceptReply_moves (status : Status) (request : AcceptReq) (response : AcceptRes) :
    Moves s (.acceptReply status request response)
      (s.handleAcceptReply status request response) := by
  unfold handleAcceptReply
  split
  · exact .done .idle
  · rename_i hawait
    have hawait : s.awaitAcceptDecision = true := by simpa using hawait
    split
    · rename_i hdeadline
      simp only [Bool.and_eq_true, decide_eq_true_eq] at hdeadline
      obtain ⟨rfl, hans⟩ := hdeadline
      exact decideAccept_moves hawait (.failed hans)
    · split
      · rename_i hok
        simp only [Bool.and_eq_true, decide_eq_true_eq] at hok
        obtain ⟨rfl, hans⟩ := hok
        cases hack : response.ack with
        | true => exact decideAccept_moves hawait (.acked hans hack)
        | false => exact decideAccept_moves hawait (.nacked hans hack)
      · exact decideAccept_moves hawait .other

theorem handleSyncReply_moves (status : Status) (response : SyncRes) :
    Moves s (.syncReply status response) (s.handleSyncReply status response) := by
  unfold handleSyncReply
  split
  · rename_i hok
    simp only [Bool.and_eq_true, decide_eq_true_eq] at hok
    obtain ⟨rfl, hack⟩ := hok
    unfold resumeAfterSync
    split
    · rename_i hcur
      exact .retry (.synced response hack fun h => by simp [applySync, persistBallotNum, h] at hcur)
    · rename_i hcur
      exact .maybeStart (.synced response hack (by simpa [applySync, persistBallotNum] using hcur))
  · unfold resumeAfterSync
    split
    · rename_i hcur
      exact .retry (.notSynced fun h => by simp [h] at hcur)
    · rename_i hcur
      exact .maybeStart (.notSynced (by simpa using hcur))

end Replies

/-- **Inversion of the event loop**: from an empty outbox, every handled event is one of the moves. -/
theorem handle_moves (e : Event) : Moves { s with outbox := [] } e (s.handle e) := by
  show Moves _ e (dispatch { s with outbox := [] } e)
  generalize { s with outbox := [] } = s
  cases e with
  | input i => exact s.handleInput_moves i
  | prepareCall request => exact s.processPrepareCall_moves request
  | acceptCall request => exact s.processAcceptCall_moves request
  | commitCall request => exact s.processCommitCall_moves request
  | syncCall request => exact .done .idle
  | prepareReply status request response => exact handlePrepareReply_moves status request response
  | acceptReply status request response => exact handleAcceptReply_moves status request response
  | syncReply status response => exact handleSyncReply_moves status response

theorem moves_of_handle {s t : ServerImpl} {e : Event} (h : s.handle e = t) : Moves { s with outbox := [] } e t :=
  h ▸ s.handle_moves e

end ServerImpl

end MultiPaxosDB
