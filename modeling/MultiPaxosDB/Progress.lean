/-
# MultiPaxosDB.Progress — what a round waits for.

A round ends when one of two counters reaches the majority, and the counters move only by the completion of the
RPCs it has sent.  So a server with a round in progress should always have one outstanding.  It need not: a
completion with a status other than OK and DEADLINE_EXCEEDED is not counted, and neither is one whose ballot is
no longer `promised_num` or `accept_num`, which the `Prepare` or `Accept` of a peer overwrites.  `undisturbed`
excludes these for the phase a server is in, and under it the failures counted so far and the RPCs still out
make up a majority (`Awaits`), so that something is always left to wait for (`round_never_wedges`).
-/
import MultiPaxosDB.Session
import MultiPaxosDB.Votes

namespace MultiPaxosDB

open Lib

/-- A `Prepare` of this ballot. -/
def OutCall.prepares (b : Ballot) (c : OutCall) : Bool :=
  match c.req with
  | .prepare request => request.ballot == b
  | _ => false

/-- An `Accept` of this ballot. -/
def OutCall.accepts (b : Ballot) (c : OutCall) : Bool :=
  match c.req with
  | .accept request => request.ballot == b
  | _ => false

/-- An RPC whose completion a round can wait for. -/
def RpcReq.inRound : RpcReq → Bool
  | .commit _ => false
  | _ => true

namespace ServerImpl

variable {s t : ServerImpl} {e : Event} {out : List OutCall}

/-- An event that leaves a server the completions its phase waits for: while it awaits the decision of a phase,
it acknowledges no request of a peer that would overwrite the ballot of that phase, and no RPC of that ballot
completes with another status than OK or DEADLINE_EXCEEDED. -/
def undisturbed (s : ServerImpl) : Event → Bool
  | .prepareCall request => !s.awaitPrepareDecision || s.iAmDisconnected || !s.promises request
  | .acceptCall request => !s.awaitAcceptDecision || s.iAmDisconnected || !s.accepts request
  | .prepareReply status request _ =>
    !s.awaitPrepareDecision || request.ballot != s.promisedNum || decide (status ≠ .error)
  | .acceptReply status request _ =>
    !s.awaitAcceptDecision || request.ballot != s.acceptNum || decide (status ≠ .error)
  | _ => true

/-! ## The invariant -/

/-- While a server awaits a decision, the ballot it asks with is its own, and the failures counted so far and the
RPCs still out are a majority; a round that awaits none is paused by a sync. -/
structure Awaits (s : ServerImpl) (out : List OutCall) : Prop where
  prepare : s.awaitPrepareDecision = true → s.promisedNum.serverId = s.serverId ∧
    majority ≤ s.prepareFailures + out.countP (OutCall.prepares s.promisedNum)
  accept : s.awaitAcceptDecision = true → s.acceptNum.serverId = s.serverId ∧
    majority ≤ s.acceptFailures + out.countP (OutCall.accepts s.acceptNum)
  paused : s.isPaxosRunning = true → s.awaitPrepareDecision = false → s.awaitAcceptDecision = false →
    ∃ c ∈ out, c.req.isSync = true

/-- More outstanding RPCs do no harm. -/
theorem Awaits.append (h : s.Awaits out) (more : List OutCall) : s.Awaits (out ++ more) where
  prepare := by
    intro hawait
    obtain ⟨hown, hcount⟩ := h.prepare hawait
    refine ⟨hown, ?_⟩
    rw [List.countP_append]
    omega
  accept := by
    intro hawait
    obtain ⟨hown, hcount⟩ := h.accept hawait
    refine ⟨hown, ?_⟩
    rw [List.countP_append]
    omega
  paused := by
    intro hrun hprepare haccept
    obtain ⟨c, hc, hsync⟩ := h.paused hrun hprepare haccept
    exact ⟨c, List.mem_append_left _ hc, hsync⟩

theorem Awaits.idle (hrun : s.isPaxosRunning = false) (hprepare : s.awaitPrepareDecision = false)
    (haccept : s.awaitAcceptDecision = false) (out : List OutCall) : s.Awaits out where
  prepare := by
    intro hawait
    rw [hprepare] at hawait
    cases hawait
  accept := by
    intro hawait
    rw [haccept] at hawait
    cases hawait
  paused := by
    intro hrun'
    rw [hrun] at hrun'
    cases hrun'

/-- What a server sends to all is counted once per stub. -/
theorem countP_sendAll (out old : List OutCall) (stubs : List Int) (req : RpcReq) {p : OutCall → Bool}
    (hp : ∀ dst, p { dst := dst, req := req } = true) :
    stubs.length ≤ (out ++ (old ++ stubs.map fun dst => ({ dst := dst, req := req } : OutCall))).countP p := by
  have hall : (stubs.map fun dst => ({ dst := dst, req := req } : OutCall)).countP p = stubs.length := by
    rw [List.countP_map, List.countP_eq_length.mpr]
    intro dst _
    exact hp dst
  rw [List.countP_append, List.countP_append, hall]
  omega

/-- A new prepare phase awaits an answer of every peer, wherever it starts from. -/
theorem Awaits.reissue (hstubs : majority ≤ s.stubs.length) (out : List OutCall) :
    s.reissuePrepareForCurrent.Awaits (out ++ s.reissuePrepareForCurrent.outbox) where
  prepare := by
    intro _
    have hcount := countP_sendAll out s.outbox s.stubs (.prepare s.nextPrepare)
      (p := OutCall.prepares s.nextPrepare.ballot) (by intro dst; simp [OutCall.prepares])
    exact ⟨rfl, (hstubs.trans hcount).trans (Nat.le_add_left _ 0)⟩
  accept := by intro hawait; cases hawait
  paused := by intro _ hawait; cases hawait

theorem Awaits.maybeStartRound (hstubs : majority ≤ s.stubs.length) (h : s.Awaits out) :
    s.maybeStartRound.Awaits (out ++ s.maybeStartRound.outbox) := by
  unfold ServerImpl.maybeStartRound
  split
  · exact h.append _
  · exact Awaits.reissue (s := s.takePending) hstubs out

/-- The end of a round, and perhaps the start of the next. -/
theorem Awaits.finishRound (hstubs : majority ≤ s.stubs.length) (out : List OutCall) :
    s.finishRound.Awaits (out ++ s.finishRound.outbox) :=
  Awaits.maybeStartRound (s := s.clearRound) hstubs (.idle rfl rfl rfl out)

/-- An accept phase awaits an answer of every peer. -/
theorem Awaits.propose (hstubs : majority ≤ s.stubs.length) (hno : s.awaitPrepareDecision = false)
    (hown : s.promisedNum.serverId = s.serverId) (out : List OutCall) :
    s.propose.Awaits (out ++ s.propose.outbox) where
  prepare := by
    intro hawait
    rw [show s.propose.awaitPrepareDecision = false from hno] at hawait
    cases hawait
  accept := by
    intro _
    have hcount := countP_sendAll out s.outbox s.stubs
      (.accept { ballot := s.promisedNum, batch := s.current.map BatchEntry.request })
      (p := OutCall.accepts s.promisedNum) (by intro dst; simp [OutCall.accepts])
    exact ⟨hown, (hstubs.trans hcount).trans (Nat.le_add_left _ 0)⟩
  paused := by intro _ _ hawait; cases hawait

/-! ## Replies -/

/-- An RPC that the phase does not wait for may complete. -/
theorem Awaits.forget (h : s.Awaits out) {k : Nat} {c : OutCall} (hk : out[k]? = some c)
    (hprepare : s.awaitPrepareDecision = true → c.prepares s.promisedNum = false)
    (haccept : s.awaitAcceptDecision = true → c.accepts s.acceptNum = false)
    (hsync : c.req.isSync = true → s.isPaxosRunning = false) : s.Awaits (out.eraseIdx k) where
  prepare := by
    intro hawait
    obtain ⟨hown, hcount⟩ := h.prepare hawait
    have herase := countP_eraseIdx (OutCall.prepares s.promisedNum) hk
    rw [hprepare hawait, if_neg Bool.false_ne_true] at herase
    exact ⟨hown, by omega⟩
  accept := by
    intro hawait
    obtain ⟨hown, hcount⟩ := h.accept hawait
    have herase := countP_eraseIdx (OutCall.accepts s.acceptNum) hk
    rw [haccept hawait, if_neg Bool.false_ne_true] at herase
    exact ⟨hown, by omega⟩
  paused := by
    intro hrun hnoPrepare hnoAccept
    obtain ⟨c', hc', hsync'⟩ := h.paused hrun hnoPrepare hnoAccept
    refine ⟨c', ?_, hsync'⟩
    obtain ⟨j, hj⟩ := List.mem_iff_getElem?.mp hc'
    have hne : j ≠ k := by
      rintro rfl
      rw [hk, Option.some.injEq] at hj
      rw [← hj] at hsync'
      rw [hsync hsync'] at hrun
      cases hrun
    exact List.mem_eraseIdx_iff_getElem?.mpr ⟨j, hne, hj⟩

/-- The prepare phase after a reply has been counted: it is over, or still awaits the rest. -/
theorem Awaits.decidePrepare (hstubs : majority ≤ s.stubs.length) (hown : s.promisedNum.serverId = s.serverId)
    (h : s.prepareSuccesses < majority → s.prepareFailures < majority → s.Awaits out) :
    s.decidePrepare.Awaits (out ++ s.decidePrepare.outbox) := by
  unfold ServerImpl.decidePrepare onPrepareQuorum
  split
  · split
    · exact .finishRound (s := s.validate) hstubs out
    · exact .propose (s := s.validate) hstubs rfl hown out
  · split
    · exact .finishRound (s := s.abortRound true) hstubs out
    · rename_i hsucc hfail
      exact (h (by omega) (by omega)).append _

theorem Awaits.decideAccept (hstubs : majority ≤ s.stubs.length)
    (h : s.acceptSuccesses < majority → s.acceptFailures < majority → s.Awaits out) :
    s.decideAccept.Awaits (out ++ s.decideAccept.outbox) := by
  unfold ServerImpl.decideAccept
  split
  · exact .finishRound (s := s.commitRound) hstubs out
  · split
    · exact .finishRound (s := s.abortRound false) hstubs out
    · rename_i hsucc hfail
      exact (h (by omega) (by omega)).append _

/-- Of a ballot that is its own, a server counts exactly the replies to it. -/
theorem answersPrepare_iff (hown : s.promisedNum.serverId = s.serverId) {b : Ballot} :
    s.answersPrepare b = true ↔ b = s.promisedNum := by
  rw [answersPrepare, Bool.and_eq_true, decide_eq_true_eq, decide_eq_true_eq, ← hown, Ballot.ext_iff]

theorem answersAccept_iff (hown : s.acceptNum.serverId = s.serverId) {b : Ballot} :
    s.answersAccept b = true ↔ b = s.acceptNum := by
  rw [answersAccept, Bool.and_eq_true, decide_eq_true_eq, decide_eq_true_eq, ← hown, Ballot.ext_iff]

/-- A counted failure stands for the RPC that is over. -/
theorem Awaits.failed (hawait : s.awaitPrepareDecision = true) (hnot : s.awaitAcceptDecision = false)
    (hown : s.promisedNum.serverId = s.serverId)
    (hcount : majority ≤ s.prepareFailures + 1 + out.countP (OutCall.prepares s.promisedNum)) :
    ({ s with prepareFailures := s.prepareFailures + 1 } : ServerImpl).Awaits out where
  prepare := fun _ => ⟨hown, hcount⟩
  accept := by
    intro haccept
    rw [show s.awaitAcceptDecision = true from haccept] at hnot
    cases hnot
  paused := by
    intro _ hno
    rw [show s.awaitPrepareDecision = false from hno] at hawait
    cases hawait

/-- An answer to the current ballot retries the phase, pauses it for a sync, or is counted. -/
theorem Awaits.countPrepare (hstubs : majority ≤ s.stubs.length) (hphase : s.Phase)
    (hawait : s.awaitPrepareDecision = true) (hown : s.promisedNum.serverId = s.serverId)
    (hcount : majority ≤ s.prepareFailures + 1 + out.countP (OutCall.prepares s.promisedNum))
    (response : PrepareRes) :
    (s.countPrepare response).Awaits (out ++ (s.countPrepare response).outbox) := by
  obtain ⟨-, -, hsucc, -, hnot⟩ := hphase.prepare hawait
  generalize hc : (if response.ack then { s with prepareSuccesses := s.prepareSuccesses + 1 }
    else { s with prepareFailures := s.prepareFailures + 1 } : ServerImpl) = counted
  have hstubs' : majority ≤ counted.stubs.length := by
    subst hc
    split <;> exact hstubs
  have hnot' : counted.awaitAcceptDecision = false := by
    subst hc
    split <;> exact hnot
  have hdecide : counted.decidePrepare.Awaits (out ++ counted.decidePrepare.outbox) := by
    refine .decidePrepare hstubs' (by subst hc; split <;> exact hown) ?_
    subst hc
    split
    · intro hlt
      exact absurd (show s.prepareSuccesses + 1 < majority from hlt) (by rw [hsucc]; decide)
    · exact fun _ _ => .failed hawait hnot hown hcount
  unfold ServerImpl.countPrepare
  simp only [hc]
  split
  · exact .reissue (s := persistBallotNum { counted with ballotNum := _ }) hstubs' out
  · split
    · split
      · refine ⟨?_, ?_, ?_⟩
        · intro hno
          cases hno
        · intro haccept
          rw [show counted.awaitAcceptDecision = true from haccept] at hnot'
          cases hnot'
        · intro _ _ _
          exact ⟨{ dst := response.serverId.getD 0, req := .sync counted.syncReq },
            List.mem_append_right _ (List.mem_append_right _ List.mem_cons_self), rfl⟩
      · exact hdecide
    · exact hdecide

/-- A reply that is not about the ballot of the phase changes nothing: the counters are short of a quorum. -/
theorem handlePrepareReply_other (hphase : s.Phase) (h : s.Awaits out) {status : Status} {request : PrepareReq}
    {response : PrepareRes} (hballot : status = .ok → response.ballot = request.ballot)
    (hother : s.awaitPrepareDecision = true → request.ballot ≠ s.promisedNum) :
    s.handlePrepareReply status request response = s := by
  unfold ServerImpl.handlePrepareReply
  by_cases hawait : s.awaitPrepareDecision = true
  · have hnotAns : s.answersPrepare request.ballot = false := by
      rw [← Bool.not_eq_true, answersPrepare_iff (h.prepare hawait).1]
      exact hother hawait
    have hsame : s.decidePrepare = s := by
      obtain ⟨-, -, hsucc, hfail, -⟩ := hphase.prepare hawait
      rw [ServerImpl.decidePrepare, if_neg (by rw [hsucc]; decide), if_neg (by omega)]
    rw [if_neg (by simp [hawait]), if_neg (by simp [hnotAns]), if_neg ?_, hsame]
    rw [Bool.and_eq_true, decide_eq_true_eq]
    rintro ⟨hstatus, hresponse⟩
    rw [hballot hstatus, hnotAns] at hresponse
    cases hresponse
  · rw [if_pos (by simpa using hawait)]

/-- The completion of a `Prepare`. -/
theorem Awaits.handlePrepareReply (hstubs : majority ≤ s.stubs.length) (hphase : s.Phase) (h : s.Awaits out)
    {k : Nat} {dst : Int} {status : Status} {request : PrepareReq} {response : PrepareRes}
    (hk : out[k]? = some { dst := dst, req := .prepare request })
    (hballot : status = .ok → response.ballot = request.ballot)
    (hok : s.undisturbed (.prepareReply status request response) = true) :
    (s.handlePrepareReply status request response).Awaits
      (out.eraseIdx k ++ (s.handlePrepareReply status request response).outbox) := by
  by_cases hcurrent : s.awaitPrepareDecision = true ∧ request.ballot = s.promisedNum
  · obtain ⟨hawait, hb⟩ := hcurrent
    obtain ⟨hown, hcount⟩ := h.prepare hawait
    have hans : s.answersPrepare request.ballot = true := (answersPrepare_iff hown).mpr hb
    have herase := countP_eraseIdx (OutCall.prepares s.promisedNum) hk
    rw [if_pos (by simp [OutCall.prepares, hb])] at herase
    have hless : majority ≤ s.prepareFailures + 1 + (out.eraseIdx k).countP (OutCall.prepares s.promisedNum) := by
      omega
    cases status with
    | ok =>
      have heq : s.handlePrepareReply .ok request response = s.countPrepare response := by
        simp [ServerImpl.handlePrepareReply, hawait, hballot rfl, hans]
      rw [heq]
      exact .countPrepare hstubs hphase hawait hown hless response
    | deadlineExceeded =>
      have heq : s.handlePrepareReply .deadlineExceeded request response =
          ServerImpl.decidePrepare { s with prepareFailures := s.prepareFailures + 1 } := by
        simp [ServerImpl.handlePrepareReply, hawait, hans]
      rw [heq]
      exact .decidePrepare hstubs hown fun _ _ => .failed hawait (hphase.prepare hawait).2.2.2.2 hown hless
    | error => simp [undisturbed, hawait, hb] at hok
  · have hother : s.awaitPrepareDecision = true → request.ballot ≠ s.promisedNum := fun hawait hb => hcurrent ⟨hawait, hb⟩
    rw [handlePrepareReply_other hphase h hballot hother]
    refine Awaits.append (h.forget hk ?_ (fun _ => rfl) (fun hsync => by cases hsync)) _
    intro hawait
    simpa [OutCall.prepares] using hother hawait

theorem handleAcceptReply_other (hphase : s.Phase) (h : s.Awaits out) {status : Status} {request : AcceptReq}
    {response : AcceptRes} (hballot : status = .ok → response.ballot = request.ballot)
    (hother : s.awaitAcceptDecision = true → request.ballot ≠ s.acceptNum) :
    s.handleAcceptReply status request response = s := by
  unfold ServerImpl.handleAcceptReply
  by_cases hawait : s.awaitAcceptDecision = true
  · have hnotAns : s.answersAccept request.ballot = false := by
      rw [← Bool.not_eq_true, answersAccept_iff (h.accept hawait).1]
      exact hother hawait
    have hsame : s.decideAccept = s := by
      obtain ⟨hsucc, hfail⟩ := hphase.accept hawait
      rw [ServerImpl.decideAccept, if_neg (by rw [hsucc]; decide), if_neg (by omega)]
    rw [if_neg (by simp [hawait]), if_neg (by simp [hnotAns]), if_neg ?_, hsame]
    rw [Bool.and_eq_true, decide_eq_true_eq]
    rintro ⟨hstatus, hresponse⟩
    rw [hballot hstatus, hnotAns] at hresponse
    cases hresponse
  · rw [if_pos (by simpa using hawait)]

/-- The completion of an `Accept`. -/
theorem Awaits.handleAcceptReply (hstubs : majority ≤ s.stubs.length) (hphase : s.Phase) (h : s.Awaits out)
    {k : Nat} {dst : Int} {status : Status} {request : AcceptReq} {response : AcceptRes}
    (hk : out[k]? = some { dst := dst, req := .accept request })
    (hballot : status = .ok → response.ballot = request.ballot)
    (hok : s.undisturbed (.acceptReply status request response) = true) :
    (s.handleAcceptReply status request response).Awaits
      (out.eraseIdx k ++ (s.handleAcceptReply status request response).outbox) := by
  by_cases hcurrent : s.awaitAcceptDecision = true ∧ request.ballot = s.acceptNum
  · obtain ⟨hawait, hb⟩ := hcurrent
    obtain ⟨hown, hcount⟩ := h.accept hawait
    have hnot : s.awaitPrepareDecision = false := hphase.not_prepare hawait
    have hans : s.answersAccept request.ballot = true := (answersAccept_iff hown).mpr hb
    have herase := countP_eraseIdx (OutCall.accepts s.acceptNum) hk
    rw [if_pos (by simp [OutCall.accepts, hb])] at herase
    -- a failure of this RPC is counted in its place
    have hfailed : (ServerImpl.decideAccept { s with acceptFailures := s.acceptFailures + 1 }).Awaits (out.eraseIdx k ++
        (ServerImpl.decideAccept { s with acceptFailures := s.acceptFailures + 1 }).outbox) := by
      refine .decideAccept hstubs fun _ _ => ⟨?_, fun _ => ⟨hown, ?_⟩, ?_⟩
      · intro hprepare
        rw [show s.awaitPrepareDecision = true from hprepare] at hnot
        cases hnot
      · show majority ≤ s.acceptFailures + 1 + (out.eraseIdx k).countP (OutCall.accepts s.acceptNum)
        omega
      · intro _ _ hno
        rw [show s.awaitAcceptDecision = false from hno] at hawait
        cases hawait
    unfold ServerImpl.handleAcceptReply
    rw [if_neg (by simp [hawait])]
    cases status with
    | ok =>
      rw [if_neg (by simp), if_pos (by simp [hballot rfl, hans])]
      split
      · refine .decideAccept hstubs fun hlt => ?_
        have hsucc := (hphase.accept hawait).1
        exact absurd (show s.acceptSuccesses + 1 < majority from hlt) (by rw [hsucc]; decide)
      · exact hfailed
    | deadlineExceeded =>
      rw [if_pos (by simp [hans])]
      exact hfailed
    | error => simp [undisturbed, hawait, hb] at hok
  · have hother : s.awaitAcceptDecision = true → request.ballot ≠ s.acceptNum := fun hawait hb => hcurrent ⟨hawait, hb⟩
    rw [handleAcceptReply_other hphase h hballot hother]
    refine Awaits.append (h.forget hk (fun _ => rfl) ?_ (fun hsync => by cases hsync)) _
    intro hawait
    simpa [OutCall.accepts] using hother hawait

/-- The completion of a `Sync` resumes a paused round. -/
theorem Awaits.handleSyncReply (hstubs : majority ≤ s.stubs.length) (hbusy : s.Busy) (h : s.Awaits out)
    {k : Nat} {dst : Int} {status : Status} {request : SyncReq} {response : SyncRes}
    (hk : out[k]? = some { dst := dst, req := .sync request }) :
    (s.handleSyncReply status response).Awaits (out.eraseIdx k ++ (s.handleSyncReply status response).outbox) := by
  unfold ServerImpl.handleSyncReply
  -- applying the reply moves neither the round nor the stubs
  generalize hu : (if status = .ok && response.ack then s.applySync response else s) = u
  have hstubs' : majority ≤ u.stubs.length := by
    subst hu
    split <;> exact hstubs
  unfold resumeAfterSync
  split
  · exact .reissue (s := { u with inSync := false }) hstubs' _
  · rename_i hcur
    have hidle : s.isPaxosRunning = false := by
      have hnil : s.current = [] := by
        subst hu
        revert hcur
        split <;> simp [applySync, persistBallotNum]
      rw [← Bool.not_eq_true]
      exact fun hrun => hbusy.mp hrun hnil
    have hforget : s.Awaits (out.eraseIdx k) := h.forget hk (fun _ => rfl) (fun _ => rfl) fun _ => hidle
    refine .maybeStartRound (s := { u with inSync := false }) hstubs' ?_
    subst hu
    split
    · exact ⟨hforget.prepare, hforget.accept, hforget.paused⟩
    · exact ⟨hforget.prepare, hforget.accept, hforget.paused⟩

/-! ## Every event -/

theorem Core.awaits (hcore : Core s e t) (hcall : e.isReply = false) (h : s.Awaits out)
    (hok : s.undisturbed e = true) : t.Awaits out := by
  cases hcore with
  | promise request hconn hlt hindex =>
    have hno : s.awaitPrepareDecision = false := by
      simpa [undisturbed, hconn, promises, hlt, hindex] using hok
    refine ⟨?_, h.accept, h.paused⟩
    intro hawait
    rw [show s.awaitPrepareDecision = true from hawait] at hno
    cases hno
  | accept request hconn haccepts =>
    have hno : s.awaitAcceptDecision = false := by
      simpa [undisturbed, hconn, haccepts] using hok
    refine ⟨h.prepare, ?_, h.paused⟩
    intro hawait
    rw [show s.awaitAcceptDecision = true from hawait] at hno
    cases hno
  | countPrepare | staleLog | reject | propose | abortPrepare | countAccept | commitRound | abortAccept | synced |
    notSynced => cases hcall
  | _ => exact ⟨h.prepare, h.accept, h.paused⟩

/-- An event that completes no RPC. -/
theorem Awaits.handle (hstubs : majority ≤ s.stubs.length) (h : s.Awaits out) (hcall : e.isReply = false)
    (hok : s.undisturbed e = true) : (s.handle e).Awaits (out ++ (s.handle e).outbox) := by
  have hclear : ({ s with outbox := [] } : ServerImpl).Awaits out := ⟨h.prepare, h.accept, h.paused⟩
  have hok' : ({ s with outbox := [] } : ServerImpl).undisturbed e = true := hok
  generalize hu : s.handle e = u
  cases moves_of_handle hu with
  | done hcore => exact (hcore.awaits hcall hclear hok').append _
  | @start t hcore =>
    refine .reissue (s := t.takePending) ?_ out
    rw [show t.takePending.stubs = s.stubs from hcore.identity.2]
    exact hstubs
  | retry hpre => cases hpre <;> cases hcall

end ServerImpl

/-! ## The network -/

/-- A server of a cluster of three has two peers. -/
theorem majority_le_length_stubsOf {c : Constants} (hc : c.clusterSize = 3) {i : Int} (hi : i ∈ serverIds c) :
    majority ≤ (stubsOf c i).length := by
  have hlength := length_stubsOf (by omega) hi
  unfold majority
  omega

namespace Net

variable {n : Net} {ev : NetEvent}

def undisturbed (n : Net) (ev : NetEvent) : Bool :=
  match n.actor ev with
  | some (i, e) => (n.servers i).undisturbed e
  | none => true

theorem undisturbed_of_actor {i : Int} {e : Event} (h : n.undisturbed ev = true)
    (hactor : n.actor ev = some (i, e)) : (n.servers i).undisturbed e = true := by
  simpa [undisturbed, hactor] using h

theorem busy_reach {c : Constants} {ok : Net → NetEvent → Prop} (hr : Reach Net.step ok (Net.fresh c) n) (i : Int) :
    (n.servers i).Busy := by
  obtain ⟨es, hes⟩ := session_reach hr i
  have horderly := Session.orderly_run c i es
  rw [← hes] at horderly
  exact horderly.busy

/-- The completion of an RPC of server `i`. -/
theorem awaits_reply {s : ServerImpl} {out : List OutCall} (hstubs : majority ≤ s.stubs.length) (hphase : s.Phase)
    (hbusy : s.Busy) (h : s.Awaits out) {k : Nat} {c : OutCall} {status : Status} {res : RpcRes} {e : Event}
    (hk : out[k]? = some c) (he : replyEvent c.req status res = some e)
    (hans : status = .ok → Answers c.dst c.req res) (hok : s.undisturbed e = true) :
    (s.handle e).Awaits (out.eraseIdx k ++ (s.handle e).outbox) := by
  -- the handlers begin with an empty outbox
  have hclear : ({ s with outbox := [] } : ServerImpl).Awaits out := ⟨h.prepare, h.accept, h.paused⟩
  have hphase' : ({ s with outbox := [] } : ServerImpl).Phase := ⟨hphase.prepare, hphase.accept⟩
  have hbusy' : ({ s with outbox := [] } : ServerImpl).Busy := hbusy
  have hstubs' : majority ≤ ({ s with outbox := [] } : ServerImpl).stubs.length := hstubs
  generalize hs : ({ s with outbox := [] } : ServerImpl) = s' at hclear hphase' hbusy' hstubs'
  have hok' : s'.undisturbed e = true := hs ▸ hok
  rw [show s.handle e = s'.dispatch e from hs ▸ rfl]
  obtain ⟨dst, req⟩ := c
  cases req with
  | commit m => cases he
  | prepare request =>
    cases res with
    | prepare response =>
      cases he
      refine hclear.handlePrepareReply hstubs' hphase' hk ?_ hok'
      intro hstatus
      cases hans hstatus with
      | prepare hballot => exact hballot
    | _ => cases he
  | accept request =>
    cases res with
    | accept response =>
      cases he
      refine hclear.handleAcceptReply hstubs' hphase' hk ?_ hok'
      intro hstatus
      cases hans hstatus with
      | accept hballot => exact hballot
    | _ => cases he
  | sync request =>
    cases res with
    | sync response =>
      cases he
      exact hclear.handleSyncReply hstubs' hbusy' hk
    | _ => cases he

theorem awaits_reach {c : Constants} (hc : c.clusterSize = 3)
    (hr : Reach Net.step (fun n ev => n.undisturbed ev = true) (Net.fresh c) n) (i : Int) :
    (n.servers i).Awaits (n.session i).outstanding := by
  refine hr.invariant (motive := fun n => (n.servers i).Awaits (n.session i).outstanding)
    (.idle rfl rfl rfl _) ?_
  intro n ev hr h hok
  have hwf : n.WellFormed := .reach hr
  have hstubs : ∀ e, n.actor ev = some (i, e) → majority ≤ (n.servers i).stubs.length := by
    intro e hactor
    have hmem := hwf.actor_mem (justified hactor)
    rw [constants_reach hr] at hmem
    rw [hwf.stubs, constants_reach hr]
    exact majority_le_length_stubsOf hc hmem
  have hstep := session_step hwf ev i
  show ((n.step ev).session i).server.Awaits ((n.step ev).session i).outstanding
  generalize (n.step ev).session i = s' at hstep
  cases hstep with
  | other => exact h
  | call e hactor hcall => exact h.handle (hstubs e hactor) hcall (undisturbed_of_actor hok hactor)
  | announced k c m hk hm =>
    refine h.forget hk ?_ ?_ ?_
    · intro _
      simp [OutCall.prepares, hm]
    · intro _
      simp [OutCall.accepts, hm]
    · intro hsync
      rw [hm] at hsync
      cases hsync
  | reply k c status res e hk he hactor hans =>
    exact awaits_reply (hstubs e hactor) (phase_reach hr i) (busy_reach hr i) h hk he hans
      (undisturbed_of_actor hok hactor)

/-- Server `i` has an RPC out whose completion its round can wait for. -/
def Waiting (n : Net) (i : Int) : Prop := ∃ r ∈ n.rpcs, r.src = i ∧ r.done = false ∧ r.req.inRound = true

instance (n : Net) (i : Int) : Decidable (n.Waiting i) :=
  inferInstanceAs (Decidable (∃ r ∈ n.rpcs, r.src = i ∧ r.done = false ∧ r.req.inRound = true))

end Net

/-- **A round never wedges.**  In a cluster of three, where every step leaves the acting server the completions
its phase waits for, a server with a round in progress has a `Prepare`, `Accept` or `Sync` out that is not over. -/
theorem round_never_wedges (c : Constants) (hc : c.clusterSize = 3) (n : Net)
    (hr : Reach Net.step (fun n ev => n.undisturbed ev = true) (Net.fresh c) n) (i : Int)
    (hrun : (n.servers i).isPaxosRunning = true) : n.Waiting i := by
  have h := Net.awaits_reach hc hr i
  have hphase := Net.phase_reach hr i
  -- an outstanding call of one of the three kinds
  have hfound : ∀ call ∈ (n.session i).outstanding, call.req.inRound = true → n.Waiting i := by
    intro call hcall hround
    obtain ⟨r, hr, hsrc, hdone, hreq⟩ := mem_openCalls hcall
    exact ⟨r, hr, hsrc, hdone, hreq ▸ hround⟩
  by_cases hprepare : (n.servers i).awaitPrepareDecision = true
  · have hcount := (h.prepare hprepare).2
    have hfail := (hphase.prepare hprepare).2.2.2.1
    have hpos : 0 < (n.session i).outstanding.countP (OutCall.prepares (n.servers i).promisedNum) := by omega
    obtain ⟨call, hcall, hkind⟩ := List.countP_pos_iff.mp hpos
    refine hfound call hcall ?_
    cases hreq : call.req with
    | commit m => simp [OutCall.prepares, hreq] at hkind
    | _ => rfl
  · by_cases haccept : (n.servers i).awaitAcceptDecision = true
    · have hcount := (h.accept haccept).2
      have hfail := (hphase.accept haccept).2
      have hpos : 0 < (n.session i).outstanding.countP (OutCall.accepts (n.servers i).acceptNum) := by omega
      obtain ⟨call, hcall, hkind⟩ := List.countP_pos_iff.mp hpos
      refine hfound call hcall ?_
      cases hreq : call.req with
      | commit m => simp [OutCall.accepts, hreq] at hkind
      | _ => rfl
    · obtain ⟨call, hcall, hsync⟩ := h.paused hrun (by simpa using hprepare) (by simpa using haccept)
      refine hfound call hcall ?_
      cases hreq : call.req with
      | commit m => simp [RpcReq.isSync, hreq] at hsync
      | _ => rfl

/-- Server 1 starts a round and its prepare to server 2 misses the deadline. -/
def onePeerSilent : List NetEvent :=
  [.input 1 (.transfer 0 ⟨⟨1, 2, 5⟩, 1⟩), .fail 0 .deadlineExceeded]

/-- It still waits for server 3. -/
theorem round_never_wedges_onePeerSilent : (Net.run ⟨3, 3⟩ onePeerSilent).Waiting 1 :=
  round_never_wedges ⟨3, 3⟩ rfl (Net.run ⟨3, 3⟩ onePeerSilent) (Net.reach_run ⟨3, 3⟩ (by decide +kernel)) 1
    (by decide +kernel)

/-- Both peers of server 1 are down, and its prepares complete with UNAVAILABLE: the round is never decided. -/
theorem round_can_wedge :
    ¬ ∀ (es : List NetEvent) (i : Int), ((Net.run ⟨3, 3⟩ es).servers i).isPaxosRunning = true →
      (Net.run ⟨3, 3⟩ es).Waiting i := by
  intro h
  have hwaits := h [.input 1 (.transfer 0 ⟨⟨1, 2, 5⟩, 1⟩), .fail 0 .error, .fail 1 .error] 1 (by decide +kernel)
  revert hwaits
  decide +kernel

end MultiPaxosDB
