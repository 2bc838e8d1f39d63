/-
# MultiPaxosDB.Session — one server against an arbitrary environment.

A `Session` is a server with the peer RPCs it has sent and whose completion it has not handled yet.  The
environment hands it anything a client, the driver, the clock or a peer can, in any order, and completes any
outstanding RPC with any status and any reply; all that is asked is that a completion answers an RPC of its
kind, and answers it once.

The theorem is about the parked calls, which the source moves between three containers as raw pointers:
none is dropped and none is answered twice.  And a queue that no round works on waits for a sync, whose RPC
is outstanding: `maybeStartRound` is called wherever one of the reasons to wait goes away (`Served`), and
`in_sync` is raised only together with a `Sync` and lowered by whichever completes first (`Synced`).

Each server of a network goes through a session (`session_step`, `session_reach`), with the RPCs of its own that
are not over as the outstanding ones.
-/
import MultiPaxosDB.Ballots
import MultiPaxosDB.Calls

namespace MultiPaxosDB

open Lib

/-! ## The session -/

/-- The completion of an RPC, as opposed to a call from outside. -/
def Event.isReply : Event → Bool
  | .prepareReply _ _ _ => true
  | .acceptReply _ _ _ => true
  | .syncReply _ _ => true
  | _ => false

def RpcReq.isSync : RpcReq → Bool
  | .sync _ => true
  | _ => false

structure Session where
  server : ServerImpl
  /-- The peer RPCs whose completion the server has not handled. -/
  outstanding : List OutCall

inductive SessionEvent
  | call (e : Event)
  | completion (k : Nat) (status : Status) (response : RpcRes)
deriving DecidableEq, Repr

/-- The client call an event brings. -/
def SessionEvent.entries : SessionEvent → List BatchEntry
  | .call e => e.entries
  | .completion _ _ _ => []

namespace Session

def fresh (c : Constants) (serverId : Int) : Session := { server := .fresh c serverId, outstanding := [] }

/-- The server handles an event, and what it sends is outstanding. -/
def handle (s : Session) (e : Event) : Session :=
  { server := s.server.handle e, outstanding := s.outstanding ++ (s.server.handle e).outbox }

/-- The outstanding RPC `k` is over. -/
def forget (s : Session) (k : Nat) : Session := { s with outstanding := s.outstanding.eraseIdx k }

/-- One step of the environment.  A completion of another kind than its RPC changes nothing, and that of a
`Commit` is ignored by the server. -/
def step (s : Session) : SessionEvent → Session
  | .call e => if e.isReply then s else s.handle e
  | .completion k status response =>
    match s.outstanding[k]? with
    | none => s
    | some { dst := _, req := .commit _ } => s.forget k
    | some { dst := _, req := req } =>
      match replyEvent req status response with
      | some e => (s.forget k).handle e
      | none => s

/-- The session that started fresh and went through the events `es`. -/
def run (c : Constants) (serverId : Int) (es : List SessionEvent) : Session := es.foldl step (fresh c serverId)

/-- The client calls of a session, as they are enqueued. -/
def enqueued (es : List SessionEvent) : List BatchEntry := es.flatMap SessionEvent.entries

/-- What one step does. -/
inductive Moves (s : Session) : SessionEvent → Session → Prop
  | idle {ev} : ev.entries = [] → Moves s ev s
  | call (e : Event) : e.isReply = false → Moves s (.call e) (s.handle e)
  | announced (k : Nat) {status response} (c : OutCall) : s.outstanding[k]? = some c → c.req.isSync = false →
      Moves s (.completion k status response) (s.forget k)
  | reply (k : Nat) {status response} (c : OutCall) (e : Event) : s.outstanding[k]? = some c →
      replyEvent c.req status response = some e → Moves s (.completion k status response) ((s.forget k).handle e)

theorem step_moves (s : Session) (ev : SessionEvent) : Moves s ev (s.step ev) := by
  cases ev with
  | call e =>
    simp only [step]
    split
    · rename_i hreply
      refine .idle ?_
      cases e with
      | input x => cases hreply
      | _ => rfl
    · rename_i hcall
      exact .call e (by simpa using hcall)
  | completion k status response =>
    simp only [step]
    split
    · exact .idle rfl
    · rename_i dst m hk
      exact .announced k _ hk rfl
    · rename_i dst req _ hk
      split
      · rename_i e he
        exact .reply k _ e hk he
      · exact .idle rfl

end Session

namespace ServerImpl

variable {s t : ServerImpl} {e : Event}

/-! ## No call is lost -/

theorem callKeys_maybeStartRound (h : s.Running) : s.maybeStartRound.callKeys = s.callKeys := by
  unfold maybeStartRound
  split
  · rfl
  · rename_i hguard
    simp only [Bool.or_eq_true, not_or, Bool.not_eq_true] at hguard
    show s.replies.map TransferRes.key ++ (s.pending ++ []).map BatchEntry.key = _
    rw [callKeys, parked, h hguard.1.1, List.append_nil, List.nil_append]

theorem callKeys_enqueueClientTxn (h : s.Running) (b : BatchEntry) :
    (s.enqueueClientTxn b.call b.request b.isCrossShard).callKeys.Perm (s.callKeys ++ [b.key]) := by
  unfold enqueueClientTxn
  split
  · show ((s.replies ++ [_]).map TransferRes.key ++ s.parked.map BatchEntry.key).Perm
      (s.replies.map TransferRes.key ++ s.parked.map BatchEntry.key ++ [b.key])
    rw [List.map_append, List.append_assoc, List.append_assoc]
    exact List.perm_append_comm.append_left _
  · have hqueued : ({ s with pending := s.pending ++ [b] } : ServerImpl).Running := h
    rw [callKeys_maybeStartRound hqueued]
    refine .of_eq ?_
    simp [callKeys, parked]

theorem Core.callKeys_perm (h : Core s e t) (hno : e.entries = []) : t.callKeys.Perm s.callKeys := by
  cases h with
  | refuse b hentry =>
    simp only [Event.entries, hentry, Option.toList_some] at hno
    cases hno
  | transfer | tpcPrepare => cases hno
  | reject a b _ _ _ hempty =>
    refine callKeys_answer rfl rfl rfl ?_
    have hperm := admitAll_perm s.ledger s.promisedNum s.current
    rwa [show (admitAll s.ledger s.promisedNum s.current).kept = [] from hempty] at hperm
  | propose => exact callKeys_answer rfl rfl rfl (admitAll_perm s.ledger s.promisedNum s.current)
  | abortPrepare | abortAccept | commitRound => exact callKeys_answer rfl rfl rfl (.of_eq (List.append_nil _))
  | _ => exact .refl _

/-- **A handled event adds exactly the call it brings.** -/
theorem callKeys_handle (hs : s.Running) (e : Event) :
    (s.handle e).callKeys.Perm (s.callKeys ++ e.entries.map BatchEntry.key) := by
  have hclear : ({ s with outbox := [] } : ServerImpl).Running := hs
  by_cases hno : e.entries = []
  · rw [hno, List.map_nil, List.append_nil]
    generalize hu : s.handle e = u
    cases moves_of_handle hu with
    | done hcore => exact hcore.callKeys_perm hno
    | @start t hcore hnot _ _ =>
      have hcur : t.current = [] := (hcore.takes hclear).running hnot
      have hsame : t.takePending.reissuePrepareForCurrent.callKeys = t.callKeys := by
        show t.replies.map TransferRes.key ++ (t.pending ++ []).map BatchEntry.key = _
        rw [callKeys, parked, hcur, List.append_nil, List.nil_append]
      rw [hsame]
      exact hcore.callKeys_perm hno
    | @retry t hpre =>
      have hsame : t.reissuePrepareForCurrent.callKeys = s.callKeys := by
        rw [callKeys, parked, hpre.frame.replies, hpre.frame.current, hpre.frame.pending]
        rfl
      rw [hsame]
  · cases e with
    | input x =>
      cases x with
      | transfer call request =>
        exact callKeys_enqueueClientTxn hclear { request := request, call := call, isCrossShard := false }
      | tpcPrepare call request =>
        exact callKeys_enqueueClientTxn hclear { request := request, call := call, isCrossShard := true }
      | _ => exact absurd rfl hno
    | _ => exact absurd rfl hno

/-! ## A round is in progress exactly if there is a batch -/

/-- `is_paxos_running` says whether there is a batch in flight. -/
def Busy (s : ServerImpl) : Prop := s.isPaxosRunning = true ↔ s.current ≠ []

theorem Busy.running (h : s.Busy) : s.Running := by
  intro hnot
  by_contra hcur
  have hrun := h.mpr hcur
  rw [hnot] at hrun
  cases hrun

theorem Core.busy (h : Core s e t) (hs : s.Busy) : t.Busy := by
  have hidle : t.isPaxosRunning = false → t.current = [] → t.Busy := by
    intro hrun hcur
    rw [Busy, hrun, hcur]
    simp
  cases h with
  | reject | abortPrepare | commitRound | abortAccept => exact hidle rfl rfl
  | propose a b _ _ _ hkept =>
    have hcur : s.current ≠ [] := by
      obtain ⟨b', hb'⟩ := List.exists_mem_of_ne_nil _ hkept
      exact List.ne_nil_of_mem (mem_of_mem_kept b' hb')
    exact ⟨fun _ => hkept, fun _ => hs.mpr hcur⟩
  | _ => exact hs

theorem handle_busy (hs : s.Busy) (e : Event) : (s.handle e).Busy := by
  have hclear : ({ s with outbox := [] } : ServerImpl).Busy := hs
  generalize hu : s.handle e = u
  cases moves_of_handle hu with
  | done hcore => exact hcore.busy hclear
  | start hcore _ _ hpending => exact ⟨fun _ => hpending, fun _ => rfl⟩
  | retry hpre =>
    unfold Busy
    rw [hpre.frame.isPaxosRunning, hpre.frame.current]
    exact hclear

/-! ## A queue waits for a round or for a sync -/

def Served (s : ServerImpl) : Prop := s.pending ≠ [] → s.isPaxosRunning = true ∨ s.inSync = true

theorem served_maybeStartRound (s : ServerImpl) : s.maybeStartRound.Served := by
  unfold maybeStartRound
  split
  · rename_i hguard
    intro hpending
    simp only [Bool.or_eq_true, List.isEmpty_iff] at hguard
    exact hguard.resolve_right hpending
  · exact fun hpending => absurd rfl hpending

theorem Served.enqueueClientTxn (h : s.Served) (call : Nat) (request : TransferReq) (isCross : Bool) :
    (s.enqueueClientTxn call request isCross).Served := by
  unfold ServerImpl.enqueueClientTxn
  split
  · exact h
  · exact served_maybeStartRound _

theorem Served.decidePrepare (h : s.Served) : s.decidePrepare.Served := by
  unfold ServerImpl.decidePrepare onPrepareQuorum
  split
  · split
    · exact served_maybeStartRound _
    · exact h
  · split
    · exact served_maybeStartRound _
    · exact h

theorem Served.handlePrepareReply (h : s.Served) (status : Status) (request : PrepareReq) (response : PrepareRes) :
    (s.handlePrepareReply status request response).Served := by
  have hcounted : ∀ a b, (s.setPrepareCounts a b).Served := fun _ _ => h
  have hreply : (s.countPrepare response).Served := by
    unfold countPrepare
    generalize hc : (if response.ack then { s with prepareSuccesses := s.prepareSuccesses + 1 }
      else { s with prepareFailures := s.prepareFailures + 1 } : ServerImpl) = counted
    have hcount : counted.Served := by
      subst hc
      split
      · exact h
      · exact h
    dsimp only
    split
    · exact hcount
    · split
      · split
        · exact fun _ => .inr rfl
        · exact hcount.decidePrepare
      · exact hcount.decidePrepare
  unfold ServerImpl.handlePrepareReply
  split
  · exact h
  · split
    · exact Served.decidePrepare (hcounted s.prepareSuccesses (s.prepareFailures + 1))
    · split
      · exact hreply
      · exact h.decidePrepare

theorem Served.decideAccept (h : s.Served) : s.decideAccept.Served := by
  unfold ServerImpl.decideAccept
  split
  · exact served_maybeStartRound _
  · split
    · exact served_maybeStartRound _
    · exact h

theorem Served.handleAcceptReply (h : s.Served) (status : Status) (request : AcceptReq) (response : AcceptRes) :
    (s.handleAcceptReply status request response).Served := by
  have hcounted : ∀ a b, (s.setAcceptCounts a b).Served := fun _ _ => h
  unfold ServerImpl.handleAcceptReply
  split
  · exact h
  · split
    · exact Served.decideAccept (hcounted s.acceptSuccesses (s.acceptFailures + 1))
    · split
      · split
        · exact Served.decideAccept (hcounted (s.acceptSuccesses + 1) s.acceptFailures)
        · exact Served.decideAccept (hcounted s.acceptSuccesses (s.acceptFailures + 1))
      · exact h.decideAccept

/-- After a sync a paused round goes on, and a queue without one starts. -/
theorem served_resumeAfterSync (hbusy : s.Busy) : s.resumeAfterSync.Served := by
  unfold resumeAfterSync
  split
  · rename_i hcur
    exact fun _ => .inl (hbusy.mpr (by simpa using hcur))
  · exact served_maybeStartRound _

theorem handle_served (h : s.Served) (hbusy : s.Busy) (e : Event) : (s.handle e).Served := by
  have hclear : ({ s with outbox := [] } : ServerImpl).Served := h
  cases e with
  | input x =>
    cases x with
    | transfer call request => exact hclear.enqueueClientTxn call request false
    | tpcPrepare call request => exact hclear.enqueueClientTxn call request true
    | tpcDecision tid isCommit =>
      show (ServerImpl.processTpcDecision _ tid isCommit).Served
      unfold processTpcDecision
      split
      · exact hclear
      · exact hclear
    | _ => exact hclear
  | prepareCall request =>
    show (ServerImpl.processPrepareCall _ request).1.Served
    rw [processPrepareCall_fst]
    split
    · exact hclear
    · unfold promise
      split_ifs
      · exact hclear
      · exact fun _ => .inr rfl
      · exact hclear
      · exact hclear
  | acceptCall request =>
    show (ServerImpl.processAcceptCall _ request).1.Served
    unfold processAcceptCall
    split_ifs <;> exact hclear
  | commitCall request =>
    show (ServerImpl.processCommitCall _ request).Served
    unfold processCommitCall
    split_ifs <;> exact hclear
  | syncCall request => exact hclear
  | prepareReply status request response => exact hclear.handlePrepareReply status request response
  | acceptReply status request response => exact hclear.handleAcceptReply status request response
  | syncReply status response =>
    show (ServerImpl.resumeAfterSync _).Served
    refine served_resumeAfterSync ?_
    split <;> exact hbusy

/-! ## `in_sync` stands for an outstanding `Sync` -/

theorem inSync_maybeStartRound (s : ServerImpl) : s.maybeStartRound.inSync = s.inSync := by
  unfold maybeStartRound
  split <;> rfl

/-- The reply of a sync lowers the flag. -/
theorem inSync_resumeAfterSync (s : ServerImpl) : s.resumeAfterSync.inSync = false := by
  unfold resumeAfterSync
  split
  · rfl
  · exact inSync_maybeStartRound _

/-- Nothing raises the flag but the sending of a `Sync`. -/
theorem Core.inSync (h : Core s e t) (ht : t.inSync = true) :
    s.inSync = true ∨ ∃ c ∈ t.outbox, c.req.isSync = true := by
  cases h with
  | behind request =>
    exact .inr ⟨{ dst := request.ballot.serverId, req := .sync s.syncReq },
      List.mem_append_right _ List.mem_cons_self, rfl⟩
  | @staleLog request response a b index =>
    exact .inr ⟨{ dst := response.serverId.getD 0, req := .sync s.syncReq },
      List.mem_append_right _ List.mem_cons_self, rfl⟩
  | synced | notSynced => cases ht
  | _ => exact .inl ht

theorem handle_inSync (h : (s.handle e).inSync = true) :
    s.inSync = true ∨ ∃ c ∈ (s.handle e).outbox, c.req.isSync = true := by
  generalize hu : s.handle e = u at h
  cases moves_of_handle hu with
  | done hcore => exact hcore.inSync h
  | @start t hcore =>
    rcases hcore.inSync h with hold | ⟨c, hc, hsync⟩
    · exact .inl hold
    · exact .inr ⟨c, List.mem_append_left _ hc, hsync⟩
  | retry hpre =>
    cases hpre with
    | staleBallot => exact .inl h
    | synced | notSynced => cases h

end ServerImpl

namespace Session

variable {s s' : Session} {ev : SessionEvent}

/-! ## Every session -/

/-- The raised flag stands for an RPC. -/
def Synced (s : Session) : Prop := s.server.inSync = true → ∃ c ∈ s.outstanding, c.req.isSync = true

/-- What is outstanding and not a `Sync` may be forgotten. -/
theorem Synced.forget (h : s.Synced) {k : Nat} {c : OutCall} (hk : s.outstanding[k]? = some c)
    (hc : c.req.isSync = false) : (s.forget k).Synced := by
  intro hflag
  obtain ⟨c', hmem, hsync⟩ := h hflag
  refine ⟨c', ?_, hsync⟩
  obtain ⟨j, hj⟩ := List.mem_iff_getElem?.mp hmem
  have hne : j ≠ k := by
    rintro rfl
    rw [hk, Option.some.injEq] at hj
    rw [← hj, hc] at hsync
    cases hsync
  exact List.mem_eraseIdx_iff_getElem?.mpr ⟨j, hne, hj⟩

theorem Synced.handle (h : s.Synced) (e : Event) : (s.handle e).Synced := by
  intro hflag
  rcases ServerImpl.handle_inSync hflag with hold | ⟨c, hc, hsync⟩
  · obtain ⟨c, hc, hsync⟩ := h hold
    exact ⟨c, List.mem_append_left _ hc, hsync⟩
  · exact ⟨c, List.mem_append_right _ hc, hsync⟩

theorem Synced.step (h : s.Synced) (ev : SessionEvent) : (s.step ev).Synced := by
  have hmoves := s.step_moves ev
  generalize s.step ev = s' at hmoves
  cases hmoves with
  | idle => exact h
  | call e => exact h.handle e
  | announced k c hk hc => exact h.forget hk hc
  | reply k c e hk he =>
    by_cases hsync : c.req.isSync = true
    · -- the flag goes down with the first completion, whichever `Sync` that is of
      obtain ⟨status', response', rfl⟩ : ∃ status' response', e = .syncReply status' response' := by
        generalize c.req = req at he hsync
        unfold replyEvent at he
        split at he
        · cases hsync
        · cases hsync
        · exact ⟨_, _, (Option.some.inj he).symm⟩
        · cases he
      intro hflag
      have hdown : (s.server.handle (.syncReply status' response')).inSync = false :=
        ServerImpl.inSync_resumeAfterSync _
      rw [show (s.server.handle (.syncReply status' response')).inSync = true from hflag] at hdown
      cases hdown
    · exact (h.forget hk (by simpa using hsync)).handle e

/-- What holds of a server at every event boundary. -/
structure Orderly (calls : List (Nat × Int)) (s : Session) : Prop where
  phase : s.server.Phase
  busy : s.server.Busy
  served : s.server.Served
  synced : s.Synced
  keys : s.server.callKeys.Perm calls

theorem Orderly.fresh (c : Constants) (serverId : Int) : (Session.fresh c serverId).Orderly [] where
  phase := .fresh c serverId
  busy := by simp [Session.fresh, ServerImpl.fresh, ServerImpl.Busy]
  served := fun hpending => absurd rfl hpending
  synced := fun hflag => by cases hflag
  keys := .refl _

theorem Orderly.step {calls : List (Nat × Int)} (h : s.Orderly calls) (ev : SessionEvent) :
    (s.step ev).Orderly (calls ++ ev.entries.map BatchEntry.key) := by
  have hsynced := h.synced.step ev
  have hmoves := s.step_moves ev
  generalize s.step ev = s' at hmoves hsynced
  -- an event of the server, with the calls it brings
  have hhandled : ∀ e : Event, (s.server.handle e).Phase ∧ (s.server.handle e).Busy ∧ (s.server.handle e).Served ∧
      (s.server.handle e).callKeys.Perm (calls ++ e.entries.map BatchEntry.key) := fun e =>
    ⟨ServerImpl.handle_phase h.phase e, ServerImpl.handle_busy h.busy e, ServerImpl.handle_served h.served h.busy e,
      (ServerImpl.callKeys_handle h.busy.running e).trans (h.keys.append_right _)⟩
  cases hmoves with
  | idle hno =>
    rw [hno, List.map_nil, List.append_nil]
    exact h
  | call e =>
    obtain ⟨hphase, hbusy, hserved, hkeys⟩ := hhandled e
    exact ⟨hphase, hbusy, hserved, hsynced, hkeys⟩
  | announced k c =>
    exact ⟨h.phase, h.busy, h.served, hsynced, h.keys.trans (.of_eq (List.append_nil _).symm)⟩
  | reply k c e hk he =>
    obtain ⟨hphase, hbusy, hserved, hkeys⟩ := hhandled e
    have hno : e.entries = [] := by
      unfold replyEvent at he
      split at he <;> cases he <;> rfl
    rw [hno] at hkeys
    exact ⟨hphase, hbusy, hserved, hsynced, hkeys⟩

theorem orderly_run (c : Constants) (serverId : Int) (es : List SessionEvent) :
    (run c serverId es).Orderly ((enqueued es).map BatchEntry.key) := by
  induction es using List.reverseRecOn with
  | nil => exact .fresh c serverId
  | append_singleton es ev ih =>
    have hrun : run c serverId (es ++ [ev]) = (run c serverId es).step ev := by
      simp [run]
    have hcalls : (enqueued (es ++ [ev])).map BatchEntry.key =
        (enqueued es).map BatchEntry.key ++ ev.entries.map BatchEntry.key := by
      simp [enqueued]
    rw [hrun, hcalls]
    exact ih.step ev

/-- The calls `es` has enqueued are, each once, those answered, those of the batch in flight and those queued; a
round is in progress exactly if there is a batch; the server does not await both decisions; and a queue
without a round waits for a sync that is outstanding. -/
structure AnswersOnce (es : List SessionEvent) (s : Session) : Prop where
  calls : (s.server.replies.map TransferRes.key ++ s.server.current.map BatchEntry.key ++
    s.server.pending.map BatchEntry.key).Perm ((enqueued es).map BatchEntry.key)
  once : ((enqueued es).map BatchEntry.call).Nodup →
    (s.server.replies.map TransferRes.call ++ s.server.current.map BatchEntry.call ++
      s.server.pending.map BatchEntry.call).Nodup
  running : s.server.isPaxosRunning = true ↔ s.server.current ≠ []
  awaits : ¬ (s.server.awaitPrepareDecision = true ∧ s.server.awaitAcceptDecision = true)
  waiting : s.server.pending ≠ [] → s.server.isPaxosRunning = false →
    s.server.inSync = true ∧ ∃ call ∈ s.outstanding, call.req.isSync = true

end Session

/-- **Every client call is answered exactly once**, in every session and at every event boundary. -/
theorem calls_answered_once (c : Constants) (serverId : Int) (es : List SessionEvent) :
    (Session.run c serverId es).AnswersOnce es := by
  have h := Session.orderly_run c serverId es
  have hkeys := h.keys
  rw [ServerImpl.callKeys, ServerImpl.parked, List.map_append, ← List.append_assoc] at hkeys
  refine ⟨hkeys, ?_, h.busy, ?_, ?_⟩
  · intro hdistinct
    have hcalls := hkeys.map Prod.fst
    simp only [List.map_append, List.map_map] at hcalls
    exact hcalls.nodup_iff.mpr hdistinct
  · rintro ⟨hprepare, haccept⟩
    rw [(h.phase.prepare hprepare).2.2.2.2] at haccept
    cases haccept
  · intro hpending hidle
    rcases h.served hpending with hrun | hflag
    · rw [hidle] at hrun
      cases hrun
    · exact ⟨hflag, h.synced hflag⟩

/-! ## The servers of a network are sessions -/

/-- The RPCs of server `i` that are not over. -/
def openCalls (i : Int) (rpcs : List Rpc) : List OutCall :=
  (rpcs.filter fun r => r.src == i && !r.done).map fun r => { dst := r.dst, req := r.req }

theorem openCalls_append (i : Int) (rpcs rpcs' : List Rpc) :
    openCalls i (rpcs ++ rpcs') = openCalls i rpcs ++ openCalls i rpcs' := by
  rw [openCalls, List.filter_append, List.map_append, openCalls, openCalls]

theorem openCalls_sentBy_self (i : Int) (outbox : List OutCall) :
    openCalls i (Net.sentBy i outbox) = outbox := by
  simp [openCalls, Net.sentBy, List.filter_map, Function.comp_def]

theorem openCalls_sentBy_ne {i j : Int} (h : i ≠ j) (outbox : List OutCall) :
    openCalls i (Net.sentBy j outbox) = [] := by
  simp [openCalls, Net.sentBy, Ne.symm h]

theorem mem_openCalls {i : Int} {rpcs : List Rpc} {c : OutCall} (h : c ∈ openCalls i rpcs) :
    ∃ r ∈ rpcs, r.src = i ∧ r.done = false ∧ r.req = c.req := by
  obtain ⟨r, hr, rfl⟩ := List.mem_map.mp h
  rw [List.mem_filter, Bool.and_eq_true, beq_iff_eq, Bool.not_eq_true'] at hr
  exact ⟨r, hr.1, hr.2.1, hr.2.2, rfl⟩

/-- Once the reply of an RPC of the deployment fits its request, only a `Commit` completes silently. -/
theorem replyEvent_of_answers {dst : Int} {req : RpcReq} {res : RpcRes} (h : Answers dst req res)
    (status : Status) : (∃ m, req = .commit m) ∨ ∃ e, replyEvent req status res = some e := by
  cases h with
  | commit => exact .inl ⟨_, rfl⟩
  | prepare | accept | sync => exact .inr ⟨_, rfl⟩

theorem replyEvent_emptyReply (req : RpcReq) (status : Status) :
    (∃ m, req = .commit m) ∨ ∃ e, replyEvent req status (emptyReply req) = some e := by
  cases req with
  | commit m => exact .inl ⟨m, rfl⟩
  | prepare | accept | sync => exact .inr ⟨_, rfl⟩

namespace Net

/-- Server `i` of a network, seen alone. -/
def session (n : Net) (i : Int) : Session := { server := n.servers i, outstanding := openCalls i n.rpcs }

/-- The event is the completion of the open RPC `r`, handled with this status and reply. -/
structure Completes (n : Net) (ev : NetEvent) (r : Rpc) (status : Status) (res : RpcRes) : Prop where
  mem : r ∈ n.rpcs
  actor : n.actor ev = (replyEvent r.req status res).map fun e => (r.src, e)
  reply : status = .ok → r.res = some res
  heard : (∃ m, r.req = .commit m) ∨ ∃ e, replyEvent r.req status res = some e

variable {n : Net} {ev : NetEvent}

/-- The bookkeeping of an event leaves the open RPCs of a server as they are, or closes the one of them it
completes. -/
theorem openCalls_mark (hwf : n.WellFormed) (ev : NetEvent) (i : Int) :
    (openCalls i (n.mark ev) = openCalls i n.rpcs ∧ ∀ e, n.actor ev = some (i, e) → e.isReply = false) ∨
      ∃ k r status res, n.Completes ev r status res ∧ r.src = i ∧
        (openCalls i n.rpcs)[k]? = some { dst := r.dst, req := r.req } ∧
        openCalls i (n.mark ev) = (openCalls i n.rpcs).eraseIdx k := by
  -- an open RPC of the server that an update closes
  have hclose : ∀ {k r} (f : Rpc → Rpc), n.rpcs[k]? = some r → r.src = i → r.done = false →
      f r = { r with done := true } → ∃ j, (openCalls i n.rpcs)[j]? = some { dst := r.dst, req := r.req } ∧
        openCalls i (n.rpcs.modify k f) = (openCalls i n.rpcs).eraseIdx j := by
    intro k r f hr hsrc hdone hf
    obtain ⟨j, hj, herase⟩ := exists_eraseIdx_filter_modify (p := fun r : Rpc => r.src == i && !r.done) (f := f) hr
      (by simp [hsrc, hdone]) (by simp [hf])
    refine ⟨j, ?_, ?_⟩
    · rw [openCalls, List.getElem?_map, hj]
      rfl
    · rw [openCalls, herase, openCalls, List.eraseIdx_map]
  cases ev with
  | input j x =>
    refine .inl ⟨rfl, ?_⟩
    intro e hactor
    cases acts hactor
    rfl
  | deliver k =>
    refine .inl ⟨map_filter_modify ?_, ?_⟩
    · intro r _
      split <;> exact ⟨rfl, rfl⟩
    · intro e hactor
      cases acts hactor with
      | deliver _ r _ _ => cases r.req <;> rfl
  | complete k =>
    by_cases hopen : ∃ r res, n.rpcs[k]? = some r ∧ r.res = some res ∧ r.src = i ∧ r.done = false
    · obtain ⟨r, res, hr, hres, hsrc, hdone⟩ := hopen
      have hmem : r ∈ n.rpcs := List.mem_of_getElem? hr
      obtain ⟨j, hj, herase⟩ := hclose (fun r => if r.res.isSome then { r with done := true } else r) hr hsrc
        hdone (by simp [hres])
      refine .inr ⟨j, r, .ok, res, ⟨hmem, ?_, fun _ => hres, ?_⟩, hsrc, hj, herase⟩
      · simp [actor, hr, hres, hdone]
      · exact replyEvent_of_answers ((hwf.rpcs r hmem).reply res hres) .ok
    · refine .inl ⟨map_filter_modify ?_, ?_⟩
      · intro r hr
        split
        · rename_i hres
          obtain ⟨res, hres⟩ := Option.isSome_iff_exists.mp hres
          refine ⟨?_, rfl⟩
          by_contra hne
          refine hopen ⟨r, res, hr, hres, ?_⟩
          revert hne
          cases r.done <;> by_cases hsrc : r.src = i <;> simp [hsrc]
        · exact ⟨rfl, rfl⟩
      · intro e hactor
        cases acts hactor with
        | complete _ r res _ hr hres hdone _ => exact absurd ⟨r, res, hr, hres, rfl, hdone⟩ hopen
  | fail k status =>
    by_cases hopen : status ≠ .ok ∧ ∃ r, n.rpcs[k]? = some r ∧ r.src = i ∧ r.done = false
    · obtain ⟨hstatus, r, hr, hsrc, hdone⟩ := hopen
      obtain ⟨j, hj, herase⟩ := hclose (fun r => if status = .ok then r else { r with done := true }) hr hsrc
        hdone (by simp [hstatus])
      refine .inr ⟨j, r, status, emptyReply r.req, ⟨List.mem_of_getElem? hr, ?_, fun hok => absurd hok hstatus, ?_⟩,
        hsrc, hj, herase⟩
      · simp [actor, hr, hdone, hstatus]
      · exact replyEvent_emptyReply r.req status
    · refine .inl ⟨map_filter_modify ?_, ?_⟩
      · intro r hr
        split
        · exact ⟨rfl, rfl⟩
        · rename_i hstatus
          refine ⟨?_, rfl⟩
          by_contra hne
          refine hopen ⟨hstatus, r, hr, ?_⟩
          revert hne
          cases r.done <;> by_cases hsrc : r.src = i <;> simp [hsrc]
      · intro e hactor
        cases acts hactor with
        | fail _ r _ _ hr hdone hstatus _ => exact absurd ⟨hstatus, r, hr, rfl, hdone⟩ hopen

/-- What a step of the network is to one of its servers. -/
inductive SessionStep (n : Net) (ev : NetEvent) (i : Int) : Session → Prop
  | other : SessionStep n ev i (n.session i)
  | call (e : Event) : n.actor ev = some (i, e) → e.isReply = false →
      SessionStep n ev i ((n.session i).handle e)
  | announced (k : Nat) (c : OutCall) (m : CommitReq) : (n.session i).outstanding[k]? = some c →
      c.req = .commit m → SessionStep n ev i ((n.session i).forget k)
  | reply (k : Nat) (c : OutCall) (status : Status) (res : RpcRes) (e : Event) :
      (n.session i).outstanding[k]? = some c → replyEvent c.req status res = some e →
      n.actor ev = some (i, e) → (status = .ok → Answers c.dst c.req res) →
      SessionStep n ev i (((n.session i).forget k).handle e)

theorem session_step (hwf : n.WellFormed) (ev : NetEvent) (i : Int) :
    SessionStep n ev i ((n.step ev).session i) := by
  have hmark := openCalls_mark hwf ev i
  cases hactor : n.actor ev with
  | none =>
    have hsession : (n.step ev).session i = { server := n.servers i, outstanding := openCalls i (n.mark ev) } := by
      simp [session, step, hactor]
    rw [hsession]
    rcases hmark with ⟨hsame, -⟩ | ⟨k, r, status, res, hcomp, rfl, hk, herase⟩
    · rw [hsame]
      exact .other
    · rw [herase]
      have hsilent := hcomp.actor
      rcases hcomp.heard with ⟨m, hm⟩ | ⟨e, he⟩
      · exact .announced k _ m hk hm
      · rw [hactor, he] at hsilent
        cases hsilent
  | some p =>
    obtain ⟨j, e⟩ := p
    rw [step_eq_after hactor]
    by_cases hj : i = j
    · subst hj
      have hsession : (n.after ev i ((n.servers i).handle e)).session i = { server := (n.servers i).handle e
                                                                            outstanding := openCalls i (n.mark ev) ++
                                                                              ((n.servers i).handle e).outbox } := by
        simp [session, after, openCalls_append, openCalls_sentBy_self]
      rw [hsession]
      rcases hmark with ⟨hsame, hcall⟩ | ⟨k, r, status, res, hcomp, hsrc, hk, herase⟩
      · rw [hsame]
        exact .call e hactor (hcall e hactor)
      · rw [herase]
        have heard := hcomp.actor
        rw [hactor, eq_comm, Option.map_eq_some_iff] at heard
        obtain ⟨e', he', heq⟩ := heard
        obtain rfl : e' = e := congrArg Prod.snd heq
        exact .reply k _ status res e' hk he' hactor fun hok =>
          (hwf.rpcs r hcomp.mem).reply res (hcomp.reply hok)
    · have hsession : (n.after ev j ((n.servers j).handle e)).session i =
          { server := n.servers i, outstanding := openCalls i (n.mark ev) } := by
        simp [session, after, openCalls_append, openCalls_sentBy_ne hj, Function.update_of_ne hj]
      rw [hsession]
      rcases hmark with ⟨hsame, -⟩ | ⟨k, r, status, res, hcomp, hsrc, hk, herase⟩
      · rw [hsame]
        exact .other
      · have heard := hcomp.actor
        rw [hactor, eq_comm, Option.map_eq_some_iff] at heard
        obtain ⟨e', -, heq⟩ := heard
        exact absurd (hsrc.symm.trans (congrArg Prod.fst heq)) hj

/-- **A server of a network goes through a session**: whatever the rest does is one environment of those above. -/
theorem session_reach {c : Constants} {ok : Net → NetEvent → Prop} (hr : Reach Net.step ok (Net.fresh c) n) (i : Int) :
    ∃ es, n.session i = Session.run c i es := by
  refine hr.invariant (motive := fun n => ∃ es, n.session i = Session.run c i es) ⟨[], rfl⟩ ?_
  rintro n ev hr ⟨es, hes⟩ _
  have hstep := session_step (.reach hr) ev i
  generalize (n.step ev).session i = s' at hstep
  -- one more event of the session
  have hmore : ∀ sev, s' = (n.session i).step sev → ∃ es, s' = Session.run c i es := by
    intro sev hsev
    exact ⟨es ++ [sev], by rw [hsev, hes, Session.run, Session.run, List.foldl_append]; rfl⟩
  cases hstep with
  | other => exact ⟨es, hes⟩
  | call e _ hcall => exact hmore (.call e) (by simp [Session.step, hcall])
  | announced k c m hk hm =>
    refine hmore (.completion k .ok .commit) ?_
    obtain ⟨dst, req⟩ := c
    obtain rfl : req = .commit m := hm
    simp [Session.step, hk]
  | reply k c status res e hk he =>
    refine hmore (.completion k status res) ?_
    obtain ⟨dst, req⟩ := c
    cases req with
    | commit m => cases he
    | prepare | accept | sync => simp only [Session.step, hk, he]

end Net

end MultiPaxosDB
