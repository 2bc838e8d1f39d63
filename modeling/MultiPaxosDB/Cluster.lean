/-
# MultiPaxosDB.Cluster — the servers and the RPCs between them.

`Net` is a deployment: every server, and the append-only list of the peer RPCs ever sent.  An RPC is
a unary gRPC call.  Its request may be handled by the callee at most once, at any later time and in
any order (`deliver`); its reply completes the call at the caller at most once (`complete`); and the
call may instead end with an error status at any moment (`fail`) — a missed deadline or a dead peer —
after which the callee may still handle the request.  A lost message is one that is never delivered.
The servers of different clusters share no stub, so one `Net` holds any number of clusters.

Three lemmas describe a step once and for all, and the invariants below use nothing else:
`step_cases` (at most one server moves, by one of its `Moves`), `mem_rpcs_after` (an RPC of the new
list is an old one, perhaps answered in this step, or was sent in it) and `justified` (the event was an
input or stands for an RPC of the list).
-/
import MultiPaxosDB.Lib.Transition
import MultiPaxosDB.Moves

namespace MultiPaxosDB

open Lib

/-- The reply of a peer RPC. -/
inductive RpcRes
  | prepare (response : PrepareRes)
  | accept (response : AcceptRes)
  | commit
  | sync (response : SyncRes)
deriving DecidableEq, Repr

structure Rpc where
  src : Int
  dst : Int
  req : RpcReq
  /-- The reply, once the callee has handled the request. -/
  res : Option RpcRes
  /-- The caller has handled the completion. -/
  done : Bool
deriving DecidableEq, Repr

structure Net where
  constants : Constants
  servers : Int → ServerImpl
  rpcs : List Rpc

/-- A deployment on first start. -/
def Net.fresh (c : Constants) : Net := { constants := c, servers := ServerImpl.fresh c, rpcs := [] }

/-- The event a request is at the callee. -/
def callEvent : RpcReq → Event
  | .prepare request => .prepareCall request
  | .accept request => .acceptCall request
  | .commit request => .commitCall request
  | .sync request => .syncCall request

/-- The event a completion is at the caller; the completion of a `Commit` is ignored. -/
def replyEvent : RpcReq → Status → RpcRes → Option Event
  | .prepare request, status, .prepare response => some (.prepareReply status request response)
  | .accept request, status, .accept response => some (.acceptReply status request response)
  | .sync _, status, .sync response => some (.syncReply status response)
  | _, _, _ => none

/-- The default-constructed reply a failed call leaves. -/
def emptyReply : RpcReq → RpcRes
  | .prepare _ => .prepare (ServerImpl.plainPrepareRes false .zero)
  | .accept _ => .accept { ack := false, ballot := .zero }
  | .commit _ => .commit
  | .sync _ => .sync { ack := false, logs := [], lastInsertedBallot := .zero }

/-- What a server answers to a request in its present state. -/
def ServerImpl.respond (s : ServerImpl) : RpcReq → RpcRes
  | .prepare request => .prepare (s.processPrepareCall request).2
  | .accept request => .accept (s.processAcceptCall request).2
  | .commit _ => .commit
  | .sync request => .sync (s.ledger.processSyncCall request)

inductive NetEvent
  | input (server : Int) (i : Input)
  | deliver (k : Nat)
  | complete (k : Nat)
  | fail (k : Nat) (status : Status)
deriving DecidableEq, Repr

namespace Net

/-- The server that moves in an event of the network, and the event it handles. -/
def actor (n : Net) : NetEvent → Option (Int × Event)
  | .input i x => if i ∈ serverIds n.constants then some (i, .input x) else none
  | .deliver k =>
    match n.rpcs[k]? with
    | some r => if r.res.isNone then some (r.dst, callEvent r.req) else none
    | none => none
  | .complete k =>
    match n.rpcs[k]? with
    | some r =>
      match r.res with
      | some res => if r.done then none else (replyEvent r.req .ok res).map fun e => (r.src, e)
      | none => none
    | none => none
  | .fail k status =>
    match n.rpcs[k]? with
    | some r =>
      if r.done || status = .ok then none
      else (replyEvent r.req status (emptyReply r.req)).map fun e => (r.src, e)
    | none => none

/-- The bookkeeping of an event on the RPC it is about. -/
def mark (n : Net) : NetEvent → List Rpc
  | .input _ _ => n.rpcs
  | .deliver k =>
    n.rpcs.modify k fun r =>
      if r.res.isNone then { r with res := some ((n.servers r.dst).respond r.req) } else r
  | .complete k => n.rpcs.modify k fun r => if r.res.isSome then { r with done := true } else r
  | .fail k status => n.rpcs.modify k fun r => if status = .ok then r else { r with done := true }

/-- The RPCs a server's outbox becomes. -/
def sentBy (i : Int) (outbox : List OutCall) : List Rpc :=
  outbox.map fun c => { src := i, dst := c.dst, req := c.req, res := none, done := false }

/-- One step of the network.  An event that is not enabled changes nothing. -/
def step (n : Net) (ev : NetEvent) : Net :=
  match n.actor ev with
  | none => { n with rpcs := n.mark ev }
  | some (i, e) =>
    let s := (n.servers i).handle e
    { n with servers := Function.update n.servers i s, rpcs := n.mark ev ++ sentBy i s.outbox }

/-- The deployment that started fresh and went through the events `es`. -/
def run (c : Constants) (es : List NetEvent) : Net := es.foldl step (fresh c)

theorem reach_run {ok : Net → NetEvent → Prop} (c : Constants) {es : List NetEvent}
    (h : okRun step ok (fresh c) es) : Reach step ok (fresh c) (run c es) := Reach.start.foldl h

/-- The RPCs an event sends. -/
def sent (n : Net) (ev : NetEvent) : List Rpc :=
  match n.actor ev with
  | none => []
  | some (i, e) => sentBy i ((n.servers i).handle e).outbox

/-- The network once the acting server of an event has reached the state `t`. -/
def after (n : Net) (ev : NetEvent) (i : Int) (t : ServerImpl) : Net :=
  { n with servers := Function.update n.servers i t, rpcs := n.mark ev ++ sentBy i t.outbox }

/-! ## What a step does -/

@[simp]
theorem constants_step (n : Net) (ev : NetEvent) : (n.step ev).constants = n.constants := by
  unfold step
  split <;> rfl

theorem servers_step_none {n : Net} {ev : NetEvent} (h : n.actor ev = none) :
    (n.step ev).servers = n.servers := by
  simp [step, h]

end Net

/-- `r'` is the RPC `r` later in its life: the same call, and an answer is never taken back. -/
structure Rpc.Later (r r' : Rpc) : Prop where
  src : r'.src = r.src
  dst : r'.dst = r.dst
  req : r'.req = r.req
  res : ∀ x, r.res = some x → r'.res = some x

theorem Rpc.Later.refl (r : Rpc) : r.Later r := ⟨rfl, rfl, rfl, fun _ h => h⟩

namespace Net

/-- The RPC was answered by this step, with what its callee responds in the state before it. -/
def AnsweredBy (n : Net) (ev : NetEvent) (r r' : Rpc) : Prop :=
  r.res = none ∧ n.actor ev = some (r.dst, callEvent r.req) ∧
    r'.res = some ((n.servers r.dst).respond r.req)

theorem getElem?_modify_some {α : Type} {l : List α} {k k' : Nat} {x : α} (f : α → α)
    (h : l[k]? = some x) : (l.modify k' f)[k]? = some (if k' = k then f x else x) := by
  simp [List.getElem?_modify, h]

/-- Pointwise form of `mark`: each RPC keeps its place, and is answered at most by its delivery. -/
theorem getElem?_mark {n : Net} (ev : NetEvent) {k : Nat} {r : Rpc} (h : n.rpcs[k]? = some r) :
    ∃ r', (n.mark ev)[k]? = some r' ∧ r.Later r' ∧ (r'.res = r.res ∨ n.AnsweredBy ev r r') := by
  cases ev with
  | input i x => exact ⟨r, h, .refl r, .inl rfl⟩
  | deliver k' =>
    refine ⟨_, getElem?_modify_some _ h, ?_⟩
    by_cases hk : k' = k
    · rw [if_pos hk]
      subst hk
      cases hres : r.res with
      | none =>
        refine ⟨⟨rfl, rfl, rfl, ?_⟩, .inr ⟨hres, ?_, rfl⟩⟩
        · intro x hx; rw [hres] at hx; exact absurd hx (by simp)
        · simp [actor, h, hres]
      | some res => exact ⟨.refl r, .inl hres⟩
    · rw [if_neg hk]; exact ⟨.refl r, .inl rfl⟩
  | complete k' =>
    refine ⟨_, getElem?_modify_some _ h, ?_⟩
    split_ifs
    · exact ⟨⟨rfl, rfl, rfl, fun _ hx => hx⟩, .inl rfl⟩
    · exact ⟨.refl r, .inl rfl⟩
    · exact ⟨.refl r, .inl rfl⟩
  | fail k' status =>
    refine ⟨_, getElem?_modify_some _ h, ?_⟩
    split_ifs
    · exact ⟨.refl r, .inl rfl⟩
    · exact ⟨⟨rfl, rfl, rfl, fun _ hx => hx⟩, .inl rfl⟩
    · exact ⟨.refl r, .inl rfl⟩

theorem length_mark (n : Net) (ev : NetEvent) : (n.mark ev).length = n.rpcs.length := by
  cases ev <;> simp [mark]

/-- Marking neither adds nor drops an RPC. -/
theorem mem_mark {n : Net} {ev : NetEvent} {r' : Rpc} (h : r' ∈ n.mark ev) :
    ∃ r ∈ n.rpcs, r.Later r' ∧ (r'.res = r.res ∨ n.AnsweredBy ev r r') := by
  obtain ⟨k, hk⟩ := List.mem_iff_getElem?.mp h
  have hlt : k < n.rpcs.length := by
    rw [← length_mark n ev]
    exact (List.getElem?_eq_some_iff.mp hk).1
  obtain ⟨r'', hk'', hlater, hres⟩ := getElem?_mark ev (List.getElem?_eq_getElem hlt)
  rw [hk''] at hk
  obtain rfl := Option.some.inj hk
  exact ⟨_, List.getElem_mem hlt, hlater, hres⟩

theorem step_eq_after {n : Net} {ev : NetEvent} {i : Int} {e : Event}
    (h : n.actor ev = some (i, e)) : n.step ev = n.after ev i ((n.servers i).handle e) := by
  simp [step, after, h]

theorem servers_after_self (n : Net) (ev : NetEvent) (i : Int) (t : ServerImpl) :
    (n.after ev i t).servers i = t := by
  simp [after]

theorem servers_after_ne (n : Net) (ev : NetEvent) {i j : Int} (t : ServerImpl) (h : j ≠ i) :
    (n.after ev i t).servers j = n.servers j := by
  simp [after, Function.update_of_ne h]

/-- A fact about every server after a step: the acting server by its own argument, the others as
before. -/
theorem forall_servers_after {P : Int → ServerImpl → Prop} {n : Net} (ev : NetEvent) {i : Int}
    {t : ServerImpl} (h : ∀ j, P j (n.servers j)) (hi : P i t) :
    ∀ j, P j ((n.after ev i t).servers j) := by
  intro j
  by_cases hj : j = i
  · subst hj
    rw [servers_after_self]
    exact hi
  · rw [servers_after_ne n ev t hj]
    exact h j

/-- **What is in the RPC list after a step**: an RPC of the old list, at most answered meanwhile by
its own delivery, or one that the acting server sent in this step. -/
theorem mem_rpcs_after {n : Net} {ev : NetEvent} {i : Int} {t : ServerImpl} {r' : Rpc}
    (h : r' ∈ (n.after ev i t).rpcs) :
    (∃ r ∈ n.rpcs, r.Later r' ∧ (r'.res = r.res ∨ n.AnsweredBy ev r r')) ∨
      (r'.src = i ∧ { dst := r'.dst, req := r'.req } ∈ t.outbox ∧ r'.res = none) := by
  rcases List.mem_append.mp h with h | h
  · exact .inl (mem_mark h)
  · obtain ⟨c, hc, rfl⟩ := List.mem_map.mp h
    exact .inr ⟨rfl, hc, rfl⟩

/-- No RPC is ever forgotten. -/
theorem later_after {n : Net} (ev : NetEvent) (i : Int) (t : ServerImpl) {r : Rpc} (h : r ∈ n.rpcs) :
    ∃ r' ∈ (n.after ev i t).rpcs, r.Later r' := by
  obtain ⟨k, hk⟩ := List.mem_iff_getElem?.mp h
  obtain ⟨r', hk', hlater, -⟩ := getElem?_mark ev hk
  exact ⟨r', List.mem_append_left _ (List.mem_of_getElem? hk'), hlater⟩

/-- The RPCs the acting server sends are in the list, unanswered. -/
theorem sent_after {n : Net} (ev : NetEvent) (i : Int) {t : ServerImpl} {c : OutCall}
    (hc : c ∈ t.outbox) :
    { src := i, dst := c.dst, req := c.req, res := none, done := false } ∈ (n.after ev i t).rpcs :=
  List.mem_append_right _ (List.mem_map.mpr ⟨c, hc, rfl⟩)

/-- An event nobody handles changes no more than the bookkeeping of an RPC. -/
theorem mem_rpcs_step_of_none {n : Net} {ev : NetEvent} {r' : Rpc} (h : n.actor ev = none)
    (hr' : r' ∈ (n.step ev).rpcs) : ∃ r ∈ n.rpcs, r.Later r' ∧ r'.res = r.res := by
  have hmark : r' ∈ n.mark ev := by simpa [step, h] using hr'
  obtain ⟨r, hr, hlater, hres | ⟨-, hactor, -⟩⟩ := mem_mark hmark
  · exact ⟨r, hr, hlater, hres⟩
  · rw [h] at hactor
    exact absurd hactor (by simp)

/-! ### The history of RPCs -/

/-- Server `i` has sent the request `req` to some server. -/
def HasSent (n : Net) (i : Int) (req : RpcReq) : Prop := ∃ r ∈ n.rpcs, r.src = i ∧ r.req = req

/-- The event makes server `i` send the request `req`. -/
def Sends (n : Net) (ev : NetEvent) (i : Int) (req : RpcReq) : Prop :=
  ∃ r ∈ n.sent ev, r.src = i ∧ r.req = req

instance (n : Net) (i : Int) (req : RpcReq) : Decidable (n.HasSent i req) :=
  inferInstanceAs (Decidable (∃ r ∈ n.rpcs, r.src = i ∧ r.req = req))

instance (n : Net) (ev : NetEvent) (i : Int) (req : RpcReq) : Decidable (n.Sends ev i req) :=
  inferInstanceAs (Decidable (∃ r ∈ n.sent ev, r.src = i ∧ r.req = req))

/-- What is sent leaves the outbox of the acting server. -/
theorem Sends.outbox {n : Net} {ev : NetEvent} {i : Int} {req : RpcReq} (h : n.Sends ev i req) :
    ∃ e dst, n.actor ev = some (i, e) ∧
      { dst := dst, req := req } ∈ ((n.servers i).handle e).outbox := by
  obtain ⟨r, hr, rfl, rfl⟩ := h
  unfold sent at hr
  split at hr
  · exact absurd hr (by simp)
  · rename_i i e hactor
    obtain ⟨c, hc, rfl⟩ := List.mem_map.mp hr
    exact ⟨e, c.dst, hactor, hc⟩

theorem sends_of_outbox {n : Net} {ev : NetEvent} {i dst : Int} {e : Event} {req : RpcReq}
    (hactor : n.actor ev = some (i, e))
    (hc : { dst := dst, req := req } ∈ ((n.servers i).handle e).outbox) : n.Sends ev i req := by
  refine ⟨{ src := i, dst := dst, req := req, res := none, done := false }, ?_, rfl, rfl⟩
  simp only [sent, hactor]
  exact List.mem_map.mpr ⟨_, hc, rfl⟩

/-- A request sent after a step was sent before it or in it. -/
theorem hasSent_step {n : Net} {ev : NetEvent} {i : Int} {req : RpcReq} (h : (n.step ev).HasSent i req) :
    n.HasSent i req ∨ n.Sends ev i req := by
  obtain ⟨r', hr', rfl, rfl⟩ := h
  cases hactor : n.actor ev with
  | none =>
    obtain ⟨r, hr, hlater, -⟩ := mem_rpcs_step_of_none hactor hr'
    exact .inl ⟨r, hr, hlater.src.symm, hlater.req.symm⟩
  | some p =>
    obtain ⟨i, e⟩ := p
    rw [step_eq_after hactor] at hr'
    rcases mem_rpcs_after hr' with ⟨r, hr, hlater, -⟩ | ⟨rfl, hc, -⟩
    · exact .inl ⟨r, hr, hlater.src.symm, hlater.req.symm⟩
    · exact .inr (sends_of_outbox hactor hc)

/-- Every RPC of `n` is one of `n'`, later in its life. -/
def Extends (n n' : Net) : Prop := ∀ r ∈ n.rpcs, ∃ r' ∈ n'.rpcs, r.Later r'

theorem extends_step (n : Net) (ev : NetEvent) : n.Extends (n.step ev) := by
  intro r hr
  cases hactor : n.actor ev with
  | none =>
    obtain ⟨k, hk⟩ := List.mem_iff_getElem?.mp hr
    obtain ⟨r', hk', hlater, -⟩ := getElem?_mark ev hk
    refine ⟨r', ?_, hlater⟩
    simpa [step, hactor] using List.mem_of_getElem? hk'
  | some p =>
    obtain ⟨i, e⟩ := p
    rw [step_eq_after hactor]
    exact later_after ev i _ hr

theorem HasSent.mono {n n' : Net} (hext : n.Extends n') {i : Int} {req : RpcReq}
    (h : n.HasSent i req) : n'.HasSent i req := by
  obtain ⟨r, hr, rfl, rfl⟩ := h
  obtain ⟨r', hr', hlater⟩ := hext r hr
  exact ⟨r', hr', hlater.src, hlater.req⟩

theorem HasSent.of_sends {n : Net} {ev : NetEvent} {i : Int} {req : RpcReq} (h : n.Sends ev i req) :
    (n.step ev).HasSent i req := by
  obtain ⟨e, dst, hactor, hc⟩ := h.outbox
  rw [step_eq_after hactor]
  exact ⟨_, sent_after ev i hc, rfl, rfl⟩

theorem callEvent_injective {req req' : RpcReq} (h : callEvent req = callEvent req') : req = req' := by
  cases req <;> cases req' <;> cases h <;> rfl

theorem replyEvent_ne_callEvent {req req' : RpcReq} {status : Status} {res : RpcRes} :
    replyEvent req status res ≠ some (callEvent req') := by
  intro h
  unfold replyEvent at h
  split at h <;> cases req' <;> cases h

/-- **What stands behind an event of a server**: an input, an RPC that is delivered for the first time, the reply
to an RPC that is still open, or the failure of one. -/
inductive Acts (n : Net) : NetEvent → Int → Event → Prop
  | input (i : Int) (x : Input) : i ∈ serverIds n.constants → Acts n (.input i x) i (.input x)
  | deliver (k : Nat) (r : Rpc) : n.rpcs[k]? = some r → r.res = none → Acts n (.deliver k) r.dst (callEvent r.req)
  | complete (k : Nat) (r : Rpc) (res : RpcRes) (e : Event) : n.rpcs[k]? = some r → r.res = some res →
      r.done = false → replyEvent r.req .ok res = some e → Acts n (.complete k) r.src e
  | fail (k : Nat) (r : Rpc) (status : Status) (e : Event) : n.rpcs[k]? = some r → r.done = false → status ≠ .ok →
      replyEvent r.req status (emptyReply r.req) = some e → Acts n (.fail k status) r.src e

theorem acts {n : Net} {ev : NetEvent} {i : Int} {e : Event} (h : n.actor ev = some (i, e)) : n.Acts ev i e := by
  cases ev with
  | input j x =>
    simp only [actor] at h
    split at h
    · rename_i hj
      cases h
      exact .input i x hj
    · cases h
  | deliver k =>
    simp only [actor] at h
    split at h
    · rename_i r hr
      split at h
      · rename_i hres
        cases h
        exact .deliver k r hr (Option.isNone_iff_eq_none.mp hres)
      · cases h
    · cases h
  | complete k =>
    simp only [actor] at h
    split at h
    · rename_i r hr
      split at h
      · rename_i res hres
        split at h
        · cases h
        · rename_i hdone
          obtain ⟨e', he', heq⟩ := Option.map_eq_some_iff.mp h
          cases heq
          exact .complete k r res e hr hres (Bool.eq_false_iff.mpr hdone) he'
      · cases h
    · cases h
  | fail k status =>
    simp only [actor] at h
    split at h
    · rename_i r hr
      split at h
      · cases h
      · rename_i hguard
        rw [Bool.or_eq_true, decide_eq_true_eq, not_or, Bool.not_eq_true] at hguard
        obtain ⟨e', he', heq⟩ := Option.map_eq_some_iff.mp h
        cases heq
        exact .fail k r status e hr hguard.1 hguard.2 he'
    · cases h

/-- Behind a call event stands a delivery. -/
theorem actor_call {n : Net} {ev : NetEvent} {j : Int} {req : RpcReq}
    (h : n.actor ev = some (j, callEvent req)) :
    ∃ k r, ev = .deliver k ∧ n.rpcs[k]? = some r ∧ r.res = none ∧ r.dst = j ∧ r.req = req := by
  generalize hcall : callEvent req = e at h
  cases acts h with
  | input _ x _ => cases req <;> cases hcall
  | deliver k r hr hres => exact ⟨k, r, rfl, hr, hres, rfl, (callEvent_injective hcall).symm⟩
  | complete k r res _ hr hres hdone he => exact absurd (hcall ▸ he) replyEvent_ne_callEvent
  | fail k r status _ hr hdone hstatus he => exact absurd (hcall ▸ he) replyEvent_ne_callEvent

theorem replyEvent_ne_input {req : RpcReq} {status : Status} {res : RpcRes} {x : Input} :
    replyEvent req status res ≠ some (.input x) := by
  intro h
  unfold replyEvent at h
  split at h <;> cases h

/-- Behind an input stands an input. -/
theorem actor_input {n : Net} {ev : NetEvent} {j : Int} {x : Input}
    (h : n.actor ev = some (j, .input x)) : ev = .input j x ∧ j ∈ serverIds n.constants := by
  generalize hinput : Event.input x = e at h
  cases acts h with
  | input _ y hj =>
    cases hinput
    exact ⟨rfl, hj⟩
  | deliver k r hr hres => cases hreq : r.req <;> rw [hreq] at hinput <;> cases hinput
  | complete k r res _ hr hres hdone he => exact absurd (hinput ▸ he) replyEvent_ne_input
  | fail k r status _ hr hdone hstatus he => exact absurd (hinput ▸ he) replyEvent_ne_input

/-- A handled call leaves its answer on an RPC of the list. -/
theorem answered_step {n : Net} {ev : NetEvent} {j : Int} {req : RpcReq}
    (h : n.actor ev = some (j, callEvent req)) :
    ∃ r ∈ (n.step ev).rpcs, r.dst = j ∧ r.req = req ∧ r.res = some ((n.servers j).respond req) := by
  obtain ⟨k, r, rfl, hr, hres, rfl, rfl⟩ := actor_call h
  rw [step_eq_after h]
  refine ⟨{ r with res := some ((n.servers r.dst).respond r.req) }, List.mem_append_left _ ?_, rfl, rfl, rfl⟩
  have hmark : (n.mark (.deliver k))[k]? = some _ := getElem?_modify_some _ hr
  simp only [if_true, hres, Option.isNone_none] at hmark
  exact List.mem_of_getElem? hmark

/-- **What a step is**: bookkeeping alone, or one move of one server. -/
theorem step_cases (n : Net) (ev : NetEvent) :
    (n.actor ev = none ∧ (n.step ev).servers = n.servers) ∨
      ∃ i e u, n.actor ev = some (i, e) ∧ ServerImpl.Moves { n.servers i with outbox := [] } e u ∧
        (n.servers i).handle e = u ∧ n.step ev = n.after ev i u := by
  cases h : n.actor ev with
  | none => exact .inl ⟨rfl, servers_step_none h⟩
  | some p =>
    obtain ⟨i, e⟩ := p
    exact .inr ⟨i, e, _, rfl, (n.servers i).handle_moves e, rfl, step_eq_after h⟩

/-- The event was an input, or stands for an RPC of the list: a request not handled before, a reply
that was given, or a call that failed. -/
def Justified (n : Net) (i : Int) : Event → Prop
  | .input _ => i ∈ serverIds n.constants
  | .prepareCall request => ∃ r ∈ n.rpcs, r.dst = i ∧ r.req = .prepare request ∧ r.res = none
  | .acceptCall request => ∃ r ∈ n.rpcs, r.dst = i ∧ r.req = .accept request ∧ r.res = none
  | .commitCall request => ∃ r ∈ n.rpcs, r.dst = i ∧ r.req = .commit request ∧ r.res = none
  | .syncCall request => ∃ r ∈ n.rpcs, r.dst = i ∧ r.req = .sync request ∧ r.res = none
  | .prepareReply status request response => ∃ r ∈ n.rpcs, r.src = i ∧ r.req = .prepare request ∧
      (status = .ok → r.res = some (.prepare response))
  | .acceptReply status request response => ∃ r ∈ n.rpcs, r.src = i ∧ r.req = .accept request ∧
      (status = .ok → r.res = some (.accept response))
  | .syncReply status response => ∃ r ∈ n.rpcs, r.src = i ∧ (∃ request, r.req = .sync request) ∧
      (status = .ok → r.res = some (.sync response))

/-- A completion of `r`, with the reply given or without one, is an event that `r` stands for. -/
theorem justified_reply {n : Net} {r : Rpc} {status : Status} {res : RpcRes} {e : Event}
    (hr : r ∈ n.rpcs) (hres : status = .ok → r.res = some res)
    (he : replyEvent r.req status res = some e) : Justified n r.src e := by
  unfold replyEvent at he
  split at he
  · rename_i hreq
    cases he
    exact ⟨r, hr, rfl, hreq, hres⟩
  · rename_i hreq
    cases he
    exact ⟨r, hr, rfl, hreq, hres⟩
  · rename_i hreq
    cases he
    exact ⟨r, hr, rfl, ⟨_, hreq⟩, hres⟩
  · cases he

theorem justified {n : Net} {ev : NetEvent} {i : Int} {e : Event}
    (h : n.actor ev = some (i, e)) : Justified n i e := by
  cases acts h with
  | input _ x hj => exact hj
  | deliver k r hr hres =>
    have hmem : r ∈ n.rpcs := List.mem_of_getElem? hr
    cases hreq : r.req <;> exact ⟨r, hmem, rfl, hreq, hres⟩
  | complete k r res _ hr hres hdone he => exact justified_reply (List.mem_of_getElem? hr) (fun _ => hres) he
  | fail k r status _ hr hdone hstatus he =>
    exact justified_reply (List.mem_of_getElem? hr) (fun hok => absurd hok hstatus) he

end Net

end MultiPaxosDB
