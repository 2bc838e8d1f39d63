/-
# MultiPaxosDB.EventLoop — the call objects of `in_call.cc` and the loop of `HandleRPCs`.

An incoming RPC is an object that manages its own life: the constructor posts a request operation on the completion
queue, the completion of that operation runs `Proceed`, which makes the next listener, serves the request and posts
the reply, and the completion of the reply runs `Proceed` once more, which deletes the object.  A client call is
handed to the server instead, as a raw pointer in a batch, and answered much later by `completeTransfer`.

`CallHeap` is the heap of these objects with the operations under way; an address is never used again, and touching
an object that is deleted or was never made sets `fault`.  `EventLoop` is the server with that heap and the RPCs of
its own that are under way.  (An `OutCall` is referred to by its operation only, so the two are one thing here.)

The invariant is a count.  A call that listens or is finished has one operation, which is under way, in the hands of
`Proceed`, or has come back with `ok = false`; a parked call has none, and is in a batch once (`Waits`).  So no event
finds a deleted object, and `Proceed` is not run on a parked one, as the comment at its end expects.
-/
import MultiPaxosDB.Session

namespace MultiPaxosDB

open Lib

/-! ## Calls -/

/-- `types::RequestTypes`. -/
inductive RequestTypes
  | tpcPrepare | tpcCommit | tpcAbort | transfer | prepare | accept | commit | sync | balance | logs | disconnect
deriving DecidableEq, Repr

/-- `InCall::CallStatus`. -/
inductive CallStatus
  | create | process | retry | finish | awaitBatch
deriving DecidableEq, Repr

/-- A request as it arrives, by RPC of `tpc.proto`. -/
inductive WireReq
  | tpcPrepare (request : TransferReq)
  | tpcCommit (tid : Int)
  | tpcAbort (tid : Int)
  | transfer (request : TransferReq)
  | prepare (request : PrepareReq)
  | accept (request : AcceptReq)
  | commit (request : CommitReq)
  | sync (request : SyncReq)
  | balance (client : Int)
  | logs
  | disconnect (servers : List Int)
deriving DecidableEq, Repr

def WireReq.type : WireReq → RequestTypes
  | .tpcPrepare _ => .tpcPrepare
  | .tpcCommit _ => .tpcCommit
  | .tpcAbort _ => .tpcAbort
  | .transfer _ => .transfer
  | .prepare _ => .prepare
  | .accept _ => .accept
  | .commit _ => .commit
  | .sync _ => .sync
  | .balance _ => .balance
  | .logs => .logs
  | .disconnect _ => .disconnect

/-- What a responder sends back. -/
inductive WireRes
  | empty
  | transfer (ack : Bool) (tid : Int)
  | balance (amount : Int)
  | logs (entries : List LogEntry)
  | prepare (response : PrepareRes)
  | accept (response : AcceptRes)
  | sync (response : SyncRes)
deriving DecidableEq, Repr

/-- An operation on the request queue whose tag is a call. -/
inductive CallOp
  | request | finish
deriving DecidableEq, Repr

structure InCall where
  type : RequestTypes
  status : CallStatus
  /-- History: what the responders were made to send. -/
  answers : List WireRes
  deleted : Bool
deriving DecidableEq, Repr

structure CallHeap where
  /-- Every call ever made, by address. -/
  calls : List InCall
  /-- The operations under way on `request_cq`, by tag. -/
  queue : List (Nat × CallOp)
  /-- History: the tags that came back with `ok = false`, which `HandleRPCs` drops. -/
  lost : List Nat
  /-- A call was touched that is deleted or was never made. -/
  fault : Bool

namespace CallHeap

/-- Follow a pointer. -/
def access (h : CallHeap) (a : Nat) (k : InCall → CallHeap) : CallHeap :=
  match h.calls[a]? with
  | some x => if x.deleted then { h with fault := true } else k x
  | none => { h with fault := true }

/-- The operation `k` is over. -/
def take (h : CallHeap) (k : Nat) : CallHeap := { h with queue := h.queue.eraseIdx k }

def post (h : CallHeap) (a : Nat) (op : CallOp) : CallHeap := { h with queue := h.queue ++ [(a, op)] }

def setStatus (h : CallHeap) (a : Nat) (status : CallStatus) : CallHeap :=
  h.access a fun _ => { h with calls := h.calls.modify a fun x => { x with status := status } }

/-- The `CREATE` branch of `InCall::Proceed`. -/
def listen (h : CallHeap) (a : Nat) : CallHeap := (h.setStatus a .process).post a .request

/-- `new InCall(…)`: the constructor calls `Proceed`. -/
def newInCall (h : CallHeap) (type : RequestTypes) : CallHeap :=
  listen { h with calls := h.calls ++ [{ type := type, status := .create, answers := [], deleted := false }] }
    h.calls.length

/-- `responder.Finish(response, Status::OK, this); status_ = FINISH`. -/
def finish (h : CallHeap) (a : Nat) (response : WireRes) : CallHeap :=
  h.access a fun _ => post { h with
    calls := h.calls.modify a fun x => { x with answers := x.answers ++ [response], status := .finish } } a .finish

/-- `InCall::completeTransfer`. -/
def completeTransfer (h : CallHeap) (reply : TransferRes) : CallHeap :=
  h.finish reply.call (.transfer reply.ack reply.tid)

/-- `delete this`. -/
def delete (h : CallHeap) (a : Nat) : CallHeap :=
  h.access a fun _ => { h with calls := h.calls.modify a fun x => { x with deleted := true } }

end CallHeap

/-- `ServerImpl::processGetBalanceCall`. -/
def ServerImpl.processGetBalanceCall (s : ServerImpl) (client : Int) : Int := (s.ledger.balances client).toInt

/-- `ServerImpl::processGetLogsCall`. -/
def ServerImpl.processGetLogsCall (s : ServerImpl) : List LogEntry := s.ledger.log.map getLogEntryFromLocalLog

structure EventLoop where
  server : ServerImpl
  heap : CallHeap
  /-- The operations under way on `response_cq`. -/
  responses : List OutCall

inductive LoopEvent
  /-- The operation `k` of `request_cq` completes; `req` is what has arrived, if it was a request operation. -/
  | request (k : Nat) (ok : Bool) (req : WireReq)
  /-- The operation `k` of `response_cq` completes. -/
  | response (k : Nat) (ok : Bool) (status : Status) (reply : RpcRes)
  | tick (ms : Nat)
  | sweep
deriving DecidableEq, Repr

namespace EventLoop

def onHeap (p : EventLoop) (f : CallHeap → CallHeap) : EventLoop := { p with heap := f p.heap }

/-- The server handles an event.  It completes the calls it answers on the way, and starts the RPCs it sends. -/
def handle (p : EventLoop) (e : Event) : EventLoop where
  server := p.server.handle e
  heap := ((p.server.handle e).replies.drop p.server.replies.length).foldl CallHeap.completeTransfer p.heap
  responses := p.responses ++ (p.server.handle e).outbox

/-- The switch of `InCall::Proceed` that serves a request. -/
def serve (p : EventLoop) (a : Nat) : WireReq → EventLoop
  | .tpcPrepare request => (p.onHeap fun h => h.setStatus a .awaitBatch).handle (.input (.tpcPrepare a request))
  | .tpcCommit tid => (p.handle (.input (.tpcDecision tid true))).onHeap fun h => h.finish a .empty
  | .tpcAbort tid => (p.handle (.input (.tpcDecision tid false))).onHeap fun h => h.finish a .empty
  | .transfer request => (p.onHeap fun h => h.setStatus a .awaitBatch).handle (.input (.transfer a request))
  | .prepare request =>
    (p.handle (.prepareCall request)).onHeap fun h => h.finish a (.prepare (p.server.processPrepareCall request).2)
  | .accept request =>
    (p.handle (.acceptCall request)).onHeap fun h => h.finish a (.accept (p.server.processAcceptCall request).2)
  | .commit request => (p.handle (.commitCall request)).onHeap fun h => h.finish a .empty
  | .sync request =>
    (p.handle (.syncCall request)).onHeap fun h => h.finish a (.sync (p.server.ledger.processSyncCall request))
  | .balance client => p.onHeap fun h => h.finish a (.balance (p.server.processGetBalanceCall client))
  | .logs => p.onHeap fun h => h.finish a (.logs p.server.processGetLogsCall)
  | .disconnect servers => (p.handle (.input (.disconnect servers))).onHeap fun h => h.finish a .empty

/-- `InCall::Proceed`. -/
def proceed (p : EventLoop) (a : Nat) (req : WireReq) : EventLoop :=
  match p.heap.calls[a]? with
  | none => p.onHeap fun h => { h with fault := true }
  | some x =>
    if x.deleted then p.onHeap fun h => { h with fault := true }
    else
      match x.status with
      | .create => p.onHeap fun h => h.listen a
      | .process => (p.onHeap fun h => h.newInCall x.type).serve a req
      | .retry => p.serve a req
      | .finish => p.onHeap fun h => h.delete a
      | .awaitBatch => p

/-- The request that completes a request operation is one of its RPC. -/
def arrives (h : CallHeap) (a : Nat) (op : CallOp) (req : WireReq) : Bool :=
  match op with
  | .request => h.calls[a]?.map InCall.type == some req.type
  | .finish => true

/-- One event of `HandleRPCs`.  What the queues cannot bring changes nothing. -/
def step (p : EventLoop) : LoopEvent → EventLoop
  | .request k ok req =>
    match p.heap.queue[k]? with
    | none => p
    | some (a, op) =>
      if ok then
        if arrives p.heap a op req then
          (p.onHeap fun h => h.take k).proceed a req
        else p
      else p.onHeap fun h => { h.take k with lost := h.lost ++ [a] }
  | .response k ok status reply =>
    match p.responses[k]? with
    | none => p
    | some call =>
      if ok then
        match call.req, replyEvent call.req status reply with
        | .commit _, _ => { p with responses := p.responses.eraseIdx k }
        | _, some e => handle { p with responses := p.responses.eraseIdx k } e
        | _, none => p
      else { p with responses := p.responses.eraseIdx k }
  | .tick ms => p.handle (.input (.tick ms))
  | .sweep => p.handle (.input .sweep)

/-- The listeners `HandleRPCs` starts with. -/
def listeners : List RequestTypes :=
  [.tpcPrepare, .tpcCommit, .tpcAbort, .transfer, .balance, .logs, .prepare, .accept, .commit, .sync, .disconnect]

def start (server : ServerImpl) : EventLoop where
  server := server
  heap := listeners.foldl CallHeap.newInCall { calls := [], queue := [], lost := [], fault := false }
  responses := []

def run (server : ServerImpl) (es : List LoopEvent) : EventLoop := es.foldl step (start server)

end EventLoop

/-! ## What a server answers -/

namespace ServerImpl

variable {s t : ServerImpl} {e : Event}

theorem Core.replies_prefix (h : Core s e t) : s.replies <+: t.replies := by
  cases h with
  | refuse | reject | propose | abortPrepare | commitRound | abortAccept => exact List.prefix_append _ _
  | _ => exact List.prefix_rfl

theorem replies_prefix_handle (s : ServerImpl) (e : Event) : s.replies <+: (s.handle e).replies := by
  generalize hu : s.handle e = u
  cases moves_of_handle hu with
  | done hcore => exact hcore.replies_prefix
  | start hcore => exact hcore.replies_prefix
  | retry hpre =>
    rw [hpre.frame.replies]

/-- The answers of an event and the calls that wait after it are the calls that waited before, and the new one. -/
theorem handle_answers (hs : s.Running) (e : Event) : ∃ new, (s.handle e).replies = s.replies ++ new ∧
    (new.map TransferRes.call ++ (s.handle e).parked.map BatchEntry.call).Perm
      (s.parked.map BatchEntry.call ++ e.entries.map BatchEntry.call) := by
  obtain ⟨new, hnew⟩ := s.replies_prefix_handle e
  refine ⟨new, hnew.symm, ?_⟩
  have hkeys := callKeys_handle hs e
  rw [callKeys, callKeys, ← hnew, List.map_append, List.append_assoc, List.append_assoc,
    List.perm_append_left_iff] at hkeys
  have hcalls := hkeys.map Prod.fst
  simp only [List.map_append, List.map_map] at hcalls
  exact hcalls

end ServerImpl

/-! ## Every call in its place -/

namespace CallHeap

variable {h : CallHeap} {hand : Option Nat} {waiting : List Nat} {told : List (Nat × WireRes)} {a : Nat} {x : InCall}

theorem access_live (hx : h.calls[a]? = some x) (hlive : x.deleted = false) (k : InCall → CallHeap) :
    h.access a k = k x := by
  rw [access, hx]
  simp only [hlive, Bool.false_eq_true, if_false]

/-- Where the operation `op` of the call `a` may be: under way, in the hands of `Proceed`, or dropped. -/
def places (h : CallHeap) (hand : Option Nat) (a : Nat) (op : CallOp) : Nat :=
  h.queue.count (a, op) + (if hand = some a then 1 else 0) + h.lost.count a

/-- What a call looks like at its status.  `hand` is the call whose operation has just completed, `waiting` are the
calls in the batches of the server. -/
def Stage (h : CallHeap) (hand : Option Nat) (waiting : List Nat) (a : Nat) (x : InCall) : Prop :=
  match x.status with
  | .create => False
  | .process => x.deleted = false ∧ x.answers = [] ∧ h.places hand a .request = 1 ∧ h.queue.count (a, .finish) = 0
  | .retry => False
  | .finish => x.answers.length = 1 ∧ h.queue.count (a, .request) = 0 ∧
      h.places hand a .finish + (if x.deleted then 1 else 0) = 1
  | .awaitBatch => x.deleted = false ∧ x.answers = [] ∧ a ∈ waiting ∧ h.places hand a .request = 0 ∧
      h.queue.count (a, .finish) = 0

structure Waits (h : CallHeap) (hand : Option Nat) (waiting : List Nat) (told : List (Nat × WireRes)) : Prop where
  fault : h.fault = false
  stages : ∀ a x, h.calls[a]? = some x → h.Stage hand waiting a x
  unused : ∀ a, h.calls[a]? = none → h.places hand a .request = 0 ∧ h.queue.count (a, .finish) = 0
  once : waiting.Nodup
  parked : ∀ a ∈ waiting, ∃ x, h.calls[a]? = some x ∧ x.status = .awaitBatch
  told : ∀ q ∈ told, ∃ x, h.calls[q.1]? = some x ∧ x.status = .finish ∧ x.answers = [q.2]

/-- The two heaps have the same operations for every call but `a`, and so do the lists of waiting calls. -/
structure Elsewhere (h : CallHeap) (hand : Option Nat) (waiting : List Nat) (a : Nat) (h' : CallHeap)
    (hand' : Option Nat) (waiting' : List Nat) : Prop where
  fault : h'.fault = h.fault
  queue : ∀ b, b ≠ a → ∀ op, h'.queue.count (b, op) = h.queue.count (b, op)
  places : ∀ b, b ≠ a → h'.places hand' b = h.places hand b
  waiting : ∀ b, b ≠ a → (b ∈ waiting' ↔ b ∈ waiting)

/-- **The frame rule of the heap**: where one call changes, only that call has to be looked at. -/
theorem Waits.change (hw : h.Waits hand waiting told) {h' : CallHeap} {hand' : Option Nat} {waiting' : List Nat}
    {told' : List (Nat × WireRes)} {f : InCall → InCall} (hx : h.calls[a]? = some x)
    (hcalls : h'.calls = h.calls.modify a f) (helse : Elsewhere h hand waiting a h' hand' waiting')
    (hstage : h'.Stage hand' waiting' a (f x)) (honce : waiting'.Nodup)
    (hparked : a ∈ waiting' → (f x).status = .awaitBatch)
    (htold : ∀ q ∈ told', q.1 ≠ a → q ∈ told)
    (hself : ∀ q ∈ told', q.1 = a → (f x).status = .finish ∧ (f x).answers = [q.2]) :
    h'.Waits hand' waiting' told' := by
  have hsame : ∀ b, b ≠ a → h'.calls[b]? = h.calls[b]? := by
    intro b hne
    rw [hcalls, List.getElem?_modify]
    simp [Ne.symm hne]
  have hnow : h'.calls[a]? = some (f x) := by
    rw [hcalls, List.getElem?_modify, hx]
    simp
  refine ⟨helse.fault.trans hw.fault, ?_, ?_, honce, ?_, ?_⟩
  · intro b y hy
    by_cases hb : b = a
    · subst hb
      rw [hnow] at hy
      cases hy
      exact hstage
    · rw [hsame b hb] at hy
      have hold := hw.stages b y hy
      unfold Stage at hold ⊢
      rw [helse.places b hb, helse.queue b hb, helse.queue b hb, helse.waiting b hb]
      exact hold
  · intro b hnone
    have hb : b ≠ a := by
      rintro rfl
      rw [hnow] at hnone
      cases hnone
    rw [helse.places b hb, helse.queue b hb]
    exact hw.unused b (by rw [← hsame b hb]; exact hnone)
  · intro b hmem
    by_cases hb : b = a
    · subst hb
      exact ⟨f x, hnow, hparked hmem⟩
    · rw [hsame b hb]
      exact hw.parked b ((helse.waiting b hb).mp hmem)
  · intro q hq
    by_cases hb : q.1 = a
    · exact ⟨f x, by rw [hb]; exact hnow, hself q hq hb⟩
    · rw [hsame q.1 hb]
      exact hw.told q (htold q hq hb)

/-- A call of a batch waits for it, -/
theorem Waits.status_of_parked (hw : h.Waits hand waiting told) (hx : h.calls[a]? = some x) (hmem : a ∈ waiting) :
    x.status = .awaitBatch := by
  obtain ⟨y, hy, hstatus⟩ := hw.parked a hmem
  rw [hx] at hy
  cases hy
  exact hstatus

/-- and one that was told is finished. -/
theorem Waits.status_of_told (hw : h.Waits hand waiting told) {q : Nat × WireRes} (hx : h.calls[q.1]? = some x)
    (hq : q ∈ told) : x.status = .finish ∧ x.answers = [q.2] := by
  obtain ⟨y, hy, hfinished⟩ := hw.told q hq
  rw [hx] at hy
  cases hy
  exact hfinished

/-- The same where only the operations of the call change. -/
theorem Waits.keep (hw : h.Waits hand waiting told) {h' : CallHeap} {hand' : Option Nat} (hx : h.calls[a]? = some x)
    (hcalls : h'.calls = h.calls) (helse : Elsewhere h hand waiting a h' hand' waiting)
    (hstage : h'.Stage hand' waiting a x) : h'.Waits hand' waiting told := by
  refine hw.change (f := id) hx (by rw [hcalls, List.modify_id]) helse hstage hw.once (hw.status_of_parked hx)
    (fun q hq _ => hq) ?_
  rintro q hq rfl
  exact hw.status_of_told hx hq

/-- A call as the constructor leaves it. -/
def listener (type : RequestTypes) : InCall :=
  { type := type, status := .process, answers := [], deleted := false }

theorem newInCall_eq (h : CallHeap) (type : RequestTypes) :
    h.newInCall type = { h with
      calls := h.calls ++ [listener type]
      queue := h.queue ++ [(h.calls.length, .request)] } := by
  have hnew : (h.calls ++ [({ type := type, status := .create, answers := [], deleted := false } : InCall)])[
      h.calls.length]? = some { type := type, status := .create, answers := [], deleted := false } := by simp
  have hlast : ∀ (l : List InCall) (y : InCall) (f : InCall → InCall), (l ++ [y]).modify l.length f = l ++ [f y] := by
    intro l y f
    induction l with
    | nil => rfl
    | cons z l ih => rw [List.cons_append, List.length_cons, List.modify_succ_cons, ih, List.cons_append]
  rw [newInCall, listen, setStatus, access_live hnew rfl]
  simp only [post, hlast, listener]

theorem count_concat_of_ne (l : List (Nat × CallOp)) {b : Nat} (hb : b ≠ a) (op op' : CallOp) :
    (l ++ [(a, op')]).count (b, op) = l.count (b, op) := by
  rw [List.count_append, List.count_singleton, if_neg, Nat.add_zero]
  simp [Ne.symm hb]

theorem count_concat_self (l : List (Nat × CallOp)) (a : Nat) (op op' : CallOp) :
    (l ++ [(a, op')]).count (a, op) = l.count (a, op) + if op = op' then 1 else 0 := by
  rw [List.count_append, List.count_singleton]
  congr 1
  by_cases hop : op = op'
  · simp [hop]
  · simp [hop, Ne.symm hop]

/-- A new object listens, and has an address of its own. -/
theorem Waits.newInCall (hw : h.Waits hand waiting told) (type : RequestTypes) :
    (h.newInCall type).Waits hand waiting told := by
  rw [newInCall_eq]
  have hold : ∀ b x, h.calls[b]? = some x → b ≠ h.calls.length := by
    rintro b x hx rfl
    simp at hx
  have hkeep : ∀ {b : Nat} {y : InCall}, h.calls[b]? = some y → (h.calls ++ [listener type])[b]? = some y := by
    intro b y hy
    rw [List.getElem?_append_left (List.getElem?_eq_some_iff.mp hy).1]
    exact hy
  refine ⟨hw.fault, ?_, ?_, hw.once, ?_, ?_⟩
  · intro b y hy
    rcases Nat.lt_trichotomy b h.calls.length with hlt | rfl | hgt
    · rw [List.getElem?_append_left hlt] at hy
      have hstage := hw.stages b y hy
      unfold Stage places at hstage ⊢
      simp only [count_concat_of_ne _ (hold b y hy)]
      exact hstage
    · obtain rfl : y = listener type := by simpa using hy.symm
      obtain ⟨hplaces, hfinish⟩ := hw.unused h.calls.length (by simp)
      unfold places at hplaces
      refine ⟨rfl, rfl, ?_, ?_⟩
      · simp only [places, count_concat_self]
        simp only [if_true]
        omega
      · simp only [count_concat_self, hfinish]
        rfl
    · rw [List.getElem?_eq_none (by rw [List.length_append]; exact hgt)] at hy
      cases hy
  · intro b hnone
    rw [List.getElem?_eq_none_iff, List.length_append, List.length_singleton] at hnone
    have hb : b ≠ h.calls.length := by omega
    have hunused := hw.unused b (List.getElem?_eq_none_iff.mpr (by omega))
    unfold places at hunused ⊢
    simp only [count_concat_of_ne _ hb]
    exact hunused
  · intro b hmem
    obtain ⟨y, hy, hstatus⟩ := hw.parked b hmem
    exact ⟨y, hkeep hy, hstatus⟩
  · intro q hq
    obtain ⟨y, hy, hfinished⟩ := hw.told q hq
    exact ⟨y, hkeep hy, hfinished⟩

/-- The server's batches may be reordered. -/
theorem Waits.perm (hw : h.Waits hand waiting told) {waiting' : List Nat} (hperm : waiting.Perm waiting') :
    h.Waits hand waiting' told := by
  refine ⟨hw.fault, ?_, hw.unused, hperm.nodup_iff.mp hw.once, fun a hmem => hw.parked a (hperm.mem_iff.mpr hmem),
    hw.told⟩
  intro b y hy
  have hold := hw.stages b y hy
  unfold Stage at hold ⊢
  rw [← hperm.mem_iff]
  exact hold

theorem count_eraseIdx {l : List (Nat × CallOp)} {k : Nat} {op : CallOp} (hk : l[k]? = some (a, op)) (b : Nat)
    (op' : CallOp) : (l.eraseIdx k).count (b, op') + (if a = b ∧ op = op' then 1 else 0) = l.count (b, op') := by
  have hcount := countP_eraseIdx (· == (b, op')) hk
  simpa [List.count, Prod.ext_iff] using hcount

/-- An operation completes, and the call it is the tag of is taken in hand. -/
theorem Waits.take (hw : h.Waits none waiting told) {k : Nat} {op : CallOp} (hk : h.queue[k]? = some (a, op)) :
    ∃ x, h.calls[a]? = some x ∧ x.deleted = false ∧
      (op = .request ∧ x.status = .process ∨ op = .finish ∧ x.status = .finish) ∧
      (h.take k).Waits (some a) waiting told := by
  have hpos : 0 < h.queue.count (a, op) := List.count_pos_iff.mpr (List.mem_of_getElem? hk)
  have herase := count_eraseIdx hk
  obtain ⟨x, hx⟩ : ∃ x, h.calls[a]? = some x := by
    cases hx : h.calls[a]? with
    | some x => exact ⟨x, rfl⟩
    | none =>
      have hunused := hw.unused a hx
      unfold places at hunused
      cases op <;> omega
  have hstage := hw.stages a x hx
  have helse : Elsewhere h none waiting a (h.take k) (some a) waiting := by
    refine ⟨rfl, ?_, ?_, fun b _ => Iff.rfl⟩
    · intro b hb op'
      have hsame := herase b op'
      simpa [CallHeap.take, Ne.symm hb] using hsame
    · intro b hb
      funext op'
      have hsame := herase b op'
      simpa [places, CallHeap.take, Ne.symm hb] using hsame
  have hchange := fun hnow => hw.keep hx (by rfl) helse hnow
  have hrequest := herase a .request
  have hfinish := herase a .finish
  unfold Stage places at hstage
  cases hstatus : x.status with
  | create | retry =>
    rw [hstatus] at hstage
    exact hstage.elim
  | process =>
    rw [hstatus] at hstage
    simp only [reduceCtorEq, if_false] at hstage
    obtain ⟨hlive, hanswers, hone, hnone⟩ := hstage
    cases op with
    | finish => omega
    | request =>
      refine ⟨x, hx, hlive, .inl ⟨rfl, hstatus⟩, hchange ?_⟩
      simp only [and_self, if_true, reduceCtorEq, and_false, if_false] at hrequest hfinish
      unfold Stage places CallHeap.take
      rw [hstatus]
      refine ⟨hlive, hanswers, ?_, ?_⟩
      · simp only [if_true]
        omega
      · show (h.queue.eraseIdx k).count (a, .finish) = 0
        omega
  | finish =>
    rw [hstatus] at hstage
    simp only [reduceCtorEq, if_false] at hstage
    obtain ⟨hanswers, hnone, hone⟩ := hstage
    cases op with
    | request => omega
    | finish =>
      have hlive : x.deleted = false := by
        cases hdeleted : x.deleted with
        | false => rfl
        | true =>
          rw [hdeleted] at hone
          simp only [if_true] at hone
          omega
      refine ⟨x, hx, hlive, .inr ⟨rfl, hstatus⟩, hchange ?_⟩
      simp only [and_self, if_true, reduceCtorEq, and_false, if_false] at hrequest hfinish
      unfold Stage places CallHeap.take
      rw [hstatus]
      refine ⟨hanswers, ?_, ?_⟩
      · show (h.queue.eraseIdx k).count (a, .request) = 0
        omega
      · simp only [if_true]
        omega
  | awaitBatch =>
    rw [hstatus] at hstage
    cases op <;> omega

/-- The dropped operation of a call in hand. -/
theorem Waits.drop (hw : h.Waits (some a) waiting told) (hx : h.calls[a]? = some x) :
    Waits { h with lost := h.lost ++ [a] } none waiting told := by
  have hself : ∀ op, places { h with lost := h.lost ++ [a] } none a op = h.places (some a) a op := by
    intro op
    simp only [places, List.count_append, List.count_singleton_self, if_true, reduceCtorEq, if_false]
    omega
  refine hw.keep hx rfl ⟨rfl, fun _ _ _ => rfl, ?_, fun _ _ => Iff.rfl⟩ ?_
  · intro b hb
    funext op
    simp [places, List.count_append, Ne.symm hb]
  · have hstage := hw.stages a x hx
    unfold Stage at hstage ⊢
    rw [hself, hself]
    exact hstage

/-- A call that is served is out of the hands of `Proceed`, and no other is touched. -/
theorem elsewhere_hand {h' : CallHeap} (hfault : h'.fault = h.fault) (hlost : h'.lost = h.lost)
    (hqueue : ∀ b, b ≠ a → ∀ op, h'.queue.count (b, op) = h.queue.count (b, op)) {waiting' : List Nat}
    (hwaiting : ∀ b, b ≠ a → (b ∈ waiting' ↔ b ∈ waiting)) : Elsewhere h (some a) waiting a h' none waiting' := by
  refine ⟨hfault, hqueue, ?_, hwaiting⟩
  intro b hb
  funext op
  simp [places, hqueue b hb op, hlost, Ne.symm hb]

/-- A call that is to be served has no other operation. -/
theorem Waits.in_hand (hw : h.Waits (some a) waiting told) (hx : h.calls[a]? = some x) (hstatus : x.status = .process) :
    x.deleted = false ∧ x.answers = [] ∧ h.queue.count (a, .request) + h.lost.count a = 0 ∧
      h.queue.count (a, .finish) = 0 := by
  have hstage := hw.stages a x hx
  unfold Stage places at hstage
  rw [hstatus] at hstage
  simp only [if_true] at hstage
  obtain ⟨hlive, hanswers, hone, hfinish⟩ := hstage
  exact ⟨hlive, hanswers, by omega, hfinish⟩

/-- `status_ = AWAIT_BATCH`. -/
theorem Waits.park (hw : h.Waits (some a) waiting told) (hx : h.calls[a]? = some x) (hstatus : x.status = .process) :
    (h.setStatus a .awaitBatch).Waits none (a :: waiting) told := by
  obtain ⟨hlive, hanswers, hnone, hfinish⟩ := hw.in_hand hx hstatus
  rw [setStatus, access_live hx hlive]
  refine hw.change hx rfl ?_ ?_ ?_ (fun _ => rfl) (fun q hq _ => hq) ?_
  · apply elsewhere_hand
    · rfl
    · rfl
    · exact fun _ _ _ => rfl
    · intro b hb
      simp [hb]
  · refine ⟨hlive, hanswers, List.mem_cons_self, ?_, hfinish⟩
    simp only [places, reduceCtorEq, if_false]
    omega
  · refine List.nodup_cons.mpr ⟨?_, hw.once⟩
    intro hmem
    exact absurd (hw.status_of_parked hx hmem) (by simp [hstatus])
  · rintro q hq rfl
    exact absurd (hw.status_of_told hx hq).1 (by simp [hstatus])

/-- The answer to a call in hand. -/
theorem Waits.finish (hw : h.Waits (some a) waiting told) (hx : h.calls[a]? = some x) (hstatus : x.status = .process)
    (response : WireRes) : (h.finish a response).Waits none waiting told := by
  obtain ⟨hlive, hanswers, hnone, hfinish⟩ := hw.in_hand hx hstatus
  rw [CallHeap.finish, access_live hx hlive]
  refine hw.change hx rfl ?_ ?_ hw.once ?_ (fun q hq _ => hq) ?_
  · apply elsewhere_hand
    · rfl
    · rfl
    · exact fun b hb op => count_concat_of_ne _ hb op _
    · exact fun _ _ => Iff.rfl
  · refine ⟨by simp [hanswers], ?_, ?_⟩
    · simp only [post, count_concat_self, reduceCtorEq, if_false]
      omega
    · simp only [places, post, count_concat_self, hlive, reduceCtorEq, if_false, if_true, Bool.false_eq_true]
      omega
  · intro hmem
    exact absurd (hw.status_of_parked hx hmem) (by simp [hstatus])
  · rintro q hq rfl
    exact absurd (hw.status_of_told hx hq).1 (by simp [hstatus])

/-- The answer to a call of a batch. -/
theorem Waits.completeTransfer (reply : TransferRes) (hw : h.Waits hand (reply.call :: waiting) told) :
    (h.completeTransfer reply).Waits hand waiting (told ++ [(reply.call, .transfer reply.ack reply.tid)]) := by
  obtain ⟨hnot, honce⟩ := List.nodup_cons.mp hw.once
  obtain ⟨x, hx, hstatus⟩ := hw.parked reply.call List.mem_cons_self
  have hstage := hw.stages reply.call x hx
  unfold Stage at hstage
  rw [hstatus] at hstage
  obtain ⟨hlive, hanswers, -, hplaces, hfinish⟩ := hstage
  rw [CallHeap.completeTransfer, CallHeap.finish, access_live hx hlive]
  refine hw.change hx rfl ?_ ?_ honce (fun hmem => absurd hmem hnot) ?_ ?_
  · refine ⟨rfl, fun b hb op => count_concat_of_ne _ hb op _, ?_, ?_⟩
    · intro b hb
      funext op
      simp only [places, post, count_concat_of_ne _ hb]
    · intro b hb
      simp [hb]
  · unfold places at hplaces
    refine ⟨by simp [hanswers], ?_, ?_⟩
    · simp only [post, count_concat_self, reduceCtorEq, if_false]
      omega
    · simp only [places, post, count_concat_self, hlive, if_true, Bool.false_eq_true, if_false]
      omega
  · intro q hq hne
    rcases List.mem_append.mp hq with hold | hlast
    · exact hold
    · exact absurd (by rw [List.mem_singleton.mp hlast]) hne
  · intro q hq heq
    rcases List.mem_append.mp hq with hold | hlast
    · rw [← heq] at hx
      exact absurd (hw.status_of_told hx hold).1 (by simp [hstatus])
    · rw [List.mem_singleton.mp hlast]
      exact ⟨rfl, by simp [hanswers]⟩

/-- The answers of an event, one after the other. -/
theorem Waits.completeTransfers : ∀ (replies : List TransferRes) {h : CallHeap} {told : List (Nat × WireRes)},
    h.Waits hand (replies.map TransferRes.call ++ waiting) told →
    (replies.foldl CallHeap.completeTransfer h).Waits hand waiting
      (told ++ replies.map fun r => (r.call, .transfer r.ack r.tid)) := by
  intro replies
  induction replies with
  | nil =>
    intro h told hw
    simpa using hw
  | cons r replies ih =>
    intro h told hw
    have hrest := ih (hw.completeTransfer r)
    rwa [List.append_assoc] at hrest

/-- A call that is not answered stays as it is. -/
theorem getElem?_completeTransfers : ∀ (replies : List TransferRes) (h : CallHeap), a ∉ replies.map TransferRes.call →
    (replies.foldl CallHeap.completeTransfer h).calls[a]? = h.calls[a]? := by
  intro replies
  induction replies with
  | nil => exact fun _ _ => rfl
  | cons r replies ih =>
    intro h hnot
    rw [List.map_cons, List.mem_cons, not_or] at hnot
    rw [List.foldl_cons, ih _ hnot.2]
    unfold CallHeap.completeTransfer CallHeap.finish access
    split
    · split
      · rfl
      · show (h.calls.modify r.call _)[a]? = h.calls[a]?
        rw [List.getElem?_modify]
        simp [Ne.symm hnot.1]
    · rfl

/-- `delete this`. -/
theorem Waits.delete (hw : h.Waits (some a) waiting told) (hx : h.calls[a]? = some x) (hlive : x.deleted = false)
    (hstatus : x.status = .finish) : (h.delete a).Waits none waiting told := by
  have hstage := hw.stages a x hx
  unfold Stage places at hstage
  rw [hstatus] at hstage
  simp only [if_true, hlive, Bool.false_eq_true, if_false] at hstage
  obtain ⟨hanswers, hrequest, hone⟩ := hstage
  rw [CallHeap.delete, access_live hx hlive]
  refine hw.change hx rfl ?_ ?_ hw.once ?_ (fun q hq _ => hq) ?_
  · apply elsewhere_hand
    · rfl
    · rfl
    · exact fun _ _ _ => rfl
    · exact fun _ _ => Iff.rfl
  · unfold Stage
    simp only [hstatus]
    refine ⟨hanswers, hrequest, ?_⟩
    simp only [places, reduceCtorEq, if_false, if_true]
    omega
  · intro hmem
    have hawait := hw.status_of_parked hx hmem
    exact hawait
  · rintro q hq rfl
    have hfinished := hw.status_of_told hx hq
    exact hfinished

/-! ### Listeners -/

/-- The calls of a type that were made and not yet served.  The request operation of such a call is on the queue, or came
back with `ok = false`. -/
def listening (h : CallHeap) (type : RequestTypes) : Nat :=
  h.calls.countP fun x => decide (x.type = type ∧ x.status = .process)

theorem listening_newInCall (h : CallHeap) (new type : RequestTypes) :
    (h.newInCall new).listening type = h.listening type + if new = type then 1 else 0 := by
  rw [newInCall_eq, listening, List.countP_append, List.countP_singleton]
  simp [listening, listener]

/-- A call that is parked or answered listens no more. -/
theorem listening_modify {h' : CallHeap} {f : InCall → InCall} (hx : h.calls[a]? = some x)
    (hcalls : h'.calls = h.calls.modify a f) (hstatus : x.status = .process) (hf : (f x).status ≠ .process)
    (type : RequestTypes) : h'.listening type + (if x.type = type then 1 else 0) = h.listening type := by
  have hcount := countP_modify (fun y : InCall => decide (y.type = type ∧ y.status = .process)) f hx
  simp only [hstatus, hf, and_true, and_false, decide_false, Bool.false_eq_true, if_false, Nat.add_zero,
    decide_eq_true_eq] at hcount
  rw [listening, hcalls]
  exact hcount

/-- The answer to a parked call leaves the listeners alone. -/
theorem listening_completeTransfers (type : RequestTypes) : ∀ (replies : List TransferRes) {h : CallHeap}
    {told : List (Nat × WireRes)}, h.Waits hand (replies.map TransferRes.call ++ waiting) told →
    (replies.foldl CallHeap.completeTransfer h).listening type = h.listening type := by
  intro replies
  induction replies with
  | nil => exact fun _ => rfl
  | cons r replies ih =>
    intro h told hw
    refine (ih (hw.completeTransfer r)).trans ?_
    obtain ⟨x, hx, hstatus⟩ := hw.parked r.call List.mem_cons_self
    have hstage := hw.stages r.call x hx
    unfold Stage at hstage
    rw [hstatus] at hstage
    rw [CallHeap.completeTransfer, CallHeap.finish, access_live hx hstage.1]
    have hcount := countP_modify (fun y : InCall => decide (y.type = type ∧ y.status = .process))
      (fun y => { y with answers := y.answers ++ [.transfer r.ack r.tid], status := .finish }) hx
    simp only [hstatus, reduceCtorEq, and_false, decide_false, Bool.false_eq_true, if_false, Nat.add_zero] at hcount
    exact hcount

end CallHeap

/-! ## The loop -/

/-- What the server has told its callers, by call. -/
def ServerImpl.told (s : ServerImpl) : List (Nat × WireRes) := s.replies.map fun r => (r.call, .transfer r.ack r.tid)

namespace EventLoop

variable {p : EventLoop} {hand : Option Nat} {a : Nat} {x : InCall}

/-- The heap knows the calls of the batches, and what was answered. -/
structure Lives (hand : Option Nat) (p : EventLoop) : Prop where
  running : p.server.Running
  heap : p.heap.Waits hand (p.server.parked.map BatchEntry.call) p.server.told

/-- The server handles an event; the call of a new batch entry has been parked. -/
theorem handle_lives (hrun : p.server.Running) (e : Event)
    (hheap : p.heap.Waits hand (p.server.parked.map BatchEntry.call ++ e.entries.map BatchEntry.call) p.server.told) :
    (p.handle e).Lives hand := by
  obtain ⟨new, hnew, hperm⟩ := ServerImpl.handle_answers hrun e
  refine ⟨(ServerImpl.handle_takes hrun e).running, ?_⟩
  have hdone := CallHeap.Waits.completeTransfers new (hheap.perm hperm.symm)
  show ((_ : List TransferRes).foldl CallHeap.completeTransfer p.heap).Waits hand _ ((p.server.handle e).told)
  rw [ServerImpl.told, hnew, List.drop_left, List.map_append]
  exact hdone

/-- An event that is no client call, -/
theorem Lives.others (h : p.Lives hand) {e : Event} (hnone : e.entries = []) :
    p.heap.Waits hand (p.server.parked.map BatchEntry.call ++ e.entries.map BatchEntry.call) p.server.told := by
  rw [hnone, List.map_nil, List.append_nil]
  exact h.heap

/-- and one that is, with the call parked. -/
theorem Lives.parks (h : p.Lives (some a)) (hx : p.heap.calls[a]? = some x) (hstatus : x.status = .process)
    {e : Event} (hentry : e.entries.map BatchEntry.call = [a]) :
    (p.heap.setStatus a .awaitBatch).Waits none
      (p.server.parked.map BatchEntry.call ++ e.entries.map BatchEntry.call) p.server.told := by
  rw [hentry]
  exact (h.heap.park hx hstatus).perm (List.perm_append_singleton a _).symm

theorem Lives.handle (h : p.Lives hand) {e : Event} (hnone : e.entries = []) : (p.handle e).Lives hand :=
  handle_lives h.running e (h.others hnone)

/-- The server answers parked calls only, so a call that is being served stays as it is. -/
theorem Lives.getElem?_handle (h : p.Lives hand) (hx : p.heap.calls[a]? = some x) (hstatus : x.status = .process)
    {e : Event} (hnone : e.entries = []) : (p.handle e).heap.calls[a]? = some x := by
  rw [← hx]
  apply CallHeap.getElem?_completeTransfers
  intro hmem
  obtain ⟨new, hnew, hperm⟩ := ServerImpl.handle_answers h.running e
  rw [hnew, List.drop_left] at hmem
  rw [hnone, List.map_nil, List.append_nil] at hperm
  have hawait := h.heap.status_of_parked hx (hperm.subset (List.mem_append_left _ hmem))
  rw [hstatus] at hawait
  cases hawait

/-- A client call is parked, and its entry handed to the server. -/
theorem Lives.enqueue (h : p.Lives (some a)) (hx : p.heap.calls[a]? = some x) (hstatus : x.status = .process)
    {e : Event} (hentry : e.entries.map BatchEntry.call = [a]) :
    ((p.onHeap fun h => h.setStatus a .awaitBatch).handle e).Lives none := by
  apply handle_lives
  · exact h.running
  · exact h.parks hx hstatus hentry

/-- Any other call is answered at once. -/
theorem Lives.answer (h : p.Lives (some a)) (hx : p.heap.calls[a]? = some x) (hstatus : x.status = .process)
    {e : Event} (hnone : e.entries = []) (response : WireRes) :
    ((p.handle e).onHeap fun h => h.finish a response).Lives none :=
  ⟨(h.handle hnone).running, (h.handle hnone).heap.finish (h.getElem?_handle hx hstatus hnone) hstatus response⟩

theorem Lives.serve (h : p.Lives (some a)) (hx : p.heap.calls[a]? = some x) (hstatus : x.status = .process)
    (req : WireReq) : (p.serve a req).Lives none := by
  cases req with
  | tpcPrepare request => exact h.enqueue hx hstatus rfl
  | transfer request => exact h.enqueue hx hstatus rfl
  | tpcCommit | tpcAbort | prepare | accept | commit | sync | disconnect => exact h.answer hx hstatus rfl _
  | balance | logs => exact ⟨h.running, h.heap.finish hx hstatus _⟩

/-- A completion brings no client call. -/
theorem entries_replyEvent {req : RpcReq} {status : Status} {reply : RpcRes} {e : Event}
    (h : replyEvent req status reply = some e) : e.entries = [] := by
  unfold replyEvent at h
  split at h <;> cases h <;> rfl

/-- What one event of the loop does. -/
inductive Moves (p : EventLoop) : EventLoop → Prop
  | idle {q : EventLoop} : q.server = p.server → q.heap = p.heap → Moves p q
  | event {q : EventLoop} (e : Event) : q.server = p.server → q.heap = p.heap → e.entries = [] →
      Moves p (q.handle e)
  | serve {k a x} (req : WireReq) : p.heap.queue[k]? = some (a, .request) → p.heap.calls[a]? = some x →
      x.deleted = false → x.status = .process → x.type = req.type →
      Moves p (serve (p.onHeap fun h => (h.take k).newInCall x.type) a req)
  | delete {k a x} : p.heap.queue[k]? = some (a, .finish) → p.heap.calls[a]? = some x → x.deleted = false →
      x.status = .finish → Moves p (p.onHeap fun h => (h.take k).delete a)
  | drop {k a op x} : p.heap.queue[k]? = some (a, op) → p.heap.calls[a]? = some x →
      Moves p (p.onHeap fun h => { h.take k with lost := h.lost ++ [a] })

theorem Lives.moves (h : p.Lives none) (ev : LoopEvent) : Moves p (p.step ev) := by
  cases ev with
  | tick ms => exact .event _ rfl rfl rfl
  | sweep => exact .event _ rfl rfl rfl
  | response k ok status reply =>
    simp only [EventLoop.step]
    split
    · exact .idle rfl rfl
    · split
      · split
        · exact .idle rfl rfl
        · exact .event _ rfl rfl (entries_replyEvent ‹_›)
        · exact .idle rfl rfl
      · exact .idle rfl rfl
  | request k ok req =>
    simp only [EventLoop.step]
    split
    · exact .idle rfl rfl
    · rename_i a op hk
      obtain ⟨x, hx, hlive, hstatus, -⟩ := h.heap.take hk
      split
      · split
        · -- `Proceed` finds a live call, which listens or is finished
          rename_i harrives
          have hsame : (p.onHeap fun h => h.take k).heap.calls[a]? = some x := hx
          rw [proceed, hsame]
          simp only [hlive, Bool.false_eq_true, if_false]
          rcases hstatus with ⟨rfl, hstatus⟩ | ⟨rfl, hstatus⟩
          · simp only [hstatus]
            rw [arrives, hx] at harrives
            exact .serve req hk hx hlive hstatus (by simpa using harrives)
          · simp only [hstatus]
            exact .delete hk hx hlive hstatus
        · exact .idle rfl rfl
      · exact .drop hk hx

/-- The call that is being served, once its successor listens. -/
theorem getElem?_newInCall {k : Nat} (hx : p.heap.calls[a]? = some x) (type : RequestTypes) :
    (p.onHeap fun h => (h.take k).newInCall type).heap.calls[a]? = some x := by
  show ((p.heap.take k).newInCall type).calls[a]? = some x
  rw [CallHeap.newInCall_eq]
  exact (List.getElem?_append_left (List.getElem?_eq_some_iff.mp hx).1).trans hx

theorem Lives.newInCall (h : p.Lives none) {k : Nat} {op : CallOp} (hk : p.heap.queue[k]? = some (a, op))
    (type : RequestTypes) : Lives (some a) (p.onHeap fun h => (h.take k).newInCall type) := by
  obtain ⟨-, -, -, -, htaken⟩ := h.heap.take hk
  exact ⟨h.running, htaken.newInCall type⟩

/-- **The step rule.** -/
theorem Lives.step (h : p.Lives none) (ev : LoopEvent) : (p.step ev).Lives none := by
  have hmoves := h.moves ev
  generalize p.step ev = q at hmoves
  cases hmoves with
  | idle hserver hheap => exact ⟨hserver ▸ h.running, by rw [hserver, hheap]; exact h.heap⟩
  | event e hserver hheap hnone =>
    exact Lives.handle ⟨hserver ▸ h.running, by rw [hserver, hheap]; exact h.heap⟩ hnone
  | serve req hk hx hlive hstatus _ => exact (h.newInCall hk _).serve (getElem?_newInCall hx _) hstatus req
  | delete hk hx hlive hstatus =>
    obtain ⟨-, -, -, -, htaken⟩ := h.heap.take hk
    exact ⟨h.running, htaken.delete hx hlive hstatus⟩
  | drop hk hx =>
    obtain ⟨-, -, -, -, htaken⟩ := h.heap.take hk
    exact ⟨h.running, htaken.drop hx⟩

/-! ### One listener of each type -/

theorem listening_handle (hrun : p.server.Running) (e : Event)
    (hheap : p.heap.Waits hand (p.server.parked.map BatchEntry.call ++ e.entries.map BatchEntry.call) p.server.told)
    (type : RequestTypes) : (p.handle e).heap.listening type = p.heap.listening type := by
  obtain ⟨new, hnew, hperm⟩ := ServerImpl.handle_answers hrun e
  show ((_ : List TransferRes).foldl CallHeap.completeTransfer p.heap).listening type = _
  rw [hnew, List.drop_left]
  exact CallHeap.listening_completeTransfers type new (hheap.perm hperm.symm)

/-- The served call no longer listens. -/
theorem Lives.listening_serve (h : p.Lives (some a)) (hx : p.heap.calls[a]? = some x) (hstatus : x.status = .process)
    (req : WireReq) (type : RequestTypes) :
    (p.serve a req).heap.listening type + (if x.type = type then 1 else 0) = p.heap.listening type := by
  have hlive := (h.heap.in_hand hx hstatus).1
  have henqueue : ∀ {e : Event}, e.entries.map BatchEntry.call = [a] →
      ((p.onHeap fun h => h.setStatus a .awaitBatch).handle e).heap.listening type +
        (if x.type = type then 1 else 0) = p.heap.listening type := by
    intro e hentry
    have hparked : (p.heap.setStatus a .awaitBatch).listening type + (if x.type = type then 1 else 0) =
        p.heap.listening type := by
      rw [CallHeap.setStatus, CallHeap.access_live hx hlive]
      exact CallHeap.listening_modify hx rfl hstatus (by simp) type
    rw [← hparked]
    congr 1
    apply listening_handle
    · exact h.running
    · exact h.parks hx hstatus hentry
  have hfinish : ∀ {q : EventLoop} (response : WireRes), q.heap.calls[a]? = some x →
      (q.onHeap fun h => h.finish a response).heap.listening type + (if x.type = type then 1 else 0) =
        q.heap.listening type := by
    intro q response hq
    show (q.heap.finish a response).listening type + _ = _
    rw [CallHeap.finish, CallHeap.access_live hq hlive]
    exact CallHeap.listening_modify hq rfl hstatus (by simp) type
  have hanswer : ∀ {e : Event} (response : WireRes), e.entries = [] →
      ((p.handle e).onHeap fun h => h.finish a response).heap.listening type + (if x.type = type then 1 else 0) =
        p.heap.listening type := by
    intro e response hnone
    rw [hfinish response (h.getElem?_handle hx hstatus hnone), listening_handle h.running e (h.others hnone)]
  cases req with
  | tpcPrepare request => exact henqueue rfl
  | transfer request => exact henqueue rfl
  | tpcCommit | tpcAbort | prepare | accept | commit | sync | disconnect => exact hanswer _ rfl
  | balance | logs => exact hfinish _ hx

theorem Lives.listening_step (h : p.Lives none) (ev : LoopEvent) (type : RequestTypes) :
    (p.step ev).heap.listening type = p.heap.listening type := by
  have hmoves := h.moves ev
  generalize p.step ev = q at hmoves
  cases hmoves with
  | idle hserver hheap => rw [hheap]
  | event e hserver hheap hnone =>
    have hq : Lives none _ := ⟨hserver ▸ h.running, by rw [hserver, hheap]; exact h.heap⟩
    rw [listening_handle hq.running e (hq.others hnone), hheap]
  | @serve k a x req hk hx hlive hstatus _ =>
    -- one listener more, and one less
    have hserved := (h.newInCall hk x.type).listening_serve (getElem?_newInCall hx _) hstatus req type
    have hnew := CallHeap.listening_newInCall (p.heap.take k) x.type type
    exact Nat.add_right_cancel (hserved.trans hnew)
  | @delete k a x hk hx hlive hstatus =>
    show ((p.heap.take k).delete a).listening type = _
    have hsame : (p.heap.take k).calls[a]? = some x := hx
    rw [CallHeap.delete, CallHeap.access_live hsame hlive]
    have hcount := countP_modify (fun y : InCall => decide (y.type = type ∧ y.status = .process))
      (fun y => { y with deleted := true }) hx
    exact Nat.add_right_cancel hcount
  | drop hk hx => rfl

/-! ### Every run -/

theorem Lives.start {s : ServerImpl} (hs : s.callKeys = []) : (start s).Lives none := by
  rw [ServerImpl.callKeys, List.append_eq_nil_iff, List.map_eq_nil_iff, List.map_eq_nil_iff] at hs
  obtain ⟨hreplies, hparked⟩ := hs
  refine ⟨fun _ => (List.append_eq_nil_iff.mp hparked).1, ?_⟩
  show (listeners.foldl CallHeap.newInCall _).Waits none (s.parked.map BatchEntry.call) s.told
  rw [ServerImpl.told, hparked, hreplies]
  refine List.foldlRecOn (motive := fun h : CallHeap => h.Waits none [] []) listeners _ ?_ ?_
  · refine ⟨rfl, fun a x hx => ?_, fun a _ => ⟨rfl, rfl⟩, List.nodup_nil, fun a ha => ?_, fun q hq => ?_⟩
    · simp at hx
    · exact absurd ha List.not_mem_nil
    · exact absurd hq List.not_mem_nil
  · exact fun h hw type _ => hw.newInCall type

theorem listening_start (s : ServerImpl) (type : RequestTypes) : (start s).heap.listening type = 1 := by
  cases type <;> rfl

theorem Lives.run {s : ServerImpl} (hs : s.callKeys = []) (es : List LoopEvent) :
    (run s es).Lives none ∧ ∀ type, (run s es).heap.listening type = 1 := by
  refine List.foldlRecOn (motive := fun p : EventLoop => p.Lives none ∧ ∀ type, p.heap.listening type = 1) es
    EventLoop.step ⟨.start hs, listening_start s⟩ ?_
  rintro p ⟨h, hone⟩ ev _
  exact ⟨h.step ev, fun type => (h.listening_step ev type).trans (hone type)⟩

/-- The calls of a loop are in order. -/
structure InOrder (p : EventLoop) : Prop where
  /-- Nothing is touched after it was deleted. -/
  safe : p.heap.fault = false
  /-- The batches point to live calls that wait there, and have no operation under way. -/
  parked : ∀ b ∈ p.server.parked, ∃ x, p.heap.calls[b.call]? = some x ∧ x.status = .awaitBatch ∧ x.deleted = false ∧
    ∀ op, (b.call, op) ∉ p.heap.queue
  /-- A call that waits for its batch is in one, once. -/
  waiting : ∀ (a : Nat) (x : InCall), p.heap.calls[a]? = some x → x.status = .awaitBatch →
    (p.server.parked.map BatchEntry.call).count a = 1
  /-- No call is answered twice, and none is deleted before it is answered. -/
  answers : ∀ (a : Nat) (x : InCall), p.heap.calls[a]? = some x → x.answers.length ≤ 1 ∧ (x.deleted = true → x.answers.length = 1)
  /-- A client receives what its `completeTransfer` said. -/
  told : ∀ r ∈ p.server.replies, ∃ x, p.heap.calls[r.call]? = some x ∧ x.answers = [.transfer r.ack r.tid]
  /-- A call that is not deleted waits for its batch or for an operation, or its operation was dropped. -/
  kept : ∀ (a : Nat) (x : InCall), p.heap.calls[a]? = some x → x.deleted = false →
    x.status = .awaitBatch ∨ (∃ op, (a, op) ∈ p.heap.queue) ∨ a ∈ p.heap.lost
  /-- One call of each type is not yet served; unless its operation was dropped, it is a listener. -/
  listening : ∀ type, p.heap.listening type = 1

theorem Lives.inOrder (h : p.Lives none) (hone : ∀ type, p.heap.listening type = 1) : p.InOrder := by
  have hstages := h.heap.stages
  simp only [CallHeap.Stage, CallHeap.places, reduceCtorEq, if_false, Nat.add_zero] at hstages
  refine ⟨h.heap.fault, ?_, ?_, ?_, ?_, ?_, hone⟩
  · intro b hb
    obtain ⟨x, hx, hstatus⟩ := h.heap.parked b.call (List.mem_map_of_mem hb)
    have hstage := hstages _ x hx
    simp only [hstatus] at hstage
    obtain ⟨hlive, -, -, hrequest, hfinish⟩ := hstage
    refine ⟨x, hx, hstatus, hlive, fun op => List.count_eq_zero.mp ?_⟩
    cases op with
    | request => omega
    | finish => exact hfinish
  · intro a x hx hstatus
    have hstage := hstages a x hx
    simp only [hstatus] at hstage
    exact List.count_eq_one_of_mem h.heap.once hstage.2.2.1
  · intro a x hx
    have hstage := hstages a x hx
    split at hstage
    · exact hstage.elim
    · exact ⟨by simp [hstage.2.1], fun hdel => by simp [hstage.1] at hdel⟩
    · exact hstage.elim
    · exact ⟨hstage.1.le, fun _ => hstage.1⟩
    · exact ⟨by simp [hstage.2.1], fun hdel => by simp [hstage.1] at hdel⟩
  · intro r hr
    obtain ⟨x, hx, -, hanswers⟩ := h.heap.told _ (List.mem_map_of_mem hr)
    exact ⟨x, hx, hanswers⟩
  · intro a x hx hlive
    have hstage := hstages a x hx
    -- the one operation of the call is on the queue or was dropped
    have hplace : ∀ {op}, p.heap.queue.count (a, op) + p.heap.lost.count a = 1 →
        (∃ op, (a, op) ∈ p.heap.queue) ∨ a ∈ p.heap.lost := by
      intro op hone
      rcases Nat.eq_zero_or_pos (p.heap.lost.count a) with hnot | hlost
      · exact .inl ⟨op, List.count_pos_iff.mp (by omega)⟩
      · exact .inr (List.count_pos_iff.mp hlost)
    split at hstage
    · exact hstage.elim
    · exact .inr (hplace hstage.2.2.1)
    · exact hstage.elim
    · obtain ⟨-, -, hfinish⟩ := hstage
      simp only [hlive, Bool.false_eq_true, if_false, Nat.add_zero] at hfinish
      exact .inr (hplace hfinish)
    · rename_i hstatus
      exact .inl hstatus

end EventLoop

/-- **The calls are in order.**  Whatever completes on the two queues, in any order and with any status and contents,
`HandleRPCs` touches no deleted call, answers no call twice, loses none but those whose operation came back with
`ok = false`, and has one call of every RPC that is not yet served. -/
theorem calls_in_order (s : ServerImpl) (hs : s.callKeys = []) (es : List LoopEvent) : (EventLoop.run s es).InOrder :=
  (EventLoop.Lives.run hs es).1.inOrder (EventLoop.Lives.run hs es).2

/-- A client call, which starts a round and waits for it, and another that is refused once the server is cut off. -/
def twoTransfers : List LoopEvent :=
  [.request 3 true (.transfer ⟨{ sender := 1, receiver := 2, amount := 3 }, 7⟩), .request 9 true (.disconnect [1]),
    .request 9 true (.transfer ⟨{ sender := 1, receiver := 2, amount := 3 }, 8⟩)]

theorem calls_in_order_twoTransfers :
    (EventLoop.run (.fresh ⟨2, 3⟩ 1) twoTransfers).InOrder ∧
      (EventLoop.run (.fresh ⟨2, 3⟩ 1) twoTransfers).server.parked.map BatchEntry.call = [3] ∧
      (EventLoop.run (.fresh ⟨2, 3⟩ 1) twoTransfers).server.replies.map TransferRes.ack = [false] :=
  ⟨calls_in_order _ rfl _, by decide +kernel, by decide +kernel⟩

end MultiPaxosDB
