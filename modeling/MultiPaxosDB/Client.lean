/-
# MultiPaxosDB.Client — the client coordinator (`client.cc`) and the deployment it drives.

`Client` is the class of `client.h` as far as 2PC goes: `processing`, the table of the cross-shard
transactions in flight.  `processTransaction` is one iteration of `processTransactions`, and
`consumeTpcPrepare` the branch of `consumeReplies` for a completed `TpcPrepare`; the other branches only
keep latencies.  Both return the RPCs they start.

`System` is a deployment with its client: the servers and their peer RPCs (`Net`), the client, and the
append-only list of the RPCs the client ever started.  A client RPC is handled by its server at most
once, at any later time and in any order (`deliver`); it ends at the client at most once, with the reply
the server gave (`complete`) or with an error (`fail`).  The position of an RPC in the list is the
identity of its parked call on the server.  `System.Moves` is the inversion lemma of a step.
-/
import MultiPaxosDB.Cluster

namespace MultiPaxosDB

open Lib

/-- A client RPC, by request; `TpcCommit` and `TpcAbort` are the two decisions. -/
inductive ClientReq
  | transfer (request : TransferReq)
  | tpcPrepare (request : TransferReq)
  | tpcDecision (tid : Int) (isCommit : Bool)
deriving DecidableEq, Repr

def ClientReq.tid : ClientReq → Int
  | .transfer request => request.tid
  | .tpcPrepare request => request.tid
  | .tpcDecision tid _ => tid

/-- What a client RPC is to the server that handles it. -/
def ClientReq.toInput (call : Nat) : ClientReq → Input
  | .transfer request => .transfer call request
  | .tpcPrepare request => .tpcPrepare call request
  | .tpcDecision tid isCommit => .tpcDecision tid isCommit

/-- `Client::TpcPrepareRes`, less the fields of the latency report. -/
structure TpcPrepareRes where
  txn : Transaction
  successes : Nat
  failures : Nat
deriving DecidableEq, Repr

structure Client where
  processing : TidMap TpcPrepareRes

namespace Client

/-! ## `client.cc` -/

/-- The common body of `tpcCommit` and `tpcAbort`: one RPC to every server of the two clusters.  (The
source goes through the servers in the order of their names; the order is of no consequence.) -/
def broadcast (c : Constants) (tid : Int) (isCommit : Bool) (senderCluster receiverCluster : Int) :
    List (Int × ClientReq) :=
  ((serverIds c).filter fun id => getClusterIdFromServerId c id == senderCluster ||
    getClusterIdFromServerId c id == receiverCluster).map fun id => (id, .tpcDecision tid isCommit)

/-- `Client::tpcCommit`. -/
def tpcCommit (c : Constants) (tid senderCluster receiverCluster : Int) : List (Int × ClientReq) :=
  broadcast c tid true senderCluster receiverCluster

/-- `Client::tpcAbort`. -/
def tpcAbort (c : Constants) (tid senderCluster receiverCluster : Int) : List (Int × ClientReq) :=
  broadcast c tid false senderCluster receiverCluster

/-- `leaders[cluster - 1]`.  The source does not check the index.  Behind the end of the list the model reads
0, which is no server; for a cluster of 0 or less it reads the first leader. -/
def leaderOf (leaders : List Int) (cluster : Int) : Int := leaders.getD (cluster - 1).toNat 0

/-- One iteration of `Client::processTransactions`.  The tid is a reading of the clock. -/
def processTransaction (c : Constants) (client : Client) (leaders : List Int) (t : Transaction)
    (tid : Int) : Client × List (Int × ClientReq) :=
  let senderCluster := getClusterIdFromClientId c t.sender
  let receiverCluster := getClusterIdFromClientId c t.receiver
  let request : TransferReq := { txn := t, tid := tid }
  if senderCluster = receiverCluster then
    (client, [(leaderOf leaders senderCluster, .transfer request)])
  else
    ({ processing := client.processing.insert tid { txn := t, successes := 0, failures := 0 } },
     [(leaderOf leaders senderCluster, .tpcPrepare request),
      (leaderOf leaders receiverCluster, .tpcPrepare request)])

/-- `processing[tid]`: an absent entry reads as zeros. -/
def entryOf (client : Client) (tid : Int) : TpcPrepareRes :=
  client.processing[tid]?.getD { txn := ⟨0, 0, 0⟩, successes := 0, failures := 0 }

/-- `++failures` or `++successes`. -/
def countVote (entry : TpcPrepareRes) (ok ack : Bool) : TpcPrepareRes :=
  if !ok || !ack then { entry with failures := entry.failures + 1 }
  else { entry with successes := entry.successes + 1 }

/-- The branch of `Client::consumeReplies` for a `TpcPrepare`; `ok` is the status of the call. -/
def consumeTpcPrepare (c : Constants) (client : Client) (ok : Bool) (reply : TransferRes) :
    Client × List (Int × ClientReq) :=
  if reply.tid = 0 then (client, [])
  else
    let entry := countVote (client.entryOf reply.tid) ok reply.ack
    let commit := entry.successes == 2
    let abort := decide (entry.failures > 0) && entry.successes + entry.failures == 2
    let senderCluster := getClusterIdFromClientId c entry.txn.sender
    let receiverCluster := getClusterIdFromClientId c entry.txn.receiver
    if commit || abort then
      ({ processing := client.processing.erase reply.tid },
       if commit then tpcCommit c reply.tid senderCluster receiverCluster
       else tpcAbort c reply.tid senderCluster receiverCluster)
    else ({ processing := client.processing.insert reply.tid entry }, [])

/-- A reply that names no transaction is ignored. -/
theorem consumeTpcPrepare_unnamed (c : Constants) (client : Client) {ok : Bool} {reply : TransferRes}
    (h : reply.tid = 0) : client.consumeTpcPrepare c ok reply = (client, []) :=
  if_pos h

end Client

/-! ## The deployment -/

structure ClientCall where
  dst : Int
  req : ClientReq
  /-- The server has handled the request. -/
  delivered : Bool
  /-- The call has ended at the client. -/
  done : Bool
  /-- History: the vote the client counted when a `TpcPrepare` ended. -/
  vote : Option Bool
deriving DecidableEq, Repr

/-- A call as the client starts it. -/
def ClientCall.new (p : Int × ClientReq) : ClientCall :=
  { dst := p.1, req := p.2, delivered := false, done := false, vote := none }

structure System where
  net : Net
  client : Client
  calls : List ClientCall
  /-- History: every transaction handed to `processTransactions`, with its tid. -/
  submitted : List TransferReq

/-- The events that are not the client's doing. -/
def NetEvent.fromClient : NetEvent → Bool
  | .input _ (.transfer _ _) => true
  | .input _ (.tpcPrepare _ _) => true
  | .input _ (.tpcDecision _ _) => true
  | _ => false

inductive SysEvent
  | submit (leaders : List Int) (t : Transaction) (tid : Int)
  | deliver (k : Nat)
  | complete (k : Nat)
  | fail (k : Nat)
  | server (ev : NetEvent)
deriving DecidableEq, Repr

namespace System

def fresh (c : Constants) : System :=
  { net := .fresh c, client := { processing := ∅ }, calls := [], submitted := [] }

/-- The reply a server has given to a parked call. -/
def replyTo (s : System) (dst : Int) (k : Nat) : Option TransferRes :=
  (s.net.servers dst).replies.find? fun x => x.call == k

/-- The client has handled the end of call `k`, and started some more. -/
def close (s : System) (k : Nat) (vote : Option Bool) (out : Client × List (Int × ClientReq)) : System :=
  { s with
    client := out.1
    calls := (s.calls.modify k fun x => { x with done := true, vote := vote }) ++ out.2.map .new }

/-- The reply of a call that failed: `reply` is left as constructed. -/
def noReply (k : Nat) : TransferRes := { call := k, ack := false, tid := 0 }

/-- One step of the deployment.  An event that is not enabled changes nothing. -/
def step (s : System) : SysEvent → System
  | .submit leaders t tid =>
    let out := s.client.processTransaction s.net.constants leaders t tid
    { s with
      client := out.1
      calls := s.calls ++ out.2.map .new
      submitted := s.submitted ++ [{ txn := t, tid := tid }] }
  | .deliver k =>
    match s.calls[k]? with
    | some x =>
      if x.delivered then s
      else { s with
        net := s.net.step (.input x.dst (x.req.toInput k))
        calls := s.calls.modify k fun x => { x with delivered := true } }
    | none => s
  | .complete k =>
    match s.calls[k]? with
    | some x =>
      if x.done then s
      else
        match x.req with
        | .tpcPrepare _ =>
          match s.replyTo x.dst k with
          | some reply =>
            s.close k (if reply.tid = 0 then none else some reply.ack)
              (s.client.consumeTpcPrepare s.net.constants true reply)
          | none => s
        | .transfer _ => if (s.replyTo x.dst k).isSome then s.close k none (s.client, []) else s
        | .tpcDecision _ _ => if x.delivered then s.close k none (s.client, []) else s
    | none => s
  | .fail k =>
    match s.calls[k]? with
    | some x =>
      if x.done then s
      else
        match x.req with
        | .tpcPrepare _ =>
          s.close k none (s.client.consumeTpcPrepare s.net.constants false (noReply k))
        | _ => s.close k none (s.client, [])
    | none => s
  | .server ev => if ev.fromClient then s else { s with net := s.net.step ev }

/-- The deployment that started fresh and went through the events `es`. -/
def run (c : Constants) (es : List SysEvent) : System := es.foldl step (fresh c)

theorem reach_run {ok : System → SysEvent → Prop} (c : Constants) {es : List SysEvent}
    (h : okRun step ok (fresh c) es) : Reach step ok (fresh c) (run c es) := Reach.start.foldl h

/-- What one step of the deployment does. -/
inductive Moves (s : System) : SysEvent → System → Prop
  | idle {ev} : Moves s ev s
  | submit (leaders : List Int) (t : Transaction) (tid : Int) :
      Moves s (.submit leaders t tid)
        { s with
          client := (s.client.processTransaction s.net.constants leaders t tid).1
          calls := s.calls ++
            (s.client.processTransaction s.net.constants leaders t tid).2.map ClientCall.new
          submitted := s.submitted ++ [{ txn := t, tid := tid }] }
  | deliver (k : Nat) (x : ClientCall) : s.calls[k]? = some x → x.delivered = false →
      Moves s (.deliver k)
        { s with
          net := s.net.step (.input x.dst (x.req.toInput k))
          calls := s.calls.modify k fun x => { x with delivered := true } }
  | vote (k : Nat) (x : ClientCall) (request : TransferReq) (reply : TransferRes) :
      s.calls[k]? = some x → x.done = false → x.req = .tpcPrepare request →
      reply ∈ (s.net.servers x.dst).replies → reply.call = k →
      Moves s (.complete k)
        (s.close k (if reply.tid = 0 then none else some reply.ack)
          (s.client.consumeTpcPrepare s.net.constants true reply))
  | close {ev} (k : Nat) (x : ClientCall) : s.calls[k]? = some x → x.done = false →
      Moves s ev (s.close k none (s.client, []))
  | server (ev : NetEvent) : ev.fromClient = false →
      Moves s (.server ev) { s with net := s.net.step ev }

theorem replyTo_some {s : System} {dst : Int} {k : Nat} {reply : TransferRes}
    (h : s.replyTo dst k = some reply) :
    reply ∈ (s.net.servers dst).replies ∧ reply.call = k := by
  refine ⟨List.mem_of_find?_eq_some h, ?_⟩
  simpa using List.find?_some h

theorem complete_moves (s : System) (k : Nat) : Moves s (.complete k) (s.step (.complete k)) := by
  simp only [step]
  split
  · rename_i x hx
    by_cases hdone : x.done = true
    · rw [if_pos hdone]
      exact .idle
    · rw [if_neg hdone]
      have hopen : x.done = false := by simpa using hdone
      split
      · rename_i request hreq
        split
        · rename_i reply hreply
          obtain ⟨hmem, hcall⟩ := replyTo_some hreply
          exact .vote k x request reply hx hopen hreq hmem hcall
        · exact .idle
      · split
        · exact .close k x hx hopen
        · exact .idle
      · split
        · exact .close k x hx hopen
        · exact .idle
  · exact .idle

theorem fail_moves (s : System) (k : Nat) : Moves s (.fail k) (s.step (.fail k)) := by
  simp only [step]
  split
  · rename_i x hx
    by_cases hdone : x.done = true
    · rw [if_pos hdone]
      exact .idle
    · rw [if_neg hdone]
      have hopen : x.done = false := by simpa using hdone
      split
      · exact .close k x hx hopen
      · exact .close k x hx hopen
  · exact .idle

/-- **Inversion of a step of the deployment.** -/
theorem step_moves (s : System) (ev : SysEvent) : Moves s ev (s.step ev) := by
  cases ev with
  | submit leaders t tid => exact .submit leaders t tid
  | deliver k =>
    simp only [step]
    split
    · rename_i x hx
      by_cases hdel : x.delivered = true
      · rw [if_pos hdel]
        exact .idle
      · rw [if_neg hdel]
        exact .deliver k x hx (by simpa using hdel)
    · exact .idle
  | complete k => exact s.complete_moves k
  | fail k => exact s.fail_moves k
  | server ev =>
    simp only [step]
    split
    · exact .idle
    · rename_i hev
      exact .server ev (by simpa using hev)

theorem moves_of_step {s s' : System} {ev : SysEvent} (h : s.step ev = s') : Moves s ev s' := h ▸ s.step_moves ev

/-- A step of the deployment is a step of the network, or leaves it alone. -/
theorem net_step (s : System) (ev : SysEvent) :
    (s.step ev).net = s.net ∨ ∃ ev', (s.step ev).net = s.net.step ev' := by
  generalize hs' : s.step ev = s'
  cases moves_of_step hs' with
  | deliver k x => exact .inr ⟨_, rfl⟩
  | server ev => exact .inr ⟨ev, rfl⟩
  | _ => exact .inl rfl

/-- So its network goes through a run of the network. -/
theorem net_reach {c : Constants} {ok : System → SysEvent → Prop} {s : System}
    (hr : Reach step ok (fresh c) s) : Reach Net.step (fun _ _ => True) (Net.fresh c) s.net := by
  refine hr.invariant (motive := fun s : System => Reach Net.step (fun _ _ => True) (Net.fresh c) s.net)
    .start ?_
  intro s ev _ h _
  rcases s.net_step ev with heq | ⟨ev', heq⟩
  · rw [heq]
    exact h
  · rw [heq]
    exact h.step trivial

end System

end MultiPaxosDB
