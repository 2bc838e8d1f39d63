/-
# MultiPaxosDB.Report — the latencies the client keeps, and the report it prints.

`TimedClient` is the class of `client.h` with all its fields: the table `processing` has the start of each transaction,
and beside it are the latencies, overall and by kind, with a counter.  Each reply that ends a transaction books one
latency, from one of two places in `consumeReplies`, each with its own clock and its own idea of the kind: a `TRANSFER`
reads the kind off the call, where a member variable has left it, and a `TPC_PREPARE` reads it off a table entry, which
`operator[]` would make up where there is none.

The coordinator of `Verdicts` is this client without the report (`refines_run`), which says when a transaction ends: with
its reply, or with the second vote on it.  `samples` lists these ends, and the report is exactly that list
(`report_exact`).  What `printPerformance` prints are order statistics of it (`performance_describes`).  Times are
integers and what is printed of them are rationals here, where the source has a `long` and a `double`.
-/
import Mathlib.Algebra.Order.BigOperators.Group.List
import Mathlib.Algebra.Order.Field.Basic
import Mathlib.Data.Rat.Cast.Order
import MultiPaxosDB.Lib.Ranks
import MultiPaxosDB.Verdicts

namespace MultiPaxosDB

open Lib

/-! ## `client.h` -/

/-- `Client::TpcPrepareRes`, all of it. -/
structure TimedPrepareRes extends TpcPrepareRes where
  startNs : Int
  isCrossShard : Bool
deriving DecidableEq, Repr

structure TimedClient where
  processing : TidMap TimedPrepareRes
  latencies : List Int
  intraLatencies : List Int
  crossLatencies : List Int
  currentIsCrossShard : Bool
  transactionsProcessed : Int
  wallStart : Int
  wallEnd : Int
  wallStarted : Bool

/-- `Client::ClientCall` before it ends, with the server it goes to.  (The flag is not set for a decision, nor read.) -/
structure TimedCall where
  dst : Int
  req : ClientReq
  isCrossShard : Bool
deriving DecidableEq, Repr

namespace TimedClient

/-- `Client::Client`. -/
def start : TimedClient where
  processing := ∅
  latencies := []
  intraLatencies := []
  crossLatencies := []
  currentIsCrossShard := false
  transactionsProcessed := 0
  wallStart := 0
  wallEnd := 0
  wallStarted := false

/-- One iteration of `Client::processTransactions`.  The tid is a reading of the system clock, `wall` and `startNs` are
readings of the steady one. -/
def processTransaction (c : Constants) (client : TimedClient) (leaders : List Int) (t : Transaction) (tid wall startNs : Int) :
    TimedClient × List TimedCall :=
  let senderCluster := getClusterIdFromClientId c t.sender
  let receiverCluster := getClusterIdFromClientId c t.receiver
  let senderLeader := Client.leaderOf leaders senderCluster
  let receiverLeader := Client.leaderOf leaders receiverCluster
  let flagged := { client with currentIsCrossShard := decide (senderCluster ≠ receiverCluster) }
  let request : TransferReq := { txn := t, tid := tid }
  let started := if flagged.wallStarted then flagged else { flagged with wallStart := wall, wallStarted := true }
  if senderCluster = receiverCluster then
    (started, [{ dst := senderLeader, req := .transfer request, isCrossShard := started.currentIsCrossShard }])
  else
    ({ started with
        processing := started.processing.insert tid
          { txn := t, successes := 0, failures := 0, startNs := startNs, isCrossShard := true } },
     [{ dst := senderLeader, req := .tpcPrepare request, isCrossShard := started.currentIsCrossShard },
      { dst := receiverLeader, req := .tpcPrepare request, isCrossShard := started.currentIsCrossShard }])

/-- A transaction has ended. -/
def book (client : TimedClient) (latency : Int) (isCrossShard : Bool) (wall : Int) : TimedClient :=
  { client with
    wallEnd := wall
    latencies := client.latencies ++ [latency]
    crossLatencies := if isCrossShard then client.crossLatencies ++ [latency] else client.crossLatencies
    intraLatencies := if isCrossShard then client.intraLatencies else client.intraLatencies ++ [latency]
    transactionsProcessed := client.transactionsProcessed + 1 }

/-- `processing[tid]`: an absent entry reads as zeros. -/
def entryOf (client : TimedClient) (tid : Int) : TimedPrepareRes :=
  client.processing[tid]?.getD
    { txn := ⟨0, 0, 0⟩, successes := 0, failures := 0, startNs := 0, isCrossShard := false }

/-- The entry of the transaction that a reply names, with the vote counted. -/
def counted (client : TimedClient) (statusOk : Bool) (reply : TransferRes) : TimedPrepareRes :=
  { client.entryOf reply.tid with
    toTpcPrepareRes := Client.countVote (client.entryOf reply.tid).toTpcPrepareRes statusOk reply.ack }

/-- The branch of `consumeReplies` for a `TPC_PREPARE`. -/
def consumeTpcPrepare (c : Constants) (client : TimedClient) (statusOk : Bool) (reply : TransferRes) (now wall : Int) :
    TimedClient × List TimedCall :=
  if reply.tid = 0 then (client, [])
  else
    let entry := client.counted statusOk reply
    let commit := entry.successes == 2
    let abort := decide (entry.failures > 0) && entry.successes + entry.failures == 2
    if commit || abort then
      ({ client.book (now - entry.startNs) entry.isCrossShard wall with
          processing := client.processing.erase reply.tid },
       (Client.broadcast c reply.tid commit (getClusterIdFromClientId c entry.txn.sender)
          (getClusterIdFromClientId c entry.txn.receiver)).map fun p =>
            { dst := p.1, req := p.2, isCrossShard := false })
    else ({ client with processing := client.processing.insert reply.tid entry }, [])

/-- One turn of `Client::consumeReplies`: a call ends.  `now` is a reading of the system clock for a transfer and of the
steady one for a prepare; `wall` is one of the steady clock. -/
def consumeReply (c : Constants) (client : TimedClient) (call : TimedCall) (ok statusOk : Bool) (reply : TransferRes)
    (now wall : Int) : TimedClient × List TimedCall :=
  if !ok then (client, [])
  else
    match call.req with
    | .transfer _ =>
      if statusOk then (client.book (now - reply.tid) call.isCrossShard wall, []) else (client, [])
    | .tpcPrepare _ => client.consumeTpcPrepare c statusOk reply now wall
    | .tpcDecision _ _ => (client, [])

end TimedClient

inductive TimedEvent
  | submit (leaders : List Int) (txn : Transaction) (tid wall startNs : Int)
  | done (call : TimedCall) (ok statusOk : Bool) (reply : TransferRes) (now wall : Int)
deriving DecidableEq, Repr

namespace TimedClient

def handle (c : Constants) (client : TimedClient) : TimedEvent → TimedClient × List TimedCall
  | .submit leaders txn tid wall startNs => client.processTransaction c leaders txn tid wall startNs
  | .done call ok statusOk reply now wall => client.consumeReply c call ok statusOk reply now wall

def run (c : Constants) (es : List TimedEvent) : TimedClient := es.foldl (fun client e => (client.handle c e).1) start

theorem run_concat (c : Constants) (past : List TimedEvent) (e : TimedEvent) :
    run c (past ++ [e]) = ((run c past).handle c e).1 := by
  rw [run, List.foldl_append]
  rfl

/-! ## Runs -/

/-- The event as the coordinator sees it. -/
def untimed : TimedEvent → Option ClientEvent
  | .submit leaders txn tid _ _ => some (.submit leaders txn tid)
  | .done call ok statusOk reply _ _ =>
    match call.req with
    | .tpcPrepare request => if ok then some (.complete request.tid statusOk reply) else none
    | _ => none

/-- The call that an event ends. -/
def ended : TimedEvent → List TimedCall
  | .submit _ _ _ _ _ => []
  | .done call _ _ _ _ _ => [call]

/-- The run as the coordinator sees it. -/
def seen (past : List TimedEvent) : List ClientEvent := past.filterMap untimed

/-- The calls that have been started so far. -/
def calls (c : Constants) (past : List TimedEvent) : List TimedCall :=
  outputs (fun client e => (handle c client e).1) (fun client e => (handle c client e).2) start past

/-- The calls that have ended so far. -/
def ends (past : List TimedEvent) : List TimedCall := past.flatMap ended

/-- The call is a `TpcCommit` or a `TpcAbort`, which return nothing. -/
def decides (call : TimedCall) : Bool :=
  match call.req with
  | .tpcDecision _ _ => true
  | _ => false

/-- What may happen after `past`: a submission under a new tid, or the end of a call that was started and has not ended
yet.  A reply names its own transaction or, if the call failed, none. -/
def Admissible (c : Constants) (past : List TimedEvent) : TimedEvent → Prop
  | .submit _ _ tid _ _ => tid ≠ 0 ∧ tid ∉ Client.tids (seen past)
  | .done call _ statusOk reply _ _ => (ends past).count call < (calls c past).count call ∧
      (decides call = true ∨ reply.tid = call.req.tid ∨ (reply.tid = 0 ∧ statusOk = false))

instance (c : Constants) (past : List TimedEvent) : (e : TimedEvent) → Decidable (Admissible c past e)
  | .submit _ _ tid _ _ => inferInstanceAs (Decidable (tid ≠ 0 ∧ tid ∉ Client.tids (seen past)))
  | .done call _ statusOk reply _ _ => inferInstanceAs (Decidable ((ends past).count call < (calls c past).count call ∧
      (decides call = true ∨ reply.tid = call.req.tid ∨ (reply.tid = 0 ∧ statusOk = false))))

def Legal (c : Constants) (es : List TimedEvent) : Prop := okRun (fun past e => past ++ [e]) (Admissible c) [] es

instance (c : Constants) (es : List TimedEvent) : Decidable (Legal c es) := inferInstanceAs (Decidable (okRun _ _ _ _))

variable {c : Constants} {es past : List TimedEvent} {e : TimedEvent}

theorem foldl_past (es past : List TimedEvent) : es.foldl (fun past e => past ++ [e]) past = past ++ es := by
  rw [List.foldl_append_eq_append, ← List.flatMap_def, List.flatMap_singleton']

theorem legal_concat : Legal c (past ++ [e]) ↔ Legal c past ∧ Admissible c past e := by
  unfold Legal
  rw [okRun_append, foldl_past, List.nil_append]
  simp only [okRun, and_true]

/-! ## Which calls there are -/

/-- The call is a `Transfer` of `t`. -/
def transfers (t : Int) (call : TimedCall) : Bool :=
  match call.req with
  | .transfer request => request.tid == t
  | _ => false

/-- The call is a `TpcPrepare` of `t`. -/
def prepares (t : Int) (call : TimedCall) : Bool :=
  match call.req with
  | .tpcPrepare request => request.tid == t
  | _ => false

/-- What a submission starts: one `Transfer`, or two `TpcPrepare`s. -/
theorem calls_processTransaction (c : Constants) (client : TimedClient) (leaders : List Int) (txn : Transaction)
    (tid wall startNs : Int) :
    (client.processTransaction c leaders txn tid wall startNs).2 =
      if Client.crossShard c txn then
        [{ dst := Client.leaderOf leaders (getClusterIdFromClientId c txn.sender), req := .tpcPrepare ⟨txn, tid⟩,
           isCrossShard := true },
         { dst := Client.leaderOf leaders (getClusterIdFromClientId c txn.receiver), req := .tpcPrepare ⟨txn, tid⟩,
           isCrossShard := true }]
      else [{ dst := Client.leaderOf leaders (getClusterIdFromClientId c txn.sender), req := .transfer ⟨txn, tid⟩,
              isCrossShard := false }] := by
  unfold processTransaction Client.crossShard
  by_cases hcross : getClusterIdFromClientId c txn.sender = getClusterIdFromClientId c txn.receiver <;>
    by_cases hstarted : client.wallStarted = true <;> simp [hcross, hstarted]

/-- What a reply starts: decisions. -/
theorem calls_consumeReply (c : Constants) (client : TimedClient) (call : TimedCall) (ok statusOk : Bool)
    (reply : TransferRes) (now wall : Int) :
    ∀ call' ∈ (client.consumeReply c call ok statusOk reply now wall).2, ∃ tid isCommit,
      call'.req = .tpcDecision tid isCommit := by
  have hprepare : ∀ call' ∈ (client.consumeTpcPrepare c statusOk reply now wall).2, ∃ tid isCommit,
      call'.req = .tpcDecision tid isCommit := by
    unfold consumeTpcPrepare Client.broadcast
    intro call' hcall
    split at hcall
    · cases hcall
    · dsimp only at hcall
      split at hcall
      · simp only [List.mem_map] at hcall
        obtain ⟨_, ⟨id, -, rfl⟩, rfl⟩ := hcall
        exact ⟨_, _, rfl⟩
      · cases hcall
  intro call' hcall
  unfold consumeReply at hcall
  split at hcall
  · cases hcall
  · split at hcall
    · split at hcall <;> cases hcall
    · exact hprepare call' hcall
    · cases hcall

theorem seen_concat (past : List TimedEvent) (e : TimedEvent) : seen (past ++ [e]) = seen past ++ (untimed e).toList := by
  rw [seen, List.filterMap_append, ← seen]
  cases h : untimed e <;> simp [h]

theorem calls_concat (c : Constants) (past : List TimedEvent) (e : TimedEvent) :
    calls c (past ++ [e]) = calls c past ++ ((run c past).handle c e).2 :=
  outputs_concat _ _ _ _

theorem ends_concat (past : List TimedEvent) (e : TimedEvent) : ends (past ++ [e]) = ends past ++ ended e := by
  simp [ends]

theorem tid_of_prepares {t : Int} {call : TimedCall} (h : prepares t call = true) :
    ∃ request, call.req = .tpcPrepare request ∧ request.tid = t := by
  unfold prepares at h
  split at h
  · exact ⟨_, ‹_›, by simpa using h⟩
  · cases h

theorem tid_of_transfers {t : Int} {call : TimedCall} (h : transfers t call = true) :
    ∃ request, call.req = .transfer request ∧ request.tid = t := by
  unfold transfers at h
  split at h
  · exact ⟨_, ‹_›, by simpa using h⟩
  · cases h

/-- Each of the calls is of a transaction that was submitted, of the one kind or the other; and a tid has one `Transfer`
or two `TpcPrepare`s. -/
structure Started (c : Constants) (calls : List TimedCall) (seen : List ClientEvent) : Prop where
  transfer : ∀ call ∈ calls, ∀ request, call.req = .transfer request → call.isCrossShard = false ∧
    request.tid ∈ Client.tids seen ∧ Client.submitted c seen request.tid = none
  prepare : ∀ call ∈ calls, ∀ request, call.req = .tpcPrepare request →
    Client.submitted c seen request.tid = some request.txn
  once : ∀ t, calls.countP (transfers t) ≤ 1
  twice : ∀ t, calls.countP (prepares t) ≤ 2

section Started

variable {cs cs' : List TimedCall} {ev ev' : List ClientEvent}

/-- A tid that was not submitted has no call. -/
theorem Started.countP_eq_zero (h : Started c cs ev) (hlegal : Client.Legal c ev) {t : Int} (ht : t ∉ Client.tids ev) :
    cs.countP (transfers t) = 0 ∧ cs.countP (prepares t) = 0 := by
  constructor
  · refine List.countP_eq_zero.mpr fun call hcall htransfer => ht ?_
    obtain ⟨request, hreq, rfl⟩ := tid_of_transfers htransfer
    exact (h.transfer call hcall request hreq).2.1
  · refine List.countP_eq_zero.mpr fun call hcall hprepare => ht ?_
    obtain ⟨request, hreq, rfl⟩ := tid_of_prepares hprepare
    exact (hlegal.submitted_tid (h.prepare call hcall request hreq)).1

/-- New calls of tids that had none, where the old submissions stay as they were. -/
theorem Started.append (h : Started c cs ev) (hlegal : Client.Legal c ev) (htids : Client.tids ev ⊆ Client.tids ev')
    (hkept : ∀ t ∈ Client.tids ev, Client.submitted c ev' t = Client.submitted c ev t) (hnew : Started c cs' ev')
    (hapart : ∀ t ∈ Client.tids ev, cs'.countP (transfers t) = 0 ∧ cs'.countP (prepares t) = 0) :
    Started c (cs ++ cs') ev' := by
  refine ⟨?_, ?_, ?_, ?_⟩
  · intro call hcall request hreq
    rcases List.mem_append.mp hcall with hold | hlast
    · obtain ⟨hflag, hmem, hintra⟩ := h.transfer call hold request hreq
      exact ⟨hflag, htids hmem, (hkept _ hmem).trans hintra⟩
    · exact hnew.transfer call hlast request hreq
  · intro call hcall request hreq
    rcases List.mem_append.mp hcall with hold | hlast
    · have hs := h.prepare call hold request hreq
      exact (hkept _ (hlegal.submitted_tid hs).1).trans hs
    · exact hnew.prepare call hlast request hreq
  · intro t
    rw [List.countP_append]
    by_cases ht : t ∈ Client.tids ev
    · rw [(hapart t ht).1]
      exact h.once t
    · rw [(h.countP_eq_zero hlegal ht).1, Nat.zero_add]
      exact hnew.once t
  · intro t
    rw [List.countP_append]
    by_cases ht : t ∈ Client.tids ev
    · rw [(hapart t ht).2]
      exact h.twice t
    · rw [(h.countP_eq_zero hlegal ht).2, Nat.zero_add]
      exact hnew.twice t

/-- A submission under a new tid adds one `Transfer` or two `TpcPrepare`s of it. -/
theorem Started.submit (h : Started c cs ev) (hlegal : Client.Legal c ev) (client : TimedClient) (leaders : List Int)
    (txn : Transaction) {tid : Int} (wall startNs : Int) (hnew : tid ∉ Client.tids ev) :
    Started c (cs ++ (client.processTransaction c leaders txn tid wall startNs).2) (ev ++ [.submit leaders txn tid]) := by
  have htids : Client.tids (ev ++ [.submit leaders txn tid]) = Client.tids ev ++ [tid] := by simp [Client.tids]
  have hself : Client.submitted c (ev ++ [.submit leaders txn tid]) tid = if Client.crossShard c txn then some txn else none := by
    have hnone : Client.submitted c ev tid = none := by
      by_contra hsome
      obtain ⟨txn', hs⟩ := Option.ne_none_iff_exists'.mp hsome
      exact hnew (hlegal.submitted_tid hs).1
    rw [Client.submitted_snoc, hnone, Option.none_or]
    simp [Client.submits]
  have hother : ∀ t ∈ Client.tids ev, tid ≠ t := fun t ht heq => hnew (heq ▸ ht)
  rw [calls_processTransaction]
  refine h.append hlegal (htids ▸ List.subset_append_left _ _) ?_ ?_ ?_
  · intro t ht
    rw [Client.submitted_snoc]
    simp [Client.submits, hother t ht]
  · cases hcross : Client.crossShard c txn with
    | true =>
      refine ⟨?_, ?_, ?_, ?_⟩
      · simp
      · simp [hself, hcross]
      · simp [transfers]
      · exact fun t => List.countP_le_length
    | false =>
      refine ⟨?_, ?_, ?_, ?_⟩
      · simp [hself, hcross, htids]
      · simp
      · exact fun t => List.countP_le_length
      · simp [prepares]
  · intro t ht
    split <;> simp [transfers, prepares, hother t ht]

/-- The end of a call submits nothing, and a decision is of neither kind. -/
theorem Started.done (h : Started c cs ev) (hlegal : Client.Legal c ev)
    (hdecision : ∀ call ∈ cs', ∃ tid isCommit, call.req = .tpcDecision tid isCommit)
    (htids : Client.tids ev' = Client.tids ev) (hsubmitted : ∀ t, Client.submitted c ev' t = Client.submitted c ev t) :
    Started c (cs ++ cs') ev' := by
  have hnone : ∀ t, cs'.countP (transfers t) = 0 ∧ cs'.countP (prepares t) = 0 := by
    intro t
    constructor
    · refine List.countP_eq_zero.mpr fun call hcall => ?_
      obtain ⟨tid, isCommit, hreq⟩ := hdecision call hcall
      simp [transfers, hreq]
    · refine List.countP_eq_zero.mpr fun call hcall => ?_
      obtain ⟨tid, isCommit, hreq⟩ := hdecision call hcall
      simp [prepares, hreq]
  refine h.append hlegal (htids ▸ List.Subset.refl _) (fun t _ => hsubmitted t) ⟨?_, ?_, ?_, ?_⟩ fun t _ => hnone t
  · intro call hcall request hreq
    obtain ⟨tid, isCommit, hreq'⟩ := hdecision call hcall
    rw [hreq] at hreq'
    cases hreq'
  · intro call hcall request hreq
    obtain ⟨tid, isCommit, hreq'⟩ := hdecision call hcall
    rw [hreq] at hreq'
    cases hreq'
  · exact fun t => (hnone t).1.trans_le (Nat.zero_le _)
  · exact fun t => (hnone t).2.trans_le (Nat.zero_le _)

end Started

/-- A legal run, as calls and as the coordinator sees it. -/
structure Traced (c : Constants) (past : List TimedEvent) : Prop where
  started : Started c (calls c past) (seen past)
  /-- No call ends that was not started. -/
  ended : (ends past).Subperm (calls c past)
  legal : Client.Legal c (seen past)
  completions : ∀ t, (Client.completions (seen past) t).length ≤ (ends past).countP (prepares t)

theorem Traced.submit (h : Traced c past) {leaders : List Int} {txn : Transaction} {tid wall startNs : Int}
    (hok : Admissible c past (.submit leaders txn tid wall startNs)) :
    Traced c (past ++ [.submit leaders txn tid wall startNs]) := by
  have hseen : seen (past ++ [.submit leaders txn tid wall startNs]) = seen past ++ [.submit leaders txn tid] :=
    seen_concat past _
  have hends : ends (past ++ [.submit leaders txn tid wall startNs]) = ends past := by
    rw [ends_concat]
    exact List.append_nil _
  refine ⟨?_, ?_, ?_, ?_⟩
  · rw [hseen, calls_concat]
    exact h.started.submit h.legal _ leaders txn wall startNs hok.2
  · rw [hends, calls_concat]
    exact h.ended.trans (List.sublist_append_left _ _).subperm
  · rw [hseen]
    exact Client.legal_snoc.mpr ⟨h.legal, hok⟩
  · intro t
    rw [hseen, hends, Client.completions_snoc]
    simpa [Client.completions] using h.completions t

/-- The end of a call, which the coordinator may see as the end of a `TpcPrepare`. -/
theorem Traced.done (h : Traced c past) {call : TimedCall} {ok statusOk : Bool} {reply : TransferRes} {now wall : Int}
    (hok : Admissible c past (.done call ok statusOk reply now wall)) :
    Traced c (past ++ [.done call ok statusOk reply now wall]) := by
  obtain ⟨hopen, hname⟩ := hok
  have hmem : call ∈ calls c past := List.count_pos_iff.mp (by omega)
  have hends : ends (past ++ [.done call ok statusOk reply now wall]) = ends past ++ [call] := ends_concat past _
  have hended : (ends past ++ [call]).Subperm (calls c past) := by
    refine List.subperm_ext_iff.mpr fun call' _ => ?_
    rw [List.count_append, List.count_singleton]
    have hcount := h.ended.count_le call'
    split
    · rename_i heq
      obtain rfl : call = call' := by simpa using heq
      omega
    · omega
  have hstarted : ∀ {ev}, Client.tids ev = Client.tids (seen past) →
      (∀ t, Client.submitted c ev t = Client.submitted c (seen past) t) →
      Started c (calls c (past ++ [.done call ok statusOk reply now wall])) ev := by
    intro ev htids hsubmitted
    rw [calls_concat]
    exact h.started.done h.legal ((run c past).calls_consumeReply c call ok statusOk reply now wall) htids hsubmitted
  have hsub : (ends (past ++ [.done call ok statusOk reply now wall])).Subperm
      (calls c (past ++ [.done call ok statusOk reply now wall])) := by
    rw [hends, calls_concat]
    exact hended.trans (List.sublist_append_left _ _).subperm
  by_cases hcompletes : ∃ request, call.req = .tpcPrepare request ∧ ok = true
  · obtain ⟨request, hreq, rfl⟩ := hcompletes
    have hseen : seen (past ++ [.done call true statusOk reply now wall]) =
        seen past ++ [.complete request.tid statusOk reply] := by
      rw [seen_concat]
      simp [untimed, hreq]
    have hself : prepares request.tid call = true := by simp [prepares, hreq]
    -- two calls of the tid were started, so at most one has ended before
    have hless : (Client.completions (seen past) request.tid).length < 2 := by
      have htwo := hended.countP_le (prepares request.tid)
      rw [List.countP_append, List.countP_singleton, if_pos hself] at htwo
      have hbound := h.completions request.tid
      have htwice := h.started.twice request.tid
      omega
    refine ⟨?_, hsub, ?_, ?_⟩
    · rw [hseen]
      refine hstarted (by simp [Client.tids]) fun t => ?_
      rw [Client.submitted_snoc]
      exact Option.or_none
    · rw [hseen]
      refine Client.legal_snoc.mpr ⟨h.legal, ?_, hless, ?_⟩
      · rw [h.started.prepare call hmem request hreq]
        rfl
      · rcases hname with hdecides | hname | ⟨hname, -⟩
        · simp [decides, hreq] at hdecides
        · rw [hreq] at hname
          exact .inl hname
        · exact .inr hname
    · intro t
      rw [hseen, hends, Client.completions_snoc, List.length_append, List.countP_append, List.countP_singleton]
      have hbound := h.completions t
      by_cases ht : request.tid = t
      · have hlast : prepares t call = true := ht ▸ hself
        simp only [Client.completions, List.filterMap_cons, List.filterMap_nil, if_pos ht, hlast, if_true,
          List.length_singleton] at hbound ⊢
        omega
      · simp only [Client.completions, List.filterMap_cons, List.filterMap_nil, if_neg ht, List.length_nil] at hbound ⊢
        omega
  · have hseen : seen (past ++ [.done call ok statusOk reply now wall]) = seen past := by
      rw [seen_concat]
      have hnone : untimed (.done call ok statusOk reply now wall) = none := by
        cases hreq : call.req with
        | tpcPrepare request =>
          cases ok with
          | true => exact absurd ⟨request, hreq, rfl⟩ hcompletes
          | false => simp [untimed, hreq]
        | transfer | tpcDecision => simp [untimed, hreq]
      rw [hnone]
      exact List.append_nil _
    refine ⟨?_, hsub, hseen.symm ▸ h.legal, ?_⟩
    · rw [hseen]
      exact hstarted rfl fun t => rfl
    · intro t
      rw [hseen, hends, List.countP_append]
      exact (h.completions t).trans (Nat.le_add_right _ _)

theorem Legal.traced (h : Legal c past) : Traced c past := by
  induction past using List.reverseRecOn with
  | nil =>
    exact ⟨⟨fun _ hcall => absurd hcall List.not_mem_nil, fun _ hcall => absurd hcall List.not_mem_nil,
      fun _ => Nat.zero_le _, fun _ => Nat.zero_le _⟩, List.Subperm.refl _, trivial, fun _ => le_rfl⟩
  | append_singleton past e ih =>
    obtain ⟨hpast, hok⟩ := legal_concat.mp h
    cases e with
    | submit leaders txn tid wall startNs => exact (ih hpast).submit hok
    | done call ok statusOk reply now wall => exact (ih hpast).done hok

/-! ## The coordinator -/

/-- The client without the report. -/
def coordinator (client : TimedClient) : Client where
  processing := client.processing.map fun _ entry => entry.toTpcPrepareRes

theorem processing_coordinator (client : TimedClient) (t : Int) :
    client.coordinator.processing[t]? = client.processing[t]?.map fun entry => entry.toTpcPrepareRes :=
  Std.ExtTreeMap.getElem?_map

theorem entryOf_coordinator (client : TimedClient) (t : Int) :
    client.coordinator.entryOf t = (client.entryOf t).toTpcPrepareRes := by
  rw [Client.entryOf, processing_coordinator, entryOf]
  cases client.processing[t]? <;> rfl

/-- The branch for a `TPC_PREPARE`, by the verdict of the coordinator. -/
theorem consumeTpcPrepare_eq (c : Constants) (client : TimedClient) (statusOk : Bool) {reply : TransferRes} (now wall : Int)
    (h : reply.tid ≠ 0) :
    (client.consumeTpcPrepare c statusOk reply now wall).1 =
      match client.coordinator.verdict statusOk reply with
      | none => { client with processing := client.processing.insert reply.tid (client.counted statusOk reply) }
      | some _ => { client.book (now - (client.counted statusOk reply).startNs)
            (client.counted statusOk reply).isCrossShard wall with
          processing := client.processing.erase reply.tid } := by
  have hcount : Client.countVote (client.coordinator.entryOf reply.tid) statusOk reply.ack =
      (client.counted statusOk reply).toTpcPrepareRes := by
    rw [entryOf_coordinator]
    rfl
  unfold consumeTpcPrepare Client.verdict
  rw [hcount, if_neg h, if_neg h]
  generalize client.counted statusOk reply = entry
  by_cases hcommit : entry.successes = 2
  · simp [hcommit]
  · by_cases habort : entry.failures > 0 ∧ entry.successes + entry.failures = 2
    · simp [hcommit, habort]
    · rw [if_neg hcommit, if_neg habort, if_neg]
      simp only [Bool.or_eq_true, beq_iff_eq, Bool.and_eq_true, decide_eq_true_eq, not_or]
      exact ⟨hcommit, habort⟩

section Map

variable {client client' : TimedClient}

theorem coordinator_eq_iff {k : Client} :
    client.coordinator = k ↔ ∀ t : Int, client.processing[t]?.map (fun entry => entry.toTpcPrepareRes) = k.processing[t]? := by
  constructor
  · rintro rfl t
    exact (client.processing_coordinator t).symm
  · intro h
    refine congrArg Client.mk (Std.ExtTreeMap.ext_getElem? fun t => ?_)
    rw [← h t]
    exact client.processing_coordinator t

theorem coordinator_insert (tid : Int) (entry : TimedPrepareRes)
    (h : client'.processing = client.processing.insert tid entry) :
    client'.coordinator = { processing := client.coordinator.processing.insert tid entry.toTpcPrepareRes } := by
  refine coordinator_eq_iff.mpr fun t => ?_
  rw [h, WAL.getElem?_insert_tid, WAL.getElem?_insert_tid, processing_coordinator]
  split <;> rfl

theorem coordinator_erase {tid : Int} (h : client'.processing = client.processing.erase tid) :
    client'.coordinator = { processing := client.coordinator.processing.erase tid } := by
  refine coordinator_eq_iff.mpr fun t => ?_
  rw [h, WAL.getElem?_erase_tid, WAL.getElem?_erase_tid, processing_coordinator]
  split <;> rfl

end Map

theorem processing_processTransaction (c : Constants) (client : TimedClient) (leaders : List Int) (txn : Transaction)
    (tid wall startNs : Int) :
    (client.processTransaction c leaders txn tid wall startNs).1.processing =
      if Client.crossShard c txn then client.processing.insert tid
        { txn := txn, successes := 0, failures := 0, startNs := startNs, isCrossShard := true }
      else client.processing := by
  unfold processTransaction Client.crossShard
  by_cases hcross : getClusterIdFromClientId c txn.sender = getClusterIdFromClientId c txn.receiver <;>
    by_cases hstarted : client.wallStarted = true <;> simp [hcross, hstarted]

theorem coordinator_consumeTpcPrepare (c : Constants) (client : TimedClient) (statusOk : Bool) (reply : TransferRes)
    (now wall : Int) : (client.consumeTpcPrepare c statusOk reply now wall).1.coordinator =
      (client.coordinator.consumeTpcPrepare c statusOk reply).1 := by
  by_cases h0 : reply.tid = 0
  · rw [Client.consumeTpcPrepare_unnamed c _ h0, consumeTpcPrepare, if_pos h0]
  · rw [Client.consumeTpcPrepare_eq c _ _ h0, consumeTpcPrepare_eq c _ _ _ _ h0, entryOf_coordinator]
    cases client.coordinator.verdict statusOk reply with
    | none => exact coordinator_insert reply.tid (client.counted statusOk reply) rfl
    | some isCommit => exact coordinator_erase rfl

/-- One event, seen by the coordinator. -/
theorem coordinator_handle (c : Constants) (client : TimedClient) (e : TimedEvent) :
    (client.handle c e).1.coordinator =
      (untimed e).elim client.coordinator fun e' => (client.coordinator.handle c e').1 := by
  cases e with
  | submit leaders txn tid wall startNs =>
    have hprocessing := client.processing_processTransaction c leaders txn tid wall startNs
    by_cases hcross : getClusterIdFromClientId c txn.sender = getClusterIdFromClientId c txn.receiver
    · rw [if_neg (by simp [Client.crossShard, hcross])] at hprocessing
      simp only [untimed, Option.elim_some, Client.handle, Client.processTransaction, if_pos hcross]
      exact congrArg (fun m => Client.mk (m.map fun _ entry => entry.toTpcPrepareRes)) hprocessing
    · rw [if_pos (by simp [Client.crossShard, hcross])] at hprocessing
      simp only [untimed, Option.elim_some, Client.handle, Client.processTransaction, if_neg hcross]
      exact coordinator_insert tid _ hprocessing
  | done call ok statusOk reply now wall =>
    cases ok with
    | false =>
      cases hreq : call.req <;> simp [handle, consumeReply, untimed, hreq]
    | true =>
      cases hreq : call.req with
      | tpcPrepare request =>
        simp only [handle, consumeReply, untimed, hreq, Client.handle]
        exact coordinator_consumeTpcPrepare c client statusOk reply now wall
      | transfer request =>
        simp only [handle, consumeReply, untimed, hreq, Option.elim_none]
        cases statusOk <;> rfl
      | tpcDecision tid isCommit => simp [handle, consumeReply, untimed, hreq]

/-- **The report is an addition**: without it the client is the coordinator. -/
theorem refines_run (c : Constants) (es : List TimedEvent) : (run c es).coordinator = Client.run c (seen es) := by
  induction es using List.reverseRecOn with
  | nil => exact coordinator_eq_iff.mpr fun t => rfl
  | append_singleton past e ih =>
    rw [run_concat, coordinator_handle, ih, seen_concat]
    cases untimed e with
    | none => rw [Option.toList_none, List.append_nil, Option.elim_none]
    | some e' => rw [Option.toList_some, Client.run_snoc, Option.elim_some]

/-! ## What there is to report -/

/-- A transaction that has ended. -/
structure Sample where
  tid : Int
  isCrossShard : Bool
  latency : Int
  wall : Int
deriving DecidableEq, Repr

/-- When the transaction with this tid was submitted. -/
def startOf (past : List TimedEvent) (t : Int) : Option Int :=
  past.findSome? fun
    | .submit _ _ tid _ startNs => if tid = t then some startNs else none
    | .done _ _ _ _ _ _ => none

/-- The transaction that ends with an event: an intra-shard one with its answer, a cross-shard one with the second vote
on it.  The first is timed from its tid, the second from its submission. -/
def sample (past : List TimedEvent) : TimedEvent → Option Sample
  | .submit _ _ _ _ _ => none
  | .done call ok statusOk reply now wall =>
    match call.req with
    | .transfer request =>
      if ok = true ∧ statusOk = true then some ⟨request.tid, false, now - request.tid, wall⟩ else none
    | .tpcPrepare request =>
      if ok = true ∧ reply.tid = request.tid ∧ (Client.votes (seen past) request.tid).length = 1 then
        some ⟨request.tid, true, now - (startOf past request.tid).getD 0, wall⟩
      else none
    | .tpcDecision _ _ => none

/-- The transactions that have ended in a run, in the order in which they did. -/
def samples (es : List TimedEvent) : List Sample :=
  outputs (fun past e => past ++ [e]) (fun past e => (sample past e).toList) [] es

theorem samples_concat (past : List TimedEvent) (e : TimedEvent) :
    samples (past ++ [e]) = samples past ++ (sample past e).toList := by
  rw [samples, outputs_concat, foldl_past]
  rfl

/-- The report is on these transactions. -/
structure Booked (client : TimedClient) (xs : List Sample) : Prop where
  latencies : client.latencies = xs.map Sample.latency
  intra : client.intraLatencies = (xs.filter fun x => !x.isCrossShard).map Sample.latency
  cross : client.crossLatencies = (xs.filter fun x => x.isCrossShard).map Sample.latency
  processed : client.transactionsProcessed = xs.length
  wallEnd : client.wallEnd = (xs.getLast?.map Sample.wall).getD 0

theorem Booked.book {client : TimedClient} {xs : List Sample} (h : Booked client xs) (x : Sample) :
    Booked (client.book x.latency x.isCrossShard x.wall) (xs ++ [x]) := by
  obtain ⟨tid, isCrossShard, latency, wall⟩ := x
  refine ⟨?_, ?_, ?_, ?_, ?_⟩
  · simp [TimedClient.book, h.latencies]
  · cases isCrossShard <;> simp [TimedClient.book, h.intra]
  · cases isCrossShard <;> simp [TimedClient.book, h.cross]
  · simp [TimedClient.book, h.processed]
  · simp [TimedClient.book]

/-- Nothing else reads or writes the report. -/
theorem Booked.processing {client : TimedClient} {xs : List Sample} (h : Booked client xs) (m : TidMap TimedPrepareRes) :
    Booked { client with processing := m } xs :=
  ⟨h.latencies, h.intra, h.cross, h.processed, h.wallEnd⟩

theorem Booked.processTransaction {client : TimedClient} {xs : List Sample} (h : Booked client xs) (c : Constants)
    (leaders : List Int) (txn : Transaction) (tid wall startNs : Int) :
    Booked (client.processTransaction c leaders txn tid wall startNs).1 xs := by
  unfold TimedClient.processTransaction
  dsimp only
  split <;> split <;> exact ⟨h.latencies, h.intra, h.cross, h.processed, h.wallEnd⟩

/-- The report is right, and every entry of the table has what the next line of it needs. -/
structure Reports (client : TimedClient) (past : List TimedEvent) : Prop where
  booked : Booked client (samples past)
  entries : ∀ (t : Int) entry, client.processing[t]? = some entry →
    entry.isCrossShard = true ∧ startOf past t = some entry.startNs

theorem startOf_concat (past : List TimedEvent) (e : TimedEvent) (t : Int) :
    startOf (past ++ [e]) t = (startOf past t).or (startOf [e] t) := by
  rw [startOf, List.findSome?_append]
  rfl

/-- What has a start was submitted. -/
theorem mem_tids_of_startOf {t ns : Int} (h : startOf past t = some ns) : t ∈ Client.tids (seen past) := by
  obtain ⟨e, he, hsome⟩ := List.exists_of_findSome?_eq_some h
  cases e with
  | submit leaders txn tid wall startNs =>
    by_cases ht : tid = t
    · subst ht
      refine List.mem_filterMap.mpr ⟨.submit leaders txn tid, ?_, rfl⟩
      exact List.mem_filterMap.mpr ⟨_, he, rfl⟩
    · simp [ht] at hsome
  | done call ok statusOk reply now wall => cases hsome

theorem Reports.submit {client : TimedClient} (h : Reports client past) (leaders : List Int) (txn : Transaction) {tid : Int}
    (wall startNs : Int) (hnew : tid ∉ Client.tids (seen past)) :
    Reports (client.processTransaction c leaders txn tid wall startNs).1
      (past ++ [.submit leaders txn tid wall startNs]) := by
  refine ⟨?_, ?_⟩
  · rw [samples_concat]
    exact (List.append_nil (samples past)).symm ▸ h.booked.processTransaction c leaders txn tid wall startNs
  · intro t entry hentry
    rw [processing_processTransaction] at hentry
    rw [startOf_concat]
    have hold : client.processing[t]? = some entry → entry.isCrossShard = true ∧
        (startOf past t).or (startOf [.submit leaders txn tid wall startNs] t) = some entry.startNs := by
      intro hentry
      obtain ⟨hcross, hstart⟩ := h.entries t entry hentry
      rw [hstart]
      exact ⟨hcross, rfl⟩
    split at hentry
    · rw [WAL.getElem?_insert_tid] at hentry
      split at hentry
      · rename_i ht
        subst ht
        cases hentry
        have hnone : startOf past t = none := by
          by_contra hsome
          obtain ⟨ns, hns⟩ := Option.ne_none_iff_exists'.mp hsome
          exact hnew (mem_tids_of_startOf hns)
        rw [hnone]
        exact ⟨rfl, by simp [startOf]⟩
      · exact hold hentry
    · exact hold hentry

/-- The end of a call leaves the starts as they are. -/
theorem startOf_done (past : List TimedEvent) (call : TimedCall) (ok statusOk : Bool) (reply : TransferRes) (now wall t : Int) :
    startOf (past ++ [.done call ok statusOk reply now wall]) t = startOf past t := by
  rw [startOf_concat]
  exact Option.or_none

/-- The entry of a transaction whose votes are still awaited. -/
theorem Traced.entry (h : Traced c past) {t : Int} {txn : Transaction} (hs : Client.submitted c (seen past) t = some txn)
    (hvotes : (Client.votes (seen past) t).length < 2) :
    (∃ entry, (run c past).processing[t]? = some entry) ∧
      (run c past).coordinator.processing[t]? = Client.tally txn (Client.votes (seen past) t) := by
  have htally : (run c past).coordinator.processing[t]? = Client.tally txn (Client.votes (seen past) t) := by
    rw [refines_run, Client.processing_run h.legal, hs]
    rfl
  refine ⟨?_, htally⟩
  rw [processing_coordinator, Client.tally, if_pos hvotes] at htally
  obtain ⟨entry, hentry, -⟩ := Option.map_eq_some_iff.mp htally
  exact ⟨entry, hentry⟩

/-- A vote: the first is noted in the table, the second ends the transaction. -/
theorem Reports.vote (h : Reports (run c past) past) (htraced : Traced c past) {call : TimedCall} {request : TransferReq}
    {statusOk : Bool} {reply : TransferRes} {now wall : Int} (hreq : call.req = .tpcPrepare request)
    (hs : Client.submitted c (seen past) request.tid = some request.txn)
    (hvotes : (Client.votes (seen past) request.tid).length < 2) (hname : reply.tid = request.tid) :
    Reports ((run c past).consumeTpcPrepare c statusOk reply now wall).1
      (past ++ [.done call true statusOk reply now wall]) := by
  have h0 : reply.tid ≠ 0 := hname ▸ (htraced.legal.submitted_tid hs).2
  obtain ⟨⟨entry, hentry⟩, htally⟩ := htraced.entry hs hvotes
  rw [← hname] at hentry htally
  obtain ⟨-, hverdict⟩ := Client.verdict_of_tally statusOk h0 (hname ▸ hvotes) htally
  rw [hname] at hverdict
  obtain ⟨hcross, hstart⟩ := h.entries reply.tid entry hentry
  have hcounted : (run c past).counted statusOk reply =
      { entry with toTpcPrepareRes := Client.countVote entry.toTpcPrepareRes statusOk reply.ack } := by
    rw [counted, entryOf, hentry]
    rfl
  rw [consumeTpcPrepare_eq c _ _ _ _ h0, hverdict, hcounted]
  by_cases hone : (Client.votes (seen past) request.tid).length = 1
  · rw [if_pos hone]
    have hsample : sample past (.done call true statusOk reply now wall) =
        some ⟨request.tid, true, now - entry.startNs, wall⟩ := by
      rw [hname] at hstart
      simp [sample, hreq, hname, hone, hstart]
    refine ⟨?_, ?_⟩
    · rw [samples_concat, hsample]
      dsimp only
      rw [hcross]
      exact (h.booked.book ⟨request.tid, true, now - entry.startNs, wall⟩).processing _
    · intro t other hother
      rw [startOf_done]
      dsimp only at hother
      rw [WAL.getElem?_erase_tid] at hother
      split at hother
      · cases hother
      · exact h.entries t other hother
  · rw [if_neg hone]
    have hsample : sample past (.done call true statusOk reply now wall) = none := by simp [sample, hreq, hone]
    refine ⟨?_, ?_⟩
    · rw [samples_concat, hsample, Option.toList_none, List.append_nil]
      exact h.booked.processing _
    · intro t other hother
      rw [startOf_done]
      dsimp only at hother
      rw [WAL.getElem?_insert_tid] at hother
      split at hother
      · rename_i ht
        subst ht
        cases hother
        exact ⟨hcross, hstart⟩
      · exact h.entries t other hother

/-- What ends no transaction. -/
theorem Reports.silent {client : TimedClient} (h : Reports client past) {call : TimedCall} {ok statusOk : Bool}
    {reply : TransferRes} {now wall : Int} (hsample : sample past (.done call ok statusOk reply now wall) = none) :
    Reports client (past ++ [.done call ok statusOk reply now wall]) := by
  refine ⟨?_, fun t entry hentry => ?_⟩
  · rw [samples_concat, hsample, Option.toList_none, List.append_nil]
    exact h.booked
  · rw [startOf_done]
    exact h.entries t entry hentry

theorem Reports.done (h : Reports (run c past) past) (htraced : Traced c past) {call : TimedCall} {ok statusOk : Bool}
    {reply : TransferRes} {now wall : Int} (hok : Admissible c past (.done call ok statusOk reply now wall)) :
    Reports ((run c past).consumeReply c call ok statusOk reply now wall).1
      (past ++ [.done call ok statusOk reply now wall]) := by
  have hmem : call ∈ calls c past := List.count_pos_iff.mp (Nat.lt_of_le_of_lt (Nat.zero_le _) hok.1)
  cases ok with
  | false =>
    apply h.silent
    cases hreq : call.req <;> simp [sample, hreq]
  | true =>
    cases hreq : call.req with
    | transfer request =>
      simp only [consumeReply, hreq]
      cases statusOk with
      | false => exact h.silent (by simp [sample, hreq])
      | true =>
        -- an answer that arrives names the transfer, and the call carries its kind
        obtain ⟨hkind, -⟩ := htraced.started.transfer call hmem request hreq
        have hname : reply.tid = request.tid := by
          rcases hok.2 with hdecides | hname | ⟨-, hfailed⟩
          · simp [decides, hreq] at hdecides
          · rw [hname, hreq]
            rfl
          · cases hfailed
        have hsample : sample past (.done call true true reply now wall) =
            some ⟨request.tid, false, now - request.tid, wall⟩ := by simp [sample, hreq]
        refine ⟨?_, fun t entry hentry => ?_⟩
        · rw [samples_concat, hsample, hkind, hname]
          exact h.booked.book ⟨request.tid, false, now - request.tid, wall⟩
        · rw [startOf_done]
          exact h.entries t entry hentry
    | tpcPrepare request =>
      simp only [consumeReply, hreq]
      have hs := htraced.started.prepare call hmem request hreq
      rcases hok.2 with hdecides | hname | ⟨hname, -⟩
      · simp [decides, hreq] at hdecides
      · rw [hreq] at hname
        refine h.vote htraced hreq hs ?_ hname
        have hlegal := (htraced.done hok).legal
        rw [seen_concat] at hlegal
        simp only [untimed, hreq] at hlegal
        exact hlegal.length_votes
      · have htid : request.tid ≠ 0 := (htraced.legal.submitted_tid hs).2
        rw [consumeTpcPrepare, if_pos hname]
        exact h.silent (by simp [sample, hreq, hname, htid.symm])
    | tpcDecision tid isCommit =>
      simp only [consumeReply, hreq]
      exact h.silent (by simp [sample, hreq])

theorem Legal.reports (h : Legal c past) : Reports (run c past) past := by
  induction past using List.reverseRecOn with
  | nil => exact ⟨⟨rfl, rfl, rfl, rfl, rfl⟩, fun t entry hentry => by cases hentry⟩
  | append_singleton past e ih =>
    obtain ⟨hpast, hok⟩ := legal_concat.mp h
    rw [run_concat]
    cases e with
    | submit leaders txn tid wall startNs => exact (ih hpast).submit leaders txn wall startNs hok.2
    | done call ok statusOk reply now wall => exact (ih hpast).done hpast.traced hok

/-! ## Each transaction once -/

/-- A `Transfer` that has ended was intra-shard. -/
theorem Traced.of_transfers (h : Traced c past) {t : Int} (ht : 0 < (ends past).countP (transfers t)) :
    t ∈ Client.tids (seen past) ∧ Client.submitted c (seen past) t = none := by
  obtain ⟨call, hcall, htransfer⟩ := List.countP_pos_iff.mp ht
  obtain ⟨request, hreq, rfl⟩ := tid_of_transfers htransfer
  exact (h.started.transfer call (h.ended.subset hcall) request hreq).2

/-- A vote is on a cross-shard one. -/
theorem Traced.of_votes (h : Traced c past) {t : Int} (ht : 0 < (Client.votes (seen past) t).length) :
    t ∈ Client.tids (seen past) ∧ (Client.submitted c (seen past) t).isSome := by
  cases hs : Client.submitted c (seen past) t with
  | none =>
    rw [h.legal.votes_eq_nil hs] at ht
    cases ht
  | some txn => exact ⟨(h.legal.submitted_tid hs).1, rfl⟩

/-- No tid has both. -/
theorem Traced.not_both (h : Traced c past) {t : Int} (ht : 0 < (ends past).countP (transfers t)) :
    ¬ 0 < (Client.votes (seen past) t).length := by
  intro hvotes
  have hsome := (h.of_votes hvotes).2
  rw [(h.of_transfers ht).2] at hsome
  cases hsome

/-- A `Transfer` ends once. -/
theorem Traced.countP_transfers_le (h : Traced c past) (t : Int) : (ends past).countP (transfers t) ≤ 1 :=
  (h.ended.countP_le _).trans (h.started.once t)

/-- The votes that an event adds. -/
theorem length_votes_concat (past : List TimedEvent) (e : TimedEvent) (t : Int) :
    (Client.votes (seen (past ++ [e])) t).length =
      (Client.votes (seen past) t).length + (Client.votes (untimed e).toList t).length := by
  rw [seen_concat, Client.votes_append, List.length_append]

/-- A cross-shard sample is a second vote. -/
theorem sample_cross_iff (past : List TimedEvent) (e : TimedEvent) (t : Int) :
    (∃ x, sample past e = some x ∧ x.tid = t ∧ x.isCrossShard = true) ↔
      (Client.votes (untimed e).toList t).length = 1 ∧ (Client.votes (seen past) t).length = 1 := by
  cases e with
  | submit leaders txn tid wall startNs => simp [sample, untimed, Client.votes, Client.completions]
  | done call ok statusOk reply now wall =>
    cases hreq : call.req with
    | transfer | tpcDecision => simp [sample, untimed, hreq, Client.votes, Client.completions]
    | tpcPrepare request =>
      cases ok with
      | false => simp [sample, untimed, hreq, Client.votes, Client.completions]
      | true =>
        simp only [sample, untimed, hreq, Option.toList_some, if_true, Client.votes_complete, true_and]
        by_cases ht : request.tid = t
        · subst ht
          by_cases hname : reply.tid = request.tid <;> simp [hname]
        · simp [ht]

theorem length_votes_untimed_le (e : TimedEvent) (t : Int) : (Client.votes (untimed e).toList t).length ≤ 1 := by
  cases huntimed : untimed e with
  | none => exact Nat.zero_le 1
  | some e' =>
    cases e' with
    | submit => exact Nat.zero_le 1
    | complete =>
      rw [Option.toList_some, Client.votes_complete]
      split
      · exact le_rfl
      · exact Nat.zero_le 1

/-- An intra-shard sample is the end of a `Transfer`. -/
theorem transfers_of_sample {x : Sample} (h : sample past e = some x) (hkind : x.isCrossShard = false) :
    (ended e).countP (transfers x.tid) = 1 := by
  cases e with
  | submit => cases h
  | done call ok statusOk reply now wall =>
    cases hreq : call.req with
    | transfer request =>
      simp only [sample, hreq, Option.ite_none_right_eq_some, Option.some.injEq] at h
      obtain ⟨-, rfl⟩ := h
      simp [ended, transfers, hreq]
    | tpcPrepare request =>
      simp only [sample, hreq, Option.ite_none_right_eq_some, Option.some.injEq] at h
      obtain ⟨-, rfl⟩ := h
      cases hkind
    | tpcDecision tid isCommit =>
      simp [sample, hreq] at h

/-- The samples are the transactions that have ended. -/
structure Sampled (past : List TimedEvent) : Prop where
  intra : ∀ x ∈ samples past, x.isCrossShard = false → 0 < (ends past).countP (transfers x.tid)
  cross : ∀ t, (∃ x ∈ samples past, x.tid = t ∧ x.isCrossShard = true) ↔ 2 ≤ (Client.votes (seen past) t).length
  once : ((samples past).map Sample.tid).Nodup

theorem Sampled.concat (h : Sampled past) (htraced : Traced c past) (hnext : Traced c (past ++ [e])) :
    Sampled (past ++ [e]) := by
  refine ⟨?_, ?_, ?_⟩
  · intro x hx hkind
    rw [ends_concat, List.countP_append]
    rw [samples_concat] at hx
    rcases List.mem_append.mp hx with hold | hlast
    · exact Nat.add_pos_left (h.intra x hold hkind) _
    · have hone := transfers_of_sample (Option.mem_toList.mp hlast) hkind
      omega
  · intro t
    have hsecond := sample_cross_iff past e t
    have hle := length_votes_untimed_le e t
    have hold := h.cross t
    rw [length_votes_concat, samples_concat]
    simp only [List.mem_append, Option.mem_toList, or_and_right, exists_or, hold, hsecond]
    omega
  · rw [samples_concat, List.map_append]
    refine List.nodup_append.mpr ⟨h.once, ?_, ?_⟩
    · cases sample past e <;> simp
    · rintro t ht t' ht' rfl
      obtain ⟨x, hx, rfl⟩ := List.mem_map.mp ht
      obtain ⟨y, hy, htid⟩ := List.mem_map.mp ht'
      replace hy := Option.mem_toList.mp hy
      cases hy' : y.isCrossShard with
      | true =>
        obtain ⟨-, hvotes⟩ := (sample_cross_iff past e x.tid).mp ⟨y, hy, htid, hy'⟩
        cases hx' : x.isCrossShard with
        | true =>
          have htwo := (h.cross x.tid).mp ⟨x, hx, rfl, hx'⟩
          omega
        | false => exact absurd (by omega) (htraced.not_both (h.intra x hx hx'))
      | false =>
        have hone := transfers_of_sample hy hy'
        have hmost := hnext.countP_transfers_le y.tid
        rw [ends_concat, List.countP_append] at hmost
        rw [htid] at hone hmost
        cases hx' : x.isCrossShard with
        | true =>
          have htwo := (h.cross x.tid).mp ⟨x, hx, rfl, hx'⟩
          have hended : 0 < (ends (past ++ [e])).countP (transfers x.tid) := by
            rw [ends_concat, List.countP_append]
            omega
          refine absurd ?_ (hnext.not_both hended)
          rw [length_votes_concat]
          omega
        | false =>
          have hpos := h.intra x hx hx'
          omega

theorem Legal.sampled (h : Legal c past) : Sampled past := by
  induction past using List.reverseRecOn with
  | nil => exact ⟨fun x hx => absurd hx List.not_mem_nil, fun t => by simp [samples, outputs, seen, Client.votes,
      Client.completions], List.nodup_nil⟩
  | append_singleton past e ih =>
    obtain ⟨hpast, -⟩ := legal_concat.mp h
    exact (ih hpast).concat hpast.traced h.traced

/-! ## The report is exact -/

/-- The report, against the run. -/
structure Exact (c : Constants) (es : List TimedEvent) : Prop where
  /-- What is printed is about the transactions that have ended. -/
  booked : Booked (run c es) (samples es)
  once : ((samples es).map Sample.tid).Nodup
  kind : ∀ x ∈ samples es, x.tid ∈ Client.tids (seen es) ∧
    x.isCrossShard = (Client.submitted c (seen es) x.tid).isSome
  /-- The cross-shard ones are those that the coordinator has decided. -/
  decided : ∀ t, (∃ x ∈ samples es, x.tid = t ∧ x.isCrossShard = true) ↔
    ∃ i isCommit, Client.decidesAt c (seen es) i t isCommit

/-- **The report is exact.**  Two branches book latencies, with two clocks, a member variable that says what kind the call
has, and a map whose `operator[]` makes entries up; and yet every transaction that ends is booked once, under its kind and
with the time since its own submission, and nothing else is.  What ends without an answer is not in the report. -/
theorem report_exact (c : Constants) (es : List TimedEvent) (h : Legal c es) : Exact c es where
  booked := h.reports.booked
  once := h.sampled.once
  kind := by
    intro x hx
    cases hkind : x.isCrossShard with
    | true =>
      have hvotes := (h.sampled.cross x.tid).mp ⟨x, hx, rfl, hkind⟩
      obtain ⟨htid, hsome⟩ := h.traced.of_votes (t := x.tid) (by omega)
      exact ⟨htid, hsome.symm⟩
    | false =>
      obtain ⟨htid, hnone⟩ := h.traced.of_transfers (h.sampled.intra x hx hkind)
      rw [hnone]
      exact ⟨htid, rfl⟩
  decided := by
    intro t
    rw [h.sampled.cross t]
    exact (Client.decided_iff h.traced.legal t).symm

/-- A transfer and a cross-shard transaction: the vote of one leader comes before the transfer's answer and that of the
other after it, and a server acknowledges the decision. -/
def mixedRun : List TimedEvent :=
  [.submit [1, 4, 7] ⟨1, 2, 5⟩ 100 1000 1001,
   .submit [1, 4, 7] ⟨1, 1500, 5⟩ 200 1010 1011,
   .done ⟨1, .tpcPrepare ⟨⟨1, 1500, 5⟩, 200⟩, true⟩ true true ⟨0, true, 200⟩ 1020 1021,
   .done ⟨1, .transfer ⟨⟨1, 2, 5⟩, 100⟩, false⟩ true true ⟨0, true, 100⟩ 130 1030,
   .done ⟨4, .tpcPrepare ⟨⟨1, 1500, 5⟩, 200⟩, true⟩ true true ⟨0, true, 200⟩ 1040 1041,
   .done ⟨1, .tpcDecision 200 true, false⟩ true true ⟨0, false, 0⟩ 0 1050]

theorem report_exact_mixedRun : Legal ⟨3, 3⟩ mixedRun ∧ Exact ⟨3, 3⟩ mixedRun :=
  ⟨by decide +kernel, report_exact ⟨3, 3⟩ mixedRun (by decide +kernel)⟩

example : samples mixedRun = [⟨100, false, 30, 1030⟩, ⟨200, true, 29, 1041⟩] := by decide +kernel

/-! ## `printPerformance` -/

end TimedClient

/-- The three lines of `printLatencyStats`, in milliseconds. -/
inductive LatencyStats
  | na
  | ms (mean p50 p99 : ℚ)
deriving DecidableEq

/-- The lambda in `Client::printPerformance`.  `none`: it reads behind the end of the vector. -/
def printLatencyStats (samples : List Int) : Option LatencyStats :=
  if samples.isEmpty then some .na
  else do
    let sorted := samples.mergeSort
    let totalNs := sorted.sum
    let p50 ← sorted[sorted.length * 50 / 100]?
    let p99 ← sorted[sorted.length * 99 / 100]?
    return .ms (totalNs / sorted.length / 1000000) (p50 / 1000000) (p99 / 1000000)

/-- What `printPerformance` prints when there is something to report. -/
structure PerformanceDetails where
  wallS : ℚ
  tps : ℚ
  overall : LatencyStats
  intraTransactions : Nat
  intra : LatencyStats
  crossTransactions : Nat
  cross : LatencyStats

structure Performance where
  transactionsProcessed : Int
  details : Option PerformanceDetails

/-- `Client::printPerformance`. -/
def printPerformance (client : TimedClient) : Option Performance :=
  if client.latencies.isEmpty then
    some { transactionsProcessed := client.transactionsProcessed, details := none }
  else do
    let wallS : ℚ := (client.wallEnd - client.wallStart) / 1000000000
    let tps : ℚ := if wallS > 0 then client.transactionsProcessed / wallS else 0
    let overall ← printLatencyStats client.latencies
    let intra ← printLatencyStats client.intraLatencies
    let cross ← printLatencyStats client.crossLatencies
    return {
      transactionsProcessed := client.transactionsProcessed
      details := some {
        wallS := wallS, tps := tps, overall := overall
        intraTransactions := client.intraLatencies.length, intra := intra
        crossTransactions := client.crossLatencies.length, cross := cross } }

/-- The statistics of some samples: half of them are up to the one percentile and half of them from it on, 99 in a hundred
up to the other and one in a hundred from it on. -/
structure Percentiles (xs : List Int) (x50 x99 : Int) : Prop where
  mem50 : x50 ∈ xs
  mem99 : x99 ∈ xs
  le : x50 ≤ x99
  below50 : xs.length < 2 * xs.countP fun y => decide (y ≤ x50)
  above50 : xs.length ≤ 2 * xs.countP fun y => decide (x50 ≤ y)
  below99 : 99 * xs.length < 100 * xs.countP fun y => decide (y ≤ x99)
  above99 : xs.length ≤ 100 * xs.countP fun y => decide (x99 ≤ y)

/-- What a report says of some samples. -/
def LatencyStats.Describes : LatencyStats → List Int → Prop
  | .na, xs => xs = []
  | .ms mean p50 p99, xs => mean = xs.sum / xs.length / 1000000 ∧
      ∃ x50 x99 : Int, p50 = x50 / 1000000 ∧ p99 = x99 / 1000000 ∧ Percentiles xs x50 x99

/-- The two positions are in the vector, and what stands there are the percentiles. -/
theorem percentiles_sorted {xs : List Int} (hne : xs ≠ []) :
    ∃ x50 x99, xs.mergeSort[xs.length * 50 / 100]? = some x50 ∧ xs.mergeSort[xs.length * 99 / 100]? = some x99 ∧
      Percentiles xs x50 x99 := by
  have hpos : 0 < xs.length := List.length_pos_iff.mpr hne
  have hperm := List.mergeSort_perm xs (fun a b => decide (a ≤ b))
  have hsorted : xs.mergeSort.Pairwise (· ≤ ·) := List.pairwise_mergeSort' (· ≤ ·) xs
  have hlen : xs.mergeSort.length = xs.length := hperm.length_eq
  obtain ⟨x50, h50⟩ : ∃ x, xs.mergeSort[xs.length * 50 / 100]? = some x :=
    ⟨_, List.getElem?_eq_getElem (show xs.length * 50 / 100 < xs.mergeSort.length by omega)⟩
  obtain ⟨x99, h99⟩ : ∃ x, xs.mergeSort[xs.length * 99 / 100]? = some x :=
    ⟨_, List.getElem?_eq_getElem (show xs.length * 99 / 100 < xs.mergeSort.length by omega)⟩
  have hcount : ∀ p : Int → Bool, xs.mergeSort.countP p = xs.countP p := fun p => hperm.countP_eq p
  refine ⟨x50, x99, h50, h99, ?_, ?_, getElem?_le_getElem? hsorted h50 h99 (by omega), ?_, ?_, ?_, ?_⟩
  · exact hperm.mem_iff.mp (List.mem_of_getElem? h50)
  · exact hperm.mem_iff.mp (List.mem_of_getElem? h99)
  · have h := lt_countP_le hsorted h50
    rw [hcount] at h
    omega
  · have h := le_countP_ge hsorted h50
    rw [hcount, hlen] at h
    omega
  · have h := lt_countP_le hsorted h99
    rw [hcount] at h
    omega
  · have h := le_countP_ge hsorted h99
    rw [hcount, hlen] at h
    omega

theorem printLatencyStats_describes (xs : List Int) : ∃ stats, printLatencyStats xs = some stats ∧ stats.Describes xs := by
  unfold printLatencyStats
  by_cases hne : xs = []
  · subst hne
    exact ⟨.na, rfl, rfl⟩
  · obtain ⟨x50, x99, h50, h99, hpercentiles⟩ := percentiles_sorted hne
    have hlen : xs.mergeSort.length = xs.length := List.length_mergeSort xs
    have hsum : xs.mergeSort.sum = xs.sum := (List.mergeSort_perm xs _).sum_eq
    rw [if_neg (by simpa using hne)]
    dsimp only
    rw [hlen, hsum, h50, h99]
    exact ⟨_, rfl, rfl, x50, x99, rfl, rfl, hpercentiles⟩

namespace TimedClient

variable {c : Constants} {es past : List TimedEvent}

/-- The steady clock at the first submission. -/
def firstWall (es : List TimedEvent) : Option Int :=
  es.findSome? fun
    | .submit _ _ _ wall _ => some wall
    | .done _ _ _ _ _ _ => none

/-- The wall clock starts once. -/
structure Walled (client : TimedClient) (es : List TimedEvent) : Prop where
  start : client.wallStart = (firstWall es).getD 0
  started : client.wallStarted = (firstWall es).isSome

theorem walled_run (c : Constants) (es : List TimedEvent) : Walled (run c es) es := by
  induction es using List.reverseRecOn with
  | nil => exact ⟨rfl, rfl⟩
  | append_singleton past e ih =>
    have hfirst : firstWall (past ++ [e]) = (firstWall past).or (firstWall [e]) := by
      rw [firstWall, List.findSome?_append]
      rfl
    rw [run_concat]
    obtain ⟨hstart, hstarted⟩ := ih
    cases e with
    | submit leaders txn tid wall startNs =>
      have hwall : ((run c past).processTransaction c leaders txn tid wall startNs).1.wallStarted = true ∧
          ((run c past).processTransaction c leaders txn tid wall startNs).1.wallStart =
            if (run c past).wallStarted then (run c past).wallStart else wall := by
        unfold processTransaction
        dsimp only
        split <;> split <;> simp_all
      refine ⟨?_, ?_⟩
      · rw [handle, hwall.2, hfirst, hstarted, hstart]
        cases firstWall past <;> rfl
      · rw [handle, hwall.1, hfirst]
        cases firstWall past <;> rfl
    | done call ok statusOk reply now wall =>
      have hsame : ((run c past).consumeReply c call ok statusOk reply now wall).1.wallStarted = (run c past).wallStarted ∧
          ((run c past).consumeReply c call ok statusOk reply now wall).1.wallStart = (run c past).wallStart := by
        unfold consumeReply consumeTpcPrepare book
        dsimp only
        repeat' split
        all_goals exact ⟨rfl, rfl⟩
      rw [show firstWall [.done call ok statusOk reply now wall] = none from rfl, Option.or_none] at hfirst
      exact ⟨by rw [hfirst, ← hstart]; exact hsame.2, by rw [hfirst, ← hstarted]; exact hsame.1⟩

end TimedClient

/-- What is printed, against the transactions that have ended. -/
structure Performance.Describes (r : Performance) (start : Int) (xs : List TimedClient.Sample) : Prop where
  processed : r.transactionsProcessed = xs.length
  silent : r.details = none ↔ xs = []
  kinds : ∀ d ∈ r.details, d.overall.Describes (xs.map (·.latency)) ∧
    d.intra.Describes ((xs.filter fun x => !x.isCrossShard).map (·.latency)) ∧
    d.cross.Describes ((xs.filter fun x => x.isCrossShard).map (·.latency))
  counts : ∀ d ∈ r.details, d.intraTransactions + d.crossTransactions = xs.length
  throughput : ∀ d ∈ r.details, ∀ x ∈ xs.getLast?, d.wallS = (x.wall - start) / 1000000000 ∧
    d.tps = if start < x.wall then xs.length / d.wallS else 0

/-- **The printed report.**  It is never undefined: no percentile is read behind the end of its vector, be there one
sample or many. -/
theorem performance_describes (c : Constants) (es : List TimedEvent) (h : TimedClient.Legal c es) :
    ∃ r, printPerformance (TimedClient.run c es) = some r ∧
      r.Describes ((TimedClient.firstWall es).getD 0) (TimedClient.samples es) := by
  obtain ⟨hlat, hintra, hcross, hprocessed, hend⟩ := h.reports.booked
  obtain ⟨hstart, -⟩ := TimedClient.walled_run c es
  generalize TimedClient.samples es = xs at *
  obtain ⟨overall, ho, hoverall⟩ := printLatencyStats_describes (xs.map (·.latency))
  obtain ⟨intra, hi, hintra'⟩ := printLatencyStats_describes ((xs.filter fun x => !x.isCrossShard).map (·.latency))
  obtain ⟨cross, hc, hcross'⟩ := printLatencyStats_describes ((xs.filter fun x => x.isCrossShard).map (·.latency))
  unfold printPerformance
  rw [hlat, hintra, hcross, hprocessed, hend, hstart, ho, hi, hc]
  by_cases hne : xs = []
  · subst hne
    exact ⟨_, rfl, rfl, by simp, by simp, by simp, by simp⟩
  · rw [if_neg (by simpa using hne)]
    refine ⟨_, rfl, rfl, by simpa using hne, ?_, ?_, ?_⟩
    · rintro d ⟨⟩
      exact ⟨hoverall, hintra', hcross'⟩
    · rintro d ⟨⟩
      rw [List.length_map, List.length_map, ← List.countP_eq_length_filter, ← List.countP_eq_length_filter,
        List.length_eq_countP_add_countP (fun x => !x.isCrossShard)]
      simp
    · rintro d ⟨⟩ x hx
      rw [Option.mem_def.mp hx]
      have hpos : 0 < ((x.wall : ℚ) - ((TimedClient.firstWall es).getD 0 : Int)) / 1000000000 ↔
          (TimedClient.firstWall es).getD 0 < x.wall := by
        rw [div_pos_iff_of_pos_right (by norm_num), sub_pos, Int.cast_lt]
      refine ⟨rfl, ?_⟩
      simp only [Option.map_some, Option.getD_some, gt_iff_lt, hpos]
      rfl

theorem performance_describes_mixedRun : TimedClient.Legal ⟨3, 3⟩ TimedClient.mixedRun ∧
    ∃ r, printPerformance (TimedClient.run ⟨3, 3⟩ TimedClient.mixedRun) = some r ∧
      r.Describes 1000 (TimedClient.samples TimedClient.mixedRun) :=
  ⟨by decide +kernel, performance_describes ⟨3, 3⟩ TimedClient.mixedRun (by decide +kernel)⟩

end MultiPaxosDB
