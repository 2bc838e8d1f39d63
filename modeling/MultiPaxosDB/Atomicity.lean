/-
# MultiPaxosDB.Atomicity — a cross-shard transaction is committed or aborted, not both.

`System.verdict` ties the logs to the coordinator: a `COMMITTED` entry of a cross-shard transaction
stands for a commit decision of the client, an `ABORTED` one for a transaction the client has not decided
to commit.  Decisions keep that by themselves, and so does catch-up, since a sync ships what is in some
log.  What breaks it is the lock timeout, which aborts on one server without asking anybody: it may fire
after the client has decided to commit, or before the client — which waits for two votes that were given
long ago — does.  `outrunsTimeouts` says that neither happens, and then atomicity holds in every run.
-/
import MultiPaxosDB.Coordinator
import MultiPaxosDB.Provenance

namespace MultiPaxosDB

open Lib

namespace System

variable {s : System} {ev : SysEvent}

instance (s : System) (t : Int) (b : Bool) : Decidable (s.Decided t b) :=
  decidable_of_iff (∃ p ∈ s.requests, p.2 = .tpcDecision t b) (by
    constructor
    · rintro ⟨p, hp, hreq⟩
      exact ⟨p.1, by rw [← hreq]; exact hp⟩
    · rintro ⟨i, hi⟩
      exact ⟨_, hi, rfl⟩)

/-- The server has a `CROSS`/`ABORTED` entry for `t`. -/
def AbortedAt (s : System) (i t : Int) : Prop :=
  ∃ e ∈ (s.net.servers i).ledger.log, e.type = .cross ∧ e.status = .aborted ∧ e.tid = t

instance (s : System) (i t : Int) : Decidable (s.AbortedAt i t) :=
  inferInstanceAs (Decidable (∃ e ∈ _, _))

/-- The server has a `CROSS`/`COMMITTED` entry for `t`. -/
def CommittedAt (s : System) (i t : Int) : Prop :=
  ∃ e ∈ (s.net.servers i).ledger.log, e.type = .cross ∧ e.status = .committed ∧ e.tid = t

instance (s : System) (i t : Int) : Decidable (s.CommittedAt i t) :=
  inferInstanceAs (Decidable (∃ e ∈ _, _))

/-- **The condition.**  A sweep aborts no transaction that the client has decided to commit, and the
client gets the second yes vote on a transaction only while no server has aborted it. -/
def outrunsTimeouts (s : System) : SysEvent → Prop
  | .server (.input i .sweep) => ∀ t ∈ (s.net.servers i).ledger.timesOut, ¬ s.Decided t true
  | .complete k => ∀ x ∈ s.calls[k]?, ∀ reply ∈ (s.net.servers x.dst).replies, reply.call = k →
      x.done = false → reply.ack = true → (s.client.entryOf x.req.tid).successes = 1 →
      ∀ i ∈ serverIds s.net.constants, ¬ s.AbortedAt i x.req.tid
  | _ => True

instance (s : System) (ev : SysEvent) : Decidable (s.outrunsTimeouts ev) := by
  unfold outrunsTimeouts
  split <;> infer_instance

/-! ## The logs and the coordinator -/

/-- What an entry of a log says about the coordinator. -/
def verdict (s : System) : EntryPred
  | .cross, .committed, t, _ => s.Decided t true
  | .cross, .aborted, t, _ => ¬ s.Decided t true
  | _, _, _, _ => True

theorem fits_verdict (s : System) (l : Ledger) : l.Fits (fun _ _ _ => True) s.verdict :=
  ⟨fun _ _ _ => trivial, fun _ _ _ => trivial, fun _ _ _ _ _ => trivial, fun _ _ _ _ _ => trivial⟩

/-- The logs, the pending entries and the entries on the wire all agree with the coordinator. -/
abbrev Consistent (s : System) : Prop := s.net.Entries fun _ => s.verdict

theorem verdict_congr {s' : System} (h : ∀ t, s'.Decided t true ↔ s.Decided t true) :
    s'.verdict = s.verdict := by
  funext type status t txn
  unfold verdict
  split
  · exact propext (h t)
  · exact propext (not_congr (h t))
  · rfl

/-- A step of the network that decides as the coordinator does. -/
theorem Consistent.net (h : s.Consistent) {c : Constants} {ok : System → SysEvent → Prop}
    (hr : Reach System.step ok (System.fresh c) s) {ev : NetEvent}
    (hev : s.net.Decides (fun _ => s.verdict) ev) : (s.net.step ev).Entries fun _ => s.verdict :=
  Net.Entries.step h (.reach (net_reach hr)) s.net.carries_true (fun _ => fits_verdict s _)
    (ev.carries_true _) hev

/-- Nothing is decided but by the completion of a `TpcPrepare`. -/
theorem decided_iff_of_not_complete (hv : s.Votes) (ht : s.Tracked) (hev : ∀ k, ev ≠ .complete k) (t : Int) :
    (s.step ev).Decided t true ↔ s.Decided t true := by
  constructor
  · intro hd
    rcases decided_step hv ht hd with hold | ⟨k, x, request, reply, heq, -⟩
    · exact hold
    · exact absurd heq (hev k)
  · intro hd
    exact hd.step ev

/-- A commit decision that is made now, on a transaction no server has aborted. -/
theorem Consistent.decide (h : s.Consistent) {c : Constants} {ok : System → SysEvent → Prop}
    (hr : Reach System.step ok (System.fresh c) s) (hnet : (s.step ev).net = s.net)
    (hnew : ∀ t, (s.step ev).Decided t true → s.Decided t true ∨
      ∀ i ∈ serverIds s.net.constants, ¬ s.AbortedAt i t) : (s.step ev).Consistent := by
  have hnr := net_reach hr
  have hsat : ∀ i, ∀ e ∈ (s.net.servers i).ledger.log, e.Sat (s.step ev).verdict := by
    intro i e he
    have hold := ((h.ledgers i).log e he).1
    refine ⟨?_, fun _ => trivial⟩
    unfold verdict at hold ⊢
    split at hold
    · exact hold.step ev
    · rename_i htype hstatus
      intro hd
      rcases hnew _ hd with hd | hnone
      · exact hold hd
      · by_cases hi : i ∈ serverIds s.net.constants
        · exact hnone i hi ⟨e, he, htype, hstatus, rfl⟩
        · rw [Net.constants_reach hnr] at hi
          rw [Net.servers_outside hnr hi] at he
          exact absurd he List.not_mem_nil
    · trivial
  show (s.step ev).net.Entries fun _ => (s.step ev).verdict
  rw [hnet]
  refine ⟨fun i => ⟨(h.ledgers i).wal, hsat i, fun _ _ _ => trivial⟩, ?_⟩
  -- a sync reply carries nothing that is not in the log of the server that gave it
  intro r hr p hp e he
  obtain ⟨q, hq⟩ : ∃ q, r.req = .sync q := by
    have hwf : s.net.WellFormed := .reach hnr
    have hans := (hwf.rpcs r hr).reply _ hp
    generalize r.req = req at hans
    cases hans with
    | sync => exact ⟨_, rfl⟩
  rcases Net.served_reach hnr r hr q p hq hp with hnil | ⟨old, hpre, hlogs⟩
  · rw [hnil] at he
    exact absurd he List.not_mem_nil
  · have hmem : e.toWALEntry ∈ p.logs.map LogEntry.toWALEntry := List.mem_map.mpr ⟨e, he, rfl⟩
    rw [hlogs] at hmem
    exact hsat r.dst _ (hpre.subset (List.mem_of_mem_drop hmem))

/-- What the client's own requests decide is what the client has decided. -/
theorem Votes.decides (hv : s.Votes) {x : ClientCall} (hx : x ∈ s.calls) (k : Nat) :
    s.net.Decides (fun _ => s.verdict) (.input x.dst (x.req.toInput k)) := by
  intro i y hinput
  obtain ⟨rfl, rfl⟩ := NetEvent.input.inj hinput
  cases hreq : x.req with
  | transfer request => trivial
  | tpcPrepare request => trivial
  | tpcDecision t b =>
    have hd : s.Decided t b := ⟨x.dst, List.mem_map.mpr ⟨x, hx, by rw [hreq]⟩⟩
    intro txn _
    cases b with
    | true => exact hd
    | false =>
      intro hcommit
      cases hv.agreed t _ _ hd hcommit

/-- A sweep aborts what the client has not decided to commit, and no other server event decides. -/
theorem decides_server {ev : NetEvent} (hev : ev.fromClient = false) (hok : s.outrunsTimeouts (.server ev)) :
    s.net.Decides (fun _ => s.verdict) ev := by
  rintro i x rfl
  cases x with
  | transfer call request => cases hev
  | tpcPrepare call request => cases hev
  | tpcDecision t b => cases hev
  | disconnect servers => trivial
  | tick ms => trivial
  | sweep => exact fun t htime _ _ => hok t htime

theorem Consistent.step (h : s.Consistent) {c : Constants} {ok : System → SysEvent → Prop}
    (hr : Reach System.step ok (System.fresh c) s) (hv : s.Votes) (hok : s.outrunsTimeouts ev) :
    (s.step ev).Consistent := by
  have ht := tracked_reach hr
  generalize hs' : s.step ev = s'
  have hsame : (∀ t, s'.Decided t true ↔ s.Decided t true) → s'.net.Entries (fun _ => s.verdict) →
      s'.Consistent := by
    intro hiff hentries
    unfold Consistent
    rw [verdict_congr hiff]
    exact hentries
  have hiff : (∀ k, ev ≠ .complete k) → ∀ t, s'.Decided t true ↔ s.Decided t true := by
    intro hev t
    rw [← hs']
    exact decided_iff_of_not_complete hv ht hev t
  cases moves_of_step hs' with
  | idle => exact h
  | submit leaders t tid => exact hsame (hiff fun k => by simp) h
  | deliver k x hx hdel =>
    exact hsame (hiff fun k => by simp) (h.net hr (hv.decides (List.mem_of_getElem? hx) k))
  | close k x hx hopen =>
    refine hsame (fun t => decided_congr ?_) h
    rw [requests_close, List.append_nil]
  | server ev hev => exact hsame (hiff fun k => by simp) (h.net hr (decides_server hev hok))
  | vote k x request reply hx hopen hreq hmem hcall =>
    rw [← hs']
    refine h.decide hr (by rw [hs']; rfl) ?_
    intro t hd
    rcases decided_step hv ht hd with hold | ⟨k', x', request', reply', heq, hx', hopen', hreq', rfl, hmem', hcall', -, hyes⟩
    · exact .inl hold
    · obtain rfl := SysEvent.complete.inj heq
      obtain ⟨hack, hsucc⟩ := hyes rfl
      have htid : x'.req.tid = request'.tid := by rw [hreq']; rfl
      rw [← htid] at hsucc ⊢
      exact .inr (hok x' hx' reply' hmem' hcall' hopen' hack hsucc)

theorem consistent_reach {c : Constants}
    (hr : Reach System.step (fun s ev => s.freshTid ev ∧ s.outrunsTimeouts ev) (System.fresh c) s) :
    s.Consistent := by
  refine hr.invariant (motive := Consistent) (.fresh c) ?_
  intro s ev hr h hok
  exact h.step hr (votes_reach (fun _ _ hguard => hguard.1) hr) hok.2

/-- No transaction has a `CROSS`/`COMMITTED` entry on one server and a `CROSS`/`ABORTED` one on another, or
on the same. -/
def Atomic (s : System) : Prop :=
  ∀ i ∈ serverIds s.net.constants, ∀ j ∈ serverIds s.net.constants, ∀ t,
    s.CommittedAt i t → ¬ s.AbortedAt j t

end System

/-- **2PC atomicity.**  In every run with distinct tids in which no lock timeout overtakes a commit, no
transaction is committed on one server and aborted on another. -/
theorem tpc_atomic (c : Constants) (s : System)
    (hr : Reach System.step (fun s ev => s.freshTid ev ∧ s.outrunsTimeouts ev) (System.fresh c) s) :
    s.Atomic := by
  have h := System.consistent_reach hr
  rintro i - j - t ⟨e, he, htype, hstatus, rfl⟩ ⟨e', he', htype', hstatus', htid⟩
  have hcommit : s.verdict e.type e.status e.tid e.txn := ((h.ledgers i).log e he).1
  have habort : s.verdict e'.type e'.status e'.tid e'.txn := ((h.ledgers j).log e' he').1
  rw [htype, hstatus] at hcommit
  rw [htype', hstatus', htid] at habort
  exact habort hcommit

/-- A transfer from shard 1 to shard 2 is prepared on servers 1 and 4, each with one replica. -/
def preparedInBoth : List SysEvent :=
  [.submit [1, 4] ⟨1, 1501, 4⟩ 7,
   .deliver 0, .server (.deliver 0), .server (.complete 0), .server (.deliver 2), .server (.complete 2),
   .deliver 1, .server (.deliver 6), .server (.complete 6), .server (.deliver 8), .server (.complete 8)]

/-- It is committed on servers 1 and 4.  A second one gets the vote of server 1 only, and server 1 times it
out. -/
def committedThenTimedOut : List SysEvent :=
  preparedInBoth ++
  [.complete 0, .complete 1, .deliver 2, .deliver 5,
   .submit [1, 4] ⟨2, 1502, 1⟩ 8,
   .deliver 8, .server (.deliver 12), .server (.complete 12), .server (.deliver 14), .server (.complete 14),
   .complete 8, .server (.input 1 (.tick 5001)), .server (.input 1 .sweep)]

theorem tpc_atomic_committedThenTimedOut :
    (System.run ⟨2, 3⟩ committedThenTimedOut).Atomic ∧
      (System.run ⟨2, 3⟩ committedThenTimedOut).CommittedAt 4 7 ∧
      (System.run ⟨2, 3⟩ committedThenTimedOut).AbortedAt 1 8 :=
  ⟨tpc_atomic ⟨2, 3⟩ _ (System.reach_run ⟨2, 3⟩ (by decide +kernel)), by decide +kernel, by decide +kernel⟩

/-- Server 1 times the transaction out after its vote, and the client then counts the two votes. -/
def timedOutThenCommitted : List SysEvent :=
  preparedInBoth ++
  [.server (.input 1 (.tick 5001)), .server (.input 1 .sweep), .complete 0, .complete 1, .deliver 3]

/-- It is aborted on server 1 and committed on server 2. -/
theorem tpc_not_atomic :
    ¬ ∀ s, Reach System.step System.freshTid (System.fresh ⟨2, 3⟩) s → s.Atomic := by
  intro h
  have hr : Reach System.step System.freshTid (System.fresh ⟨2, 3⟩)
      (System.run ⟨2, 3⟩ timedOutThenCommitted) := System.reach_run _ (by decide +kernel)
  have hatomic := h _ hr 2 (by decide +kernel) 1 (by decide +kernel) 7 (by decide +kernel)
  revert hatomic
  decide +kernel

end MultiPaxosDB
