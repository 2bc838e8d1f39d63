/-
# MultiPaxosDB.Provenance — every request and every log entry came from somewhere.

What is asked of all requests the clients send to a cluster (`Q`) holds of every request a server of
the cluster queues, leads or accepts, and of every batch on the wire (`Net.Carries`).  What is asked of
the entries these requests are logged as, of the decisions and of the timeouts (`P`) holds of every
entry of every log, of every pending entry of a WAL, and of every synced log on the wire
(`Net.Entries`).  The later modules use this with amounts that are not negative, with the one
transaction of each tid, and with what the coordinator has decided.
-/
import MultiPaxosDB.Wire

namespace MultiPaxosDB

open Lib

/-! ## One ledger -/

structure Ledger.Entries (P : EntryPred) (l : Ledger) : Prop where
  wal : l.wal.Ok
  log : ∀ e ∈ l.log, e.Sat P
  pending : ∀ t e, l.wal.pendingEntry t = some e → P .cross .prepared e.tid e.txn

namespace Ledger.Entries

variable {P : EntryPred} {l : Ledger}

theorem fresh (c : Constants) (clusterId : Int) : (Ledger.fresh c clusterId).Entries P where
  wal := .empty
  log := by simp [Ledger.fresh]
  pending := by
    intro t e he
    cases (WAL.pendingEntry_empty t).symm.trans he

/-- One entry more. -/
theorem forall_append {log : List WALEntry} {e : WALEntry} (h : ∀ e ∈ log, e.Sat P) (he : e.Sat P) :
    ∀ e' ∈ log ++ [e], e'.Sat P := by
  intro e' he'
  rcases List.mem_append.mp he' with hold | hnew
  · exact h e' hold
  · rw [List.mem_singleton.mp hnew]
    exact he

theorem prepareTransaction (h : l.Entries P) {request : TransferReq} (ballot : Ballot)
    (hp : P .cross .prepared request.tid request.txn) :
    (l.prepareTransaction request ballot).Entries P where
  wal := h.wal.prepareTransaction request ballot
  log := forall_append h.log ⟨hp, fun _ => hp⟩
  pending := by
    intro t e he
    have he : (l.wal.prepareTransaction request ballot).1.pendingEntry t = some e := he
    rw [h.wal.pendingEntry_prepareTransaction] at he
    split at he
    · cases he
      exact hp
    · exact h.pending t e he

theorem commitTransaction (h : l.Entries P) {request : TransferReq} (ballot : Ballot)
    (hp : P .intra .committed request.tid request.txn) :
    (l.commitTransaction request ballot).Entries P := by
  by_cases hnew : request.tid ∈ l.balanceApplied
  · rw [commitTransaction_applied ballot hnew]
    exact h
  refine ⟨?_, ?_, ?_⟩
  · rw [wal_commitTransaction hnew]
    exact h.wal.commitTransaction request ballot
  · rw [log_commitTransaction hnew h.wal.canWrite]
    exact forall_append h.log ⟨hp, (by intro hs; cases hs)⟩
  · intro t e he
    rw [wal_commitTransaction hnew, h.wal.pendingEntry_commitTransaction] at he
    exact h.pending t e he

theorem processTpcDecision (h : l.Entries P) {tid : Int} {isCommit : Bool}
    (hp : ∀ txn, P .cross .prepared tid txn → P .cross (decisionStatus isCommit) tid txn) :
    (l.processTpcDecision tid isCommit).Entries P := by
  have hpending : ∀ t e, (l.processTpcDecision tid isCommit).wal.pendingEntry t = some e →
      P .cross .prepared e.tid e.txn := by
    intro t e he
    rw [wal_processTpcDecision, h.wal.pendingEntry_decideTransaction] at he
    split at he
    · cases he
    · exact h.pending t e he
  have hwal : (l.processTpcDecision tid isCommit).wal.Ok := by
    rw [wal_processTpcDecision]
    exact h.wal.decideTransaction tid _
  refine ⟨hwal, ?_, hpending⟩
  cases he : l.wal.pendingEntry tid with
  | none =>
    rw [processTpcDecision_none isCommit he]
    exact h.log
  | some e =>
    by_cases htid : tid = -1
    · subst htid
      rw [processTpcDecision_sentinel h.wal isCommit he]
      exact h.log
    · obtain ⟨rfl, htype, -⟩ := h.wal.pendingEntry_spec he
      have hsat : (decidedEntry e isCommit).Sat P := by
        refine ⟨?_, ?_⟩
        · show P e.type (decisionStatus isCommit) e.tid e.txn
          rw [htype]
          exact hp e.txn (h.pending e.tid e he)
        · intro hs
          cases isCommit <;> cases hs
      rw [processTpcDecision_some h.wal isCommit he htid]
      exact forall_append h.log hsat

theorem insertSynced (h : l.Entries P) {entry : WALEntry} (hp : entry.Sat P) :
    (l.insertSynced entry).Entries P where
  wal := h.wal.insertEntry entry
  log := forall_append h.log hp
  pending := by
    intro t e he
    have he : (l.wal.insertEntry entry).pendingEntry t = some e := he
    rw [h.wal.pendingEntry_insertEntry] at he
    split at he
    · split at he
      · rename_i hstatus
        cases he
        exact hp.2 hstatus
      · exact h.pending t e he
      · cases he
    · exact h.pending t e he

theorem step {l' : Ledger} (h : l.Entries P) (hstep : LedgerStep P (WALEntry.Sat P) l l') : l'.Entries P := by
  cases hstep with
  | prepare request ballot hp => exact h.prepareTransaction ballot hp
  | commit request ballot hp => exact h.commitTransaction ballot hp
  | decide tid isCommit hp => exact h.processTpcDecision hp
  | insert entry hp => exact h.insertSynced hp
  | frame hf => exact ⟨hf.wal ▸ h.wal, hf.log ▸ h.log, hf.wal ▸ h.pending⟩

end Ledger.Entries

/-! ## Requests in the network -/

section Requests

variable {Q : Int → RequestPred}

/-- What an event of the network brings to a cluster from a client satisfies `Q` there. -/
def NetEvent.Carries (Q : Int → RequestPred) (c : Constants) : NetEvent → Prop
  | .input i (.transfer _ request) => Q (getClusterIdFromServerId c i) false request.tid request.txn
  | .input i (.tpcPrepare _ request) => Q (getClusterIdFromServerId c i) true request.tid request.txn
  | _ => True

instance [∀ k isCross t txn, Decidable (Q k isCross t txn)] (c : Constants) (ev : NetEvent) :
    Decidable (ev.Carries Q c) := by
  unfold NetEvent.Carries
  split <;> infer_instance

/-- The request an event of the network brings in from a client. -/
def NetEvent.request? : NetEvent → Option TransferReq
  | .input _ (.transfer _ request) => some request
  | .input _ (.tpcPrepare _ request) => some request
  | _ => none

/-- The requests the clients send in a run. -/
def clientRequests (es : List NetEvent) : List TransferReq := es.filterMap NetEvent.request?

/-- The request an event of the network brings in from a client, with the cluster it goes to. -/
def NetEvent.requestTo (c : Constants) : NetEvent → Option (Int × TransferReq)
  | .input i (.transfer _ request) => some (getClusterIdFromServerId c i, request)
  | .input i (.tpcPrepare _ request) => some (getClusterIdFromServerId c i, request)
  | _ => none

/-- Two requests of a run to one cluster with one tid are for one transaction; in particular if all
tids are distinct. -/
def OneTxnPerTid (c : Constants) (es : List NetEvent) : Prop :=
  ∀ x ∈ es.filterMap (NetEvent.requestTo c), ∀ y ∈ es.filterMap (NetEvent.requestTo c),
    x.1 = y.1 → x.2.tid = y.2.tid → x.2.txn = y.2.txn

instance (c : Constants) (es : List NetEvent) : Decidable (OneTxnPerTid c es) :=
  inferInstanceAs (Decidable (∀ x ∈ _, ∀ y ∈ _, _))

/-- The transaction of a tid at a cluster. -/
def txnIn (c : Constants) (es : List NetEvent) (k t : Int) : Transaction :=
  match (es.filterMap (NetEvent.requestTo c)).find? fun x => decide (x.1 = k ∧ x.2.tid = t) with
  | some x => x.2.txn
  | none => ⟨0, 0, 0⟩

/-- Every request of such a run is for the transaction of its tid. -/
theorem OneTxnPerTid.carries {c : Constants} {es : List NetEvent} (h : OneTxnPerTid c es) :
    ∀ ev ∈ es, ev.Carries (fun k _ t txn => txn = txnIn c es k t) c := by
  have hfind : ∀ x ∈ es.filterMap (NetEvent.requestTo c), x.2.txn = txnIn c es x.1 x.2.tid := by
    intro x hx
    unfold txnIn
    split
    · rename_i y hy
      have hmatch : y.1 = x.1 ∧ y.2.tid = x.2.tid := by simpa using List.find?_some hy
      exact h x hx y (List.mem_of_find?_eq_some hy) hmatch.1.symm hmatch.2.symm
    · rename_i hnone
      have hno := List.find?_eq_none.mp hnone x hx
      simp at hno
  intro ev hev
  have hreq : ∀ x, ev.requestTo c = some x → x.2.txn = txnIn c es x.1 x.2.tid := fun x hx =>
    hfind x (List.mem_filterMap.mpr ⟨ev, hev, hx⟩)
  cases ev with
  | input i x =>
    cases x with
    | transfer call request => exact hreq _ rfl
    | tpcPrepare call request => exact hreq _ rfl
    | _ => trivial
  | _ => trivial

structure Net.Carries (Q : Int → RequestPred) (n : Net) : Prop where
  servers : ∀ i, (n.servers i).Carries (Q (getClusterIdFromServerId n.constants i))
  batches : ∀ r ∈ n.rpcs, ∀ a, r.req = .accept a → ∀ x ∈ a.batch,
    ∃ isCross, Q (getClusterIdFromServerId n.constants r.src) isCross x.tid x.txn

namespace Net.Carries

variable {n : Net} {ev : NetEvent}

theorem fresh (c : Constants) : (Net.fresh c).Carries Q where
  servers := fun _ => ⟨by simp [Net.fresh, ServerImpl.fresh], by simp [Net.fresh, ServerImpl.fresh],
    by simp [Net.fresh, ServerImpl.fresh]⟩
  batches := by simp [Net.fresh]

/-- The requests of the event a server handles came from a client or with a batch. -/
theorem event (h : n.Carries Q) (hwf : n.WellFormed) (hev : ev.Carries Q n.constants) {i : Int}
    {e : Event} (hactor : n.actor ev = some (i, e)) :
    e.Carries (Q (getClusterIdFromServerId n.constants i)) := by
  cases e with
  | input x =>
    obtain ⟨rfl, -⟩ := actor_input hactor
    cases x <;> exact hev
  | acceptCall request =>
    obtain ⟨r, hr, rfl, hreq, -⟩ := justified hactor
    rw [(mem_stubsOf.mp (hwf.rpcs r hr).dst).2.1]
    exact h.batches r hr request hreq
  | _ => trivial

/-- What a server proposes it was asked for. -/
theorem sent (h : n.Carries Q) {i : Int} {e : Event} {c : OutCall}
    (hc : c ∈ ((n.servers i).handle e).outbox) {a : AcceptReq} (hreq : c.req = .accept a) :
    ∀ x ∈ a.batch, ∃ isCross, Q (getClusterIdFromServerId n.constants i) isCross x.tid x.txn := by
  obtain ⟨t, hcore, hmem, -⟩ := ((n.servers i).handle_moves e).core_of_sent rfl hc (by simp [hreq])
  cases hcore.sent rfl hmem with
  | accept dst x y =>
    cases hreq
    intro r hr
    obtain ⟨b, hb, rfl⟩ := List.mem_map.mp hr
    exact ⟨b.isCrossShard, (h.servers i).current b (ServerImpl.mem_of_mem_kept b hb)⟩
  | _ => cases hreq

theorem step (h : n.Carries Q) (hwf : n.WellFormed) (hev : ev.Carries Q n.constants) :
    (n.step ev).Carries Q := by
  have hold : ∀ r ∈ n.rpcs, ∀ r', r.Later r' → ∀ a, r'.req = .accept a → ∀ x ∈ a.batch,
      ∃ isCross, Q (getClusterIdFromServerId n.constants r'.src) isCross x.tid x.txn := by
    intro r hr r' hlater a ha
    rw [hlater.src]
    exact h.batches r hr a (hlater.req ▸ ha)
  rcases n.step_cases ev with ⟨hnone, hservers⟩ | ⟨i, e, u, hactor, -, hu, hstep⟩
  · refine ⟨by rw [hservers, constants_step]; exact h.servers, ?_⟩
    rw [constants_step]
    intro r' hr'
    obtain ⟨r, hr, hlater, -⟩ := mem_rpcs_step_of_none hnone hr'
    exact hold r hr r' hlater
  · rw [hstep]
    refine ⟨?_, ?_⟩
    · exact forall_servers_after (P := fun j s => s.Carries (Q (getClusterIdFromServerId n.constants j)))
        ev h.servers (hu ▸ ServerImpl.handle_carries (h.servers i) (h.event hwf hev hactor))
    · intro r' hr'
      rcases mem_rpcs_after hr' with ⟨r, hr, hlater, -⟩ | ⟨rfl, hc, -⟩
      · exact hold r hr r' hlater
      · subst hu
        exact fun a ha => h.sent hc ha

theorem reach {c : Constants} {ok : Net → NetEvent → Prop}
    (hok : ∀ n ev, ok n ev → ev.Carries Q n.constants) (hr : Reach Net.step ok (Net.fresh c) n) :
    n.Carries Q := by
  refine hr.invariant (motive := Net.Carries Q) (.fresh c) ?_
  intro n ev hr h hev
  exact h.step (.reach hr) (hok n ev hev)

/-- What is asked may become less. -/
theorem mono {Q' : Int → RequestPred} (h : n.Carries Q)
    (hQ : ∀ k isCross t txn, Q k isCross t txn → Q' k isCross t txn) : n.Carries Q' where
  servers := fun i => ⟨fun b hb => hQ _ _ _ _ ((h.servers i).pending b hb),
    fun b hb => hQ _ _ _ _ ((h.servers i).current b hb),
    fun r hr => ((h.servers i).acceptBatch r hr).imp fun _ => hQ _ _ _ _⟩
  batches := fun r hr a ha x hx => (h.batches r hr a ha x hx).imp fun _ => hQ _ _ _ _

end Net.Carries

/-- Where nothing is asked of the requests. -/
theorem Net.carries_true (n : Net) : n.Carries fun _ _ _ _ => True where
  servers := fun _ => ⟨fun _ _ => trivial, fun _ _ => trivial, fun _ _ => ⟨true, trivial⟩⟩
  batches := fun _ _ _ _ _ _ => ⟨true, trivial⟩

theorem NetEvent.carries_true (ev : NetEvent) (c : Constants) : ev.Carries (fun _ _ _ _ => True) c := by
  unfold NetEvent.Carries
  split <;> trivial

end Requests

/-! ## Entries in the network -/

structure Net.Entries (P : Int → EntryPred) (n : Net) : Prop where
  ledgers : ∀ i, (n.servers i).ledger.Entries (P (getClusterIdFromServerId n.constants i))
  payloads : ∀ r ∈ n.rpcs, ∀ p, r.res = some (.sync p) → ∀ e ∈ p.logs,
    e.toWALEntry.Sat (P (getClusterIdFromServerId n.constants r.src))

/-- The decisions and timeouts of an event satisfy `P`. -/
def Net.Decides (P : Int → EntryPred) (n : Net) (ev : NetEvent) : Prop :=
  ∀ i x, ev = .input i x → (n.servers i).Logs (P (getClusterIdFromServerId n.constants i)) (.input x)

namespace Net.Entries

variable {Q : Int → RequestPred} {P : Int → EntryPred} {n : Net} {ev : NetEvent}

theorem fresh (c : Constants) : (Net.fresh c).Entries P where
  ledgers := fun _ => .fresh c _
  payloads := by simp [Net.fresh]

/-- A reply sends nothing but log entries of the callee. -/
theorem respond {P : EntryPred} {s : ServerImpl} (h : s.ledger.Entries P) {req : RpcReq} {p : SyncRes}
    (hp : s.respond req = .sync p) : ∀ e ∈ p.logs, e.toWALEntry.Sat P := by
  cases req with
  | sync request =>
    cases hp
    intro e he
    unfold Ledger.processSyncCall at he
    split at he
    · dsimp only at he
      split at he
      · obtain ⟨e', he', rfl⟩ := List.mem_map.mp he
        exact h.log e' (List.mem_of_mem_drop he')
      · exact absurd he List.not_mem_nil
    · exact absurd he List.not_mem_nil
  | _ => cases hp

theorem logs (h : n.Entries P) (hev : n.Decides P ev) {i : Int} {e : Event}
    (hactor : n.actor ev = some (i, e)) :
    (n.servers i).Logs (P (getClusterIdFromServerId n.constants i)) e := by
  cases e with
  | input x =>
    obtain ⟨rfl, -⟩ := actor_input hactor
    exact hev i x rfl
  | syncReply status response =>
    obtain ⟨r, hr, rfl, -, hres⟩ := justified hactor
    exact fun hok => h.payloads r hr response (hres hok)
  | _ => trivial

theorem step (h : n.Entries P) (hwf : n.WellFormed) (hcarries : n.Carries Q)
    (hfit : ∀ i, (n.servers i).ledger.Fits (Q (getClusterIdFromServerId n.constants i))
      (P (getClusterIdFromServerId n.constants i)))
    (hreq : ev.Carries Q n.constants) (hev : n.Decides P ev) : (n.step ev).Entries P := by
  have hold : ∀ r ∈ n.rpcs, ∀ r', r.Later r' → (r'.res = r.res ∨ n.AnsweredBy ev r r') →
      ∀ p, r'.res = some (.sync p) → ∀ e ∈ p.logs,
        e.toWALEntry.Sat (P (getClusterIdFromServerId n.constants r'.src)) := by
    intro r hr r' hlater hres p hp
    rw [hlater.src]
    rcases hres with hsame | ⟨-, -, hnew⟩
    · exact h.payloads r hr p (hsame ▸ hp)
    · rw [hnew, Option.some.injEq] at hp
      rw [← (mem_stubsOf.mp (hwf.rpcs r hr).dst).2.1]
      exact respond (h.ledgers r.dst) hp
  rcases n.step_cases ev with ⟨hnone, hservers⟩ | ⟨i, e, u, hactor, -, hu, hstep⟩
  · refine ⟨by rw [hservers, constants_step]; exact h.ledgers, ?_⟩
    rw [constants_step]
    intro r' hr'
    obtain ⟨r, hr, hlater, hres⟩ := mem_rpcs_step_of_none hnone hr'
    exact hold r hr r' hlater (.inl hres)
  · have hchain := ServerImpl.handle_ledger (.of_carries (hfit i) (hcarries.servers i)
      (hcarries.event hwf hreq hactor) (h.logs hev hactor))
    have hledger : u.ledger.Entries (P (getClusterIdFromServerId n.constants i)) := by
      rw [← hu]
      exact reflTransGen_invariant (motive := Ledger.Entries _) (fun _ _ hstep hl => hl.step hstep)
        hchain (h.ledgers i)
    rw [hstep]
    refine ⟨?_, ?_⟩
    · exact forall_servers_after
        (P := fun j s => s.ledger.Entries (P (getClusterIdFromServerId n.constants j))) ev h.ledgers hledger
    · intro r' hr'
      rcases mem_rpcs_after hr' with ⟨r, hr, hlater, hres⟩ | ⟨-, -, hres⟩
      · exact hold r hr r' hlater hres
      · intro p hp
        rw [hres] at hp
        cases hp

theorem mono {P' : Int → EntryPred} (h : n.Entries P)
    (hP : ∀ k type status t txn, P k type status t txn → P' k type status t txn) : n.Entries P' where
  ledgers := fun i => ⟨(h.ledgers i).wal,
    fun e he => ⟨hP _ _ _ _ _ ((h.ledgers i).log e he).1, fun hs => hP _ _ _ _ _ (((h.ledgers i).log e he).2 hs)⟩,
    fun t e he => hP _ _ _ _ _ ((h.ledgers i).pending t e he)⟩
  payloads := fun r hr p hp e he =>
    ⟨hP _ _ _ _ _ (h.payloads r hr p hp e he).1, fun hs => hP _ _ _ _ _ ((h.payloads r hr p hp e he).2 hs)⟩

end Net.Entries

end MultiPaxosDB
