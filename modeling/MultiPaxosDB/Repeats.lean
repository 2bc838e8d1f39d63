/-
# MultiPaxosDB.Repeats — when a log repeats an agreed entry.

An entry is agreed on once, and reaches a log in one of three ways: the leader validates its batch, a replica
accepts or commits it, or a sync copies the log of another server.  Commits look the tid up in
`balance_applied`.  Prepares and synced entries are appended unseen.

Prepares are counted as tokens (`Net.board`): a tid waits at the server that was asked for it, is issued with
the proposal, and is on its way to each replica until that replica has handled its accept.  A sync reply that
ships what is in the log already, or is still to be accepted, breaks the count; so does one that is handled
between a proposal and its outcome, which makes the leader prepare the proposed batch again.  `noRepeat`
excludes these steps, and `agreed_unrepeated` proves that no other one repeats an entry.
-/
import MultiPaxosDB.Agreement
import MultiPaxosDB.Applications
import MultiPaxosDB.Calls
import MultiPaxosDB.Lib.Tokens
import MultiPaxosDB.Restarts

namespace MultiPaxosDB

open Lib

/-! ## Tids by type -/

/-- The tids of the entries of one type. -/
def tidsOf (type : TransactionType) (seq : List WALEntry) : List Int :=
  (seq.filter fun e => decide (e.type = type)).map WALEntry.tid

theorem tidsOf_append (type : TransactionType) (xs ys : List WALEntry) :
    tidsOf type (xs ++ ys) = tidsOf type xs ++ tidsOf type ys := by
  rw [tidsOf, List.filter_append, List.map_append]
  rfl

theorem mem_tidsOf {type : TransactionType} {seq : List WALEntry} {t : Int} :
    t ∈ tidsOf type seq ↔ ∃ e ∈ seq, e.type = type ∧ e.tid = t := by
  simp only [tidsOf, List.mem_map, List.mem_filter, decide_eq_true_eq]
  constructor
  · rintro ⟨e, ⟨he, htype⟩, htid⟩
    exact ⟨e, he, htype, htid⟩
  · rintro ⟨e, he, htype, htid⟩
    exact ⟨e, ⟨he, htype⟩, htid⟩

theorem tidsOf_eq_nil {type : TransactionType} {seq : List WALEntry} (h : ∀ e ∈ seq, e.type ≠ type) :
    tidsOf type seq = [] := by
  rw [tidsOf, List.filter_eq_nil_iff.mpr (by simpa using h), List.map_nil]

theorem tidsOf_sublist (type : TransactionType) {xs ys : List WALEntry} (h : xs.Sublist ys) :
    (tidsOf type xs).Sublist (tidsOf type ys) := (h.filter _).map _

/-- A sequence repeats no tid if neither type does and the types share none. -/
theorem nodup_tids {seq : List WALEntry} (hcross : (tidsOf .cross seq).Nodup) (hintra : (tidsOf .intra seq).Nodup)
    (hapart : ∀ e ∈ seq, ∀ e' ∈ seq, e.type = .cross → e'.type = .intra → e.tid ≠ e'.tid) :
    (seq.map WALEntry.tid).Nodup := by
  have hperm := (List.filter_append_perm (fun e : WALEntry => decide (e.type = .cross)) seq).map WALEntry.tid
  have hrest : (seq.filter fun e => !decide (e.type = .cross)) = seq.filter fun e => decide (e.type = .intra) := by
    refine List.filter_congr fun e _ => ?_
    cases e.type <;> rfl
  rw [List.map_append, hrest] at hperm
  rw [← hperm.nodup_iff]
  refine List.nodup_append.mpr ⟨hcross, hintra, ?_⟩
  intro t ht t' ht'
  obtain ⟨e, he, htype, rfl⟩ := mem_tidsOf.mp ht
  obtain ⟨e', he', htype', rfl⟩ := mem_tidsOf.mp ht'
  exact hapart e he e' he' htype htype'

theorem AcceptReq.prepares_tids (inShard : Int → Bool) (a : AcceptReq) :
    (tidsOf .cross (a.prepares inShard)).Sublist (a.batch.map TransferReq.tid) := by
  have hall : (a.prepares inShard).filter (fun e => decide (e.type = .cross)) = a.prepares inShard := by
    rw [List.filter_eq_self]
    intro e he
    obtain ⟨r, -, rfl⟩ := List.mem_map.mp he
    rfl
  rw [tidsOf, hall, prepares, List.map_map]
  exact List.filter_sublist.map _

/-! ## One server -/

/-- The tids of a proposal. -/
def RpcReq.acceptTids : RpcReq → List Int
  | .accept a => a.batch.map TransferReq.tid
  | _ => []

/-- The tids of the proposal that an event brings to a replica. -/
def Event.acceptTids : Event → List Int
  | .acceptCall request => request.batch.map TransferReq.tid
  | _ => []

/-- The tid of the request that an event brings from a client. -/
def Event.requestTids (e : Event) : List Int := e.entries.map fun b => b.request.tid

namespace ServerImpl

/-- The tids of the batch that is not proposed yet, and of the queue. -/
def waiting (s : ServerImpl) : List Int :=
  ((if s.awaitAcceptDecision then [] else s.current) ++ s.pending).map fun b => b.request.tid

/-- The tids of the prepares in a server's log. -/
def prepared (s : ServerImpl) : List Int := tidsOf .cross (agreed s.ledger.log)

/-- The tids of the intra-shard commits in a server's log. -/
def committedIntra (s : ServerImpl) : List Int := tidsOf .intra (agreed s.ledger.log)

/-- A move in which the server issues the tids `sent` and logs the prepares `new`. -/
structure Turn (s : ServerImpl) (e : Event) (t : ServerImpl) (sent new : List Int) : Prop where
  logged : t.prepared = s.prepared ++ new
  outbox : ∀ j, sentTo RpcReq.acceptTids t.outbox j = if j ∈ s.stubs then sent else []
  waiting : (sent ++ t.waiting).Subperm (s.waiting ++ e.requestTids)
  source : new.Sublist sent ∨ (sent = [] ∧ new.Sublist e.acceptTids) ∨
    (sent = [] ∧ ∃ response : SyncRes, e = .syncReply .ok response ∧ response.ack = true ∧
      new = tidsOf .cross (agreed (response.logs.map LogEntry.toWALEntry)))

section Turns

variable {s t : ServerImpl} {e : Event} {txnOf : Int → Transaction} {inShard : Int → Bool}

/-- A move that proposes nothing. -/
theorem Turn.quiet {calls : List OutCall} {new : List Int} (hout : s.outbox = [])
    (hcalls : t.outbox = s.outbox ++ calls) (hno : ∀ c ∈ calls, c.req.acceptTids = [])
    (hlogged : t.prepared = s.prepared ++ new)
    (hwaiting : t.waiting.Subperm (s.waiting ++ e.requestTids))
    (hsource : new = [] ∨ new.Sublist e.acceptTids ∨ ∃ response : SyncRes, e = .syncReply .ok response ∧
      response.ack = true ∧ new = tidsOf .cross (agreed (response.logs.map LogEntry.toWALEntry))) :
    s.Turn e t [] new where
  logged := hlogged
  outbox := by
    intro j
    rw [hcalls, hout, List.nil_append, sentTo_eq_nil hno, ite_self]
  waiting := hwaiting
  source := by
    rcases hsource with rfl | haccept | hsync
    · exact .inl (List.Sublist.refl _)
    · exact .inr (.inl ⟨rfl, haccept⟩)
    · exact .inr (.inr ⟨rfl, hsync⟩)

/-- Commits and decisions log no prepare. -/
theorem prepared_of_chain {ok : LedgerOp → Prop} (hw : s.ledger.wal.Ok)
    (h : Relation.ReflTransGen (LedgerMove ok) s.ledger t.ledger)
    (hok : ∀ o, ok o → (∃ r b, o = .commit r b) ∨ ∃ tid isCommit, o = .decide tid isCommit) :
    t.prepared = s.prepared := by
  obtain ⟨new, hnew, hsource⟩ := Ledger.exists_applies hw h
  rw [prepared, hnew.log, agreed_append, tidsOf_append, prepared]
  suffices hnone : tidsOf .cross (agreed new) = [] by rw [hnone, List.append_nil]
  apply tidsOf_eq_nil
  intro x hx htype
  obtain ⟨hmem, hpaxos⟩ := List.mem_filter.mp hx
  obtain ⟨o, m, ho, hmw, hentry⟩ := hsource x hmem
  have hstatus : x.status = .prepared := by simpa [isPaxosEntry, htype] using hpaxos
  rcases hok o ho with ⟨r, b, rfl⟩ | ⟨tid, isCommit, rfl⟩
  · rw [(LedgerOp.mem_entries_commit hentry).2] at hstatus
    cases hstatus
  · obtain ⟨y, -, -, rfl⟩ := LedgerOp.mem_entries_decide hentry
    cases isCommit <;> cases hstatus

/-- What is left of the waiting tids when a round ends. -/
theorem waiting_clearRound (hcur : t.current = []) (hpend : t.pending = s.pending) :
    t.waiting.Subperm (s.waiting ++ e.requestTids) := by
  have hleft : t.waiting = s.pending.map fun b => b.request.tid := by
    rw [waiting, hcur, hpend, ite_self, List.nil_append]
  rw [hleft, waiting, List.map_append]
  exact ((List.sublist_append_right _ _).trans (List.sublist_append_left _ _)).subperm

theorem Core.turn (h : Core s e t) (hout : s.outbox = []) (hstubs : s.stubs.Nodup) (hphase : s.Phase)
    (hw : s.ledger.wal.Ok)
    (hcur : ∀ b ∈ s.current, routed txnOf inShard b.isCrossShard b.request.tid b.request.txn) :
    ∃ sent new, s.Turn e t sent new := by
  have hsame : s.waiting.Subperm (s.waiting ++ e.requestTids) :=
    (List.sublist_append_left _ _).subperm
  have hnone : ∀ c ∈ ([] : List OutCall), c.req.acceptTids = [] := fun _ hc => absurd hc List.not_mem_nil
  have hvalid := agreed_admitAll s.promisedNum s.ledger hcur
  cases h with
  | transfer call request | tpcPrepare call request =>
    refine ⟨[], [], .quiet hout (List.append_nil _).symm hnone (List.append_nil _).symm ?_ (.inl rfl)⟩
    rw [waiting, waiting, Event.requestTids, ← List.map_append, List.append_assoc]
    exact List.Subperm.refl _
  | decision tid isCommit =>
    refine ⟨[], [], .quiet hout (List.append_nil _).symm hnone ?_ hsame (.inl rfl)⟩
    rw [List.append_nil]
    refine prepared_of_chain hw (Core.decision tid isCommit).does ?_
    rintro o ⟨⟩
    exact .inr ⟨_, _, rfl⟩
  | sweep =>
    refine ⟨[], [], .quiet hout (List.append_nil _).symm hnone ?_ hsame (.inl rfl)⟩
    rw [List.append_nil]
    refine prepared_of_chain hw Core.sweep.does ?_
    rintro o ⟨⟩
    exact .inr ⟨_, _, rfl⟩
  | commit request hconn hcom =>
    refine ⟨[], [], .quiet hout (List.append_nil _).symm hnone ?_ hsame (.inl rfl)⟩
    rw [List.append_nil]
    refine prepared_of_chain hw (Core.commit request hconn hcom).does ?_
    rintro o ⟨⟩
    exact .inl ⟨_, _, rfl⟩
  | accept request hconn hacc =>
    refine ⟨[], _, .quiet hout (List.append_nil _).symm hnone ?_ hsame
      (.inr (.inl (request.prepares_tids s.ledger.isClientInCluster)))⟩
    show tidsOf .cross (agreed (request.batch.foldl (acceptEntry request.ballot) s.ledger).log) = _
    rw [agreed_foldl_acceptEntry, tidsOf_append]
    rfl
  | behind request =>
    refine ⟨[], [], .quiet hout (show _ = s.outbox ++ [_] from rfl) ?_ (List.append_nil _).symm hsame (.inl rfl)⟩
    intro c hc
    rw [List.mem_singleton.mp hc]
    rfl
  | staleLog a b index =>
    refine ⟨[], [], .quiet hout (show _ = s.outbox ++ [_] from rfl) ?_ (List.append_nil _).symm hsame (.inl rfl)⟩
    intro c hc
    rw [List.mem_singleton.mp hc]
    rfl
  | reject a b _ _ _ hempty =>
    refine ⟨[], [], .quiet hout (List.append_nil _).symm hnone ?_ (waiting_clearRound rfl rfl) (.inl rfl)⟩
    have hkept : (admitAll s.ledger s.promisedNum s.current).kept = [] := hempty
    show tidsOf .cross (agreed (admitAll s.ledger s.promisedNum s.current).ledger.log) = _
    rw [hvalid, hkept, tidsOf_append]
    rfl
  | propose a b hawait =>
    have haccept : s.awaitAcceptDecision = false := (hphase.prepare hawait).2.2.2.2
    refine ⟨s.proposal.batch.map TransferReq.tid, _, ?_, ?_, ?_, .inl (s.proposal.prepares_tids inShard)⟩
    · show tidsOf .cross (agreed (admitAll s.ledger s.promisedNum s.current).ledger.log) = _
      rw [hvalid, tidsOf_append]
      rfl
    · intro j
      show sentTo RpcReq.acceptTids (s.outbox ++ s.stubs.map fun dst => { dst := dst, req := .accept s.proposal }) j = _
      rw [hout, List.nil_append, sentTo_sendAll hstubs]
      rfl
    · -- the kept entries leave the batch, the queue stays
      have hkept : (s.proposal.batch.map TransferReq.tid).Subperm (s.current.map fun b => b.request.tid) := by
        rw [proposal, List.map_map]
        exact ((List.sublist_append_right _ _).map _).subperm.trans
          ((admitAll_perm s.ledger s.promisedNum s.current).map _).subperm
      show (_ ++ (([] : List BatchEntry) ++ s.pending).map fun b => b.request.tid).Subperm _
      refine List.Subperm.trans ?_ hsame
      rw [waiting, haccept, List.nil_append, List.map_append]
      exact (List.subperm_append_right _).mpr hkept
  | abortPrepare a b =>
    refine ⟨[], [], .quiet hout (List.append_nil _).symm hnone ?_ (waiting_clearRound rfl rfl) (.inl rfl)⟩
    show tidsOf .cross (agreed (s.current.foldl (releaseEntry true) s.ledger).log) = _
    rw [log_foldl_releaseEntry, List.append_nil]
    rfl
  | abortAccept a b =>
    refine ⟨[], [], .quiet hout (List.append_nil _).symm hnone ?_ (waiting_clearRound rfl rfl) (.inl rfl)⟩
    show tidsOf .cross (agreed (s.current.foldl (releaseEntry false) s.ledger).log) = _
    rw [log_foldl_releaseEntry, List.append_nil]
    rfl
  | commitRound a b hawait hcount hmaj =>
    refine ⟨[], [], .quiet hout (show _ = s.outbox ++ s.stubs.map _ from rfl) ?_ ?_ (waiting_clearRound rfl rfl)
      (.inl rfl)⟩
    · intro c hc
      obtain ⟨dst, -, rfl⟩ := List.mem_map.mp hc
      rfl
    · rw [List.append_nil]
      refine prepared_of_chain hw (Core.commitRound a b hawait hcount hmaj).does ?_
      rintro o ⟨⟩
      exact .inl ⟨_, _, rfl⟩
  | synced response hack =>
    refine ⟨[], _, .quiet hout (List.append_nil _).symm hnone ?_ hsame (.inr (.inr ⟨response, rfl, hack, rfl⟩))⟩
    show tidsOf .cross (agreed (s.ledger.applySync response).log) = _
    rw [Ledger.log_applySync, agreed_append, tidsOf_append]
    rfl
  | _ =>
    exact ⟨[], [], .quiet hout (List.append_nil _).symm hnone (List.append_nil _).symm hsame (.inl rfl)⟩

/-- The requests of a new prepare phase are no proposals. -/
theorem Turn.reissue {sent new : List Int} {t' : ServerImpl} (h : s.Turn e t sent new) (hledger : t'.ledger = t.ledger)
    (hout : t'.outbox = t.outbox)
    (hwaiting : (t'.current ++ t'.pending).map (fun b => b.request.tid) = t.waiting) :
    s.Turn e t'.reissuePrepareForCurrent sent new where
  logged := by
    rw [← h.logged, prepared, prepared, ← hledger]
    rfl
  outbox := by
    intro j
    show sentTo RpcReq.acceptTids (t'.outbox ++ t'.stubs.map fun dst => { dst := dst, req := .prepare t'.nextPrepare }) j = _
    rw [sentTo_append, hout, h.outbox j]
    refine (congrArg _ (sentTo_eq_nil ?_ j)).trans (List.append_nil _)
    intro c hc
    obtain ⟨dst, -, rfl⟩ := List.mem_map.mp hc
    rfl
  waiting := by
    show (sent ++ (t'.current ++ t'.pending).map fun b => b.request.tid).Subperm _
    rw [hwaiting]
    exact h.waiting
  source := h.source

/-- **Every handled event is a turn**, unless it ends a sync between a proposal and its outcome. -/
theorem handle_turn (hstubs : s.stubs.Nodup) (hphase : s.Phase) (hrun : s.Running) (hw : s.ledger.wal.Ok)
    (hcur : ∀ b ∈ s.current, routed txnOf inShard b.isCrossShard b.request.tid b.request.txn)
    (hsync : ∀ status response, e = .syncReply status response → s.awaitAcceptDecision = false) :
    ∃ sent new, s.Turn e (s.handle e) sent new := by
  have hphase' : ({ s with outbox := [] } : ServerImpl).Phase := ⟨hphase.prepare, hphase.accept⟩
  suffices hclear : ∃ sent new, Turn { s with outbox := [] } e (s.handle e) sent new by
    obtain ⟨sent, new, h⟩ := hclear
    exact ⟨sent, new, h.logged, h.outbox, h.waiting, h.source⟩
  generalize hu : s.handle e = u
  cases moves_of_handle hu with
  | done hcore => exact hcore.turn rfl hstubs hphase' hw hcur
  | @start t hcore hnot _ _ =>
    obtain ⟨sent, new, hturn⟩ := hcore.turn rfl hstubs hphase' hw hcur
    refine ⟨sent, new, hturn.reissue rfl rfl ?_⟩
    have hempty : t.current = [] := (hcore.takes hrun).running hnot
    show (t.pending ++ []).map _ = _
    rw [waiting, hempty, ite_self, List.append_nil, List.nil_append]
  | @retry t hpre =>
    have hnone : ∀ c ∈ ([] : List OutCall), c.req.acceptTids = [] := fun _ hc => absurd hc List.not_mem_nil
    have hsame : s.waiting.Subperm (s.waiting ++ e.requestTids) :=
      (List.sublist_append_left _ _).subperm
    have hwait : s.awaitAcceptDecision = false → (s.current ++ s.pending).map (fun b => b.request.tid) = s.waiting := by
      intro haccept
      rw [waiting, haccept]
      rfl
    cases hpre with
    | staleBallot a b latest hawait =>
      refine ⟨[], [], Turn.reissue (.quiet (t := { s with outbox := [] }) rfl rfl hnone (List.append_nil _).symm hsame
        (.inl rfl)) rfl rfl ?_⟩
      exact hwait (hphase.prepare hawait).2.2.2.2
    | synced response hack =>
      refine ⟨[], _, Turn.reissue (.quiet (t := { s with outbox := [], ledger := s.ledger.applySync response }) rfl rfl
        hnone ?_ hsame (.inr (.inr ⟨response, rfl, hack, rfl⟩))) rfl rfl (hwait (hsync _ _ rfl))⟩
      show tidsOf .cross (agreed (s.ledger.applySync response).log) = _
      rw [Ledger.log_applySync, agreed_append, tidsOf_append]
      rfl
    | notSynced =>
      exact ⟨[], [], Turn.reissue (.quiet (t := { s with outbox := [] }) rfl rfl hnone (List.append_nil _).symm hsame
        (.inl rfl)) rfl rfl (hwait (hsync _ _ rfl))⟩

end Turns

/-! ### Commits -/

/-- A commit looks its tid up, so it is a sync that repeats one. -/
theorem committedIntra_handle {s : ServerImpl} (hs : s.ledger.Sound) (h : s.committedIntra.Nodup) (e : Event)
    (hsync : ∀ response, e = .syncReply .ok response → response.ack = true →
      (s.committedIntra ++ tidsOf .intra (agreed (response.logs.map LogEntry.toWALEntry))).Nodup) :
    (s.handle e).committedIntra.Nodup := by
  by_cases he : ∃ response, e = .syncReply .ok response ∧ response.ack = true
  · obtain ⟨response, rfl, hack⟩ := he
    rw [committedIntra, ledger_syncReply, if_pos ⟨rfl, hack⟩, Ledger.log_applySync, agreed_append, tidsOf_append]
    exact hsync response rfl hack
  · refine (reflTransGen_invariant (motive := fun l : Ledger => l.Sound ∧ (tidsOf .intra (agreed l.log)).Nodup) ?_
      (s.handle_does e) ⟨hs, h⟩).2
    rintro l l' hmove ⟨hl, hnodup⟩
    have hnext : l'.Sound := hl.step (hmove.step (P := fun _ _ _ _ => True) (S := fun _ => True) fun o _ => by
      cases o <;> simp [LedgerOp.Sat])
    refine ⟨hnext, ?_⟩
    cases hmove with
    | frame hf =>
      rw [hf.log]
      exact hnodup
    | op o ho =>
      cases o with
      | prepare request ballot =>
        show (tidsOf .intra (agreed (l.prepareTransaction request ballot).log)).Nodup
        rw [Ledger.agreed_prepareTransaction, tidsOf_append,
          show tidsOf .intra [WAL.preparedEntry request ballot] = [] from rfl, List.append_nil]
        exact hnodup
      | commit request ballot =>
        show (tidsOf .intra (agreed (l.commitTransaction request ballot).log)).Nodup
        by_cases hnew : request.tid ∈ l.balanceApplied
        · rw [Ledger.commitTransaction_applied ballot hnew]
          exact hnodup
        · rw [Ledger.log_commitTransaction hnew hl.wal.canWrite, agreed_append, tidsOf_append]
          refine List.nodup_append.mpr ⟨hnodup, List.nodup_singleton _, ?_⟩
          rintro t ht _ hlast rfl
          rw [show t = request.tid from List.mem_singleton.mp hlast] at ht
          obtain ⟨x, hx, htype, htid⟩ := mem_tidsOf.mp ht
          obtain ⟨hmem, hpaxos⟩ := List.mem_filter.mp hx
          have hstatus : x.status = .committed := by simpa [isPaxosEntry, htype] using hpaxos
          rw [hl.applied, ← htid] at hnew
          exact hnew (mem_committedTids.mpr ⟨x, hmem, hstatus, rfl⟩)
      | decide tid isCommit =>
        show (tidsOf .intra (agreed (l.processTpcDecision tid isCommit).log)).Nodup
        rw [Ledger.agreed_processTpcDecision hl.wal]
        exact hnodup
      | insert entry =>
        cases ho with
        | synced hack => exact absurd ⟨_, rfl, hack⟩ he

end ServerImpl

/-! ## The network -/

/-- The tids of the proposals that a server has not handled. -/
def undeliveredIn (rpcs : List Rpc) (i : Int) : List Int :=
  (rpcs.filter fun r => decide (r.dst = i) && r.res.isNone).flatMap fun r => r.req.acceptTids

theorem undeliveredIn_append (xs ys : List Rpc) (i : Int) :
    undeliveredIn (xs ++ ys) i = undeliveredIn xs i ++ undeliveredIn ys i := by
  rw [undeliveredIn, List.filter_append, List.flatMap_append]
  rfl

theorem undeliveredIn_sentBy (i : Int) (outbox : List OutCall) (j : Int) :
    undeliveredIn (Net.sentBy i outbox) j = ServerImpl.sentTo RpcReq.acceptTids outbox j := by
  rw [undeliveredIn, Net.sentBy, List.filter_map, List.flatMap_map, ServerImpl.sentTo]
  simp [Function.comp_def]

/-- Marking an RPC that is not for the server, or without an answer, changes nothing for it. -/
theorem undeliveredIn_modify {rpcs : List Rpc} {k : Nat} {f : Rpc → Rpc} {i : Int}
    (h : ∀ r, rpcs[k]? = some r → (f r).dst = r.dst ∧ (f r).req = r.req ∧ (r.dst = i → (f r).res.isNone = r.res.isNone)) :
    undeliveredIn (rpcs.modify k f) i = undeliveredIn rpcs i := by
  rw [undeliveredIn, undeliveredIn, List.flatMap_def, List.flatMap_def, map_filter_modify]
  intro r hr
  obtain ⟨hdst, hreq, hres⟩ := h r hr
  rw [hdst, hreq]
  refine ⟨?_, rfl⟩
  by_cases hi : r.dst = i
  · rw [hres hi]
  · simp [hi]

namespace Net

variable {n : Net} {ev : NetEvent} {i : Int} {e : Event}

/-- The tids of the proposals that server `i` has not handled. -/
def undelivered (n : Net) (i : Int) : List Int := undeliveredIn n.rpcs i

/-- A proposal that is handled is no longer on its way. -/
theorem undelivered_mark_self {req : RpcReq} (h : n.actor ev = some (i, callEvent req)) :
    (req.acceptTids ++ undeliveredIn (n.mark ev) i).Perm (n.undelivered i) := by
  obtain ⟨k, r, rfl, hr, hres, rfl, rfl⟩ := actor_call h
  have hpass : (decide (r.dst = r.dst) && r.res.isNone) = true := by simp [hres]
  obtain ⟨m, hm, hrest⟩ := exists_eraseIdx_filter_modify (p := fun x : Rpc => decide (x.dst = r.dst) && x.res.isNone)
    (f := fun x => if x.res.isNone then { x with res := some ((n.servers x.dst).respond x.req) } else x) hr hpass
    (by simp [hres])
  obtain ⟨hlt, hget⟩ := List.getElem?_eq_some_iff.mp hm
  have hperm := (List.getElem_cons_eraseIdx_perm hlt).flatMap_right fun x => x.req.acceptTids
  rw [hget, List.flatMap_cons] at hperm
  show (_ ++ undeliveredIn (n.rpcs.modify k _) r.dst).Perm _
  rw [undeliveredIn, hrest]
  exact hperm

/-- Otherwise it still is. -/
theorem undelivered_mark {j : Int} (h : ∀ req, n.actor ev ≠ some (j, callEvent req)) :
    undeliveredIn (n.mark ev) j = n.undelivered j := by
  cases ev with
  | input i x => rfl
  | deliver k =>
    refine undeliveredIn_modify fun r hr => ?_
    cases hres : r.res with
    | some res => simp [hres]
    | none =>
      refine ⟨by simp, by simp, ?_⟩
      rintro rfl
      exact absurd (by simp [actor, hr, hres]) (h r.req)
  | complete k =>
    refine undeliveredIn_modify fun r _ => ?_
    split <;> exact ⟨rfl, rfl, fun _ => rfl⟩
  | fail k status =>
    refine undeliveredIn_modify fun r _ => ?_
    split <;> exact ⟨rfl, rfl, fun _ => rfl⟩

/-! ### Tids as tokens -/

/-- Tids at a server, told apart by cluster: a cross-shard tid is used in two. -/
def tokens (n : Net) (i : Int) (tids : List Int) : List (Int × Int) :=
  tids.map (Prod.mk (getClusterIdFromServerId n.constants i))

theorem mem_tokens {tids : List Int} {x : Int × Int} :
    x ∈ n.tokens i tids ↔ x.1 = getClusterIdFromServerId n.constants i ∧ x.2 ∈ tids := by
  simp only [tokens, List.mem_map]
  constructor
  · rintro ⟨t, ht, rfl⟩
    exact ⟨rfl, ht⟩
  · rintro ⟨hk, ht⟩
    exact ⟨x.2, ht, by rw [← hk]⟩

theorem tokens_append (n : Net) (i : Int) (xs ys : List Int) :
    n.tokens i (xs ++ ys) = n.tokens i xs ++ n.tokens i ys := List.map_append

theorem tokens_subperm {xs ys : List Int} (h : xs.Subperm ys) : (n.tokens i xs).Subperm (n.tokens i ys) :=
  h.map (Prod.mk_right_injective _)

/-- The prepares of the network, as tokens. -/
def board (used : Int × Int → Prop) (n : Net) : Board Int (Int × Int) where
  logged := fun i => n.tokens i (n.servers i).prepared
  coming := fun i => n.tokens i (n.undelivered i)
  waiting := fun i => n.tokens i (n.servers i).waiting
  used := used

theorem undelivered_after (n : Net) (ev : NetEvent) (i : Int) (t : ServerImpl) (j : Int) :
    (n.after ev i t).undelivered j = undeliveredIn (n.mark ev) j ++ ServerImpl.sentTo RpcReq.acceptTids t.outbox j := by
  rw [undelivered, after, undeliveredIn_append, undeliveredIn_sentBy]

/-- The acting server's turn, with what is on its way to it afterwards. -/
theorem undelivered_self {u : ServerImpl} {sent new : List Int} (hwf : n.WellFormed) (hactor : n.actor ev = some (i, e))
    (hturn : (n.servers i).Turn e u sent new) : (e.acceptTids ++ (n.after ev i u).undelivered i).Perm (n.undelivered i) := by
  have hself : ServerImpl.sentTo RpcReq.acceptTids u.outbox i = [] := by
    rw [hturn.outbox, hwf.stubs i, if_neg fun hmem => (mem_stubsOf.mp hmem).2.2 rfl]
  rw [undelivered_after, hself, List.append_nil]
  by_cases hcall : ∃ req, e = callEvent req
  · obtain ⟨req, rfl⟩ := hcall
    have hperm := undelivered_mark_self hactor
    cases req <;> exact hperm
  · have hnone : e.acceptTids = [] := by
      cases e with
      | acceptCall request => exact absurd ⟨.accept request, rfl⟩ hcall
      | _ => rfl
    rw [hnone, List.nil_append, undelivered_mark]
    intro req hreq
    rw [hactor] at hreq
    exact hcall ⟨req, (Prod.mk.inj (Option.some.inj hreq)).2⟩

/-- What a sync reply ships is prepared elsewhere in the cluster, and new here. -/
def ShipsNew (n : Net) (i : Int) (tids : List Int) : Prop :=
  (∃ k, getClusterIdFromServerId n.constants k = getClusterIdFromServerId n.constants i ∧
    tids.Sublist (n.servers k).prepared) ∧ ∀ t ∈ tids, t ∉ (n.servers i).prepared ∧ t ∉ n.undelivered i

/-- **The tokens move by the rules.** -/
theorem board_step {used used' : Int × Int → Prop} {sent new : List Int} (h : (n.board used).Unique) (hwf : n.WellFormed)
    (hactor : n.actor ev = some (i, e)) (hturn : (n.servers i).Turn e ((n.servers i).handle e) sent new)
    (hused : ∀ x, used x → used' x)
    (harrive : ∀ x ∈ n.tokens i e.requestTids, ¬ used x ∧ used' x)
    (hsync : ∀ response, e = .syncReply .ok response → response.ack = true →
      n.ShipsNew i (tidsOf .cross (agreed (response.logs.map LogEntry.toWALEntry)))) :
    ((n.step ev).board used').Unique := by
  rw [step_eq_after hactor]
  generalize (n.servers i).handle e = u at hturn
  have hcoming := (undelivered_self hwf hactor hturn).map (Prod.mk (getClusterIdFromServerId n.constants i))
  rw [List.map_append] at hcoming
  have hstill : (n.tokens i ((n.after ev i u).undelivered i)).Subperm (n.tokens i (n.undelivered i)) :=
    (List.sublist_append_right _ _).subperm.trans hcoming.subperm
  have hwaiting := tokens_subperm (n := n) (i := i) hturn.waiting
  rw [tokens_append, tokens_append] at hwaiting
  -- first the request of the event arrives, then the server moves
  have hb : ((n.board used).receive i (n.tokens i e.requestTids) used').Unique := by
    refine h.receive ?_ ?_ hused ?_
    · cases e with
      | input x => cases hx : x.entry <;> simp [Event.requestTids, Event.entries, hx, tokens]
      | _ => exact List.nodup_nil
    · exact fun x hx => (harrive x hx).1
    · exact fun x hx => (harrive x hx).2
  have hlogged : ((n.after ev i u).board used').logged i = (n.board used).logged i ++ n.tokens i new := by
    show (n.after ev i u).tokens i ((n.after ev i u).servers i).prepared = n.tokens i (n.servers i).prepared ++ _
    rw [servers_after_self, hturn.logged]
    exact tokens_append n i _ _
  have hself : ((n.after ev i u).board used').waiting i = n.tokens i u.waiting := by
    show (n.after ev i u).tokens i ((n.after ev i u).servers i).waiting = _
    rw [servers_after_self]
    rfl
  have hothers : (n.board used).Others ((n.after ev i u).board used') i (n.tokens i sent) := by
    refine ⟨?_, ?_, ?_⟩
    · intro j hj
      show (n.after ev i u).tokens j ((n.after ev i u).servers j).prepared = _
      rw [servers_after_ne n ev u hj]
      rfl
    · intro j hj
      show n.tokens j ((n.after ev i u).undelivered j) = _ ∨ n.tokens j ((n.after ev i u).undelivered j) = _
      have hmark : undeliveredIn (n.mark ev) j = n.undelivered j := by
        refine undelivered_mark fun req hreq => hj ?_
        rw [hactor] at hreq
        exact (Prod.mk.inj (Option.some.inj hreq)).1.symm
      rw [undelivered_after, hmark, hturn.outbox, hwf.stubs i]
      split
      · rename_i hstub
        refine .inr ?_
        rw [tokens_append]
        refine congrArg _ ?_
        rw [tokens, (mem_stubsOf.mp hstub).2.1]
        rfl
      · rw [List.append_nil]
        exact .inl rfl
    · intro j hj
      show (n.after ev i u).tokens j ((n.after ev i u).servers j).waiting = _
      rw [servers_after_ne n ev u hj]
      rfl
  have hother := hothers.receive (t := n.tokens i e.requestTids) (u := used')
  have hhere := (n.board used).waiting_receive i (n.tokens i e.requestTids) used'
  rcases hturn.source with hown | ⟨rfl, haccept⟩ | ⟨rfl, response, rfl, hack, rfl⟩
  · -- what is logged was waiting here, and is sent
    have hlog : (n.tokens i new).Sublist (n.tokens i sent) := hown.map _
    refine hb.move hother hlogged ?_ hstill.subset ?_ (fun x hx => .inr (hlog.subset hx)) fun _ hx => hx
    · rw [hhere, hself]
      refine (List.perm_append_comm_assoc _ _ _).subperm.trans ?_
      exact hstill.append ((hlog.append_right _).subperm.trans hwaiting)
    · rw [hhere, hself]
      exact hwaiting
  · -- it was on its way here
    have hlog : (n.tokens i new).Sublist (n.tokens i e.acceptTids) := haccept.map _
    have hcame : (n.tokens i new ++ n.tokens i ((n.after ev i u).undelivered i)).Subperm (n.tokens i (n.undelivered i)) :=
      (hlog.append_right _).subperm.trans hcoming.subperm
    refine hb.move hother hlogged ?_ hstill.subset ?_ ?_ fun _ hx => hx
    · rw [hhere, hself, ← List.append_assoc]
      exact hcame.append hwaiting
    · rw [hhere, hself]
      exact hwaiting
    · exact fun x hx => .inl (hcame.subset (List.mem_append_left _ hx))
  · -- it is copied
    obtain ⟨⟨k, hk, hsub⟩, hnew⟩ := hsync response rfl hack
    refine hb.copy (k := k) hother hlogged hstill ?_ ?_ ?_ fun _ hx => hx
    · rw [hhere, hself]
      exact hwaiting
    · show (n.tokens i _).Sublist (n.tokens k _)
      rw [tokens, tokens, hk]
      exact hsub.map _
    · intro x hx hmem
      obtain ⟨-, ht⟩ := mem_tokens.mp hx
      rcases List.mem_append.mp hmem with hmem | hmem
      · exact (hnew x.2 ht).1 (mem_tokens.mp hmem).2
      · exact (hnew x.2 ht).2 (mem_tokens.mp hmem).2

/-! ## The condition on a step -/

/-- A server handles a sync reply only while it has no proposal open, and an acknowledged one only if each agreed
entry it ships is new to the log and, where it is a prepare, on no accept that is still to be handled. -/
def syncShipsNew (n : Net) (ev : NetEvent) : Prop :=
  match n.actor ev with
  | some (i, .syncReply status response) => (n.servers i).awaitAcceptDecision = false ∧
      (status = .ok → response.ack = true → ∀ x ∈ agreed (response.logs.map LogEntry.toWALEntry),
        x.tid ∉ (n.seq i).map WALEntry.tid ∧ (x.status = .prepared → x.tid ∉ n.undelivered i))
  | _ => True

/-- The conditions on a step under which no log repeats an agreed entry. -/
def noRepeat (n : Net) (ev : NetEvent) : Prop :=
  ev.Carries (fun k => byShard (accountsOf n.constants k)) n.constants ∧ n.syncShipsNew ev

instance (n : Net) (ev : NetEvent) : Decidable (n.syncShipsNew ev) := by
  unfold syncShipsNew
  exact match n.actor ev with
    | some (_, .syncReply _ _) => inferInstanceAs (Decidable (_ ∧ (_ → _ → ∀ x ∈ agreed _, _)))
    | some (_, .input _) | some (_, .prepareCall _) | some (_, .acceptCall _) | some (_, .commitCall _)
    | some (_, .syncCall _) | some (_, .prepareReply _ _ _) | some (_, .acceptReply _ _ _) | none => .isTrue trivial

instance (n : Net) (ev : NetEvent) : Decidable (n.noRepeat ev) := inferInstanceAs (Decidable (_ ∧ _))

theorem syncShipsNew.reply {status : Status} {response : SyncRes} (h : n.syncShipsNew ev)
    (hactor : n.actor ev = some (i, .syncReply status response)) : (n.servers i).awaitAcceptDecision = false ∧
      (status = .ok → response.ack = true → ∀ x ∈ agreed (response.logs.map LogEntry.toWALEntry),
        x.tid ∉ (n.seq i).map WALEntry.tid ∧ (x.status = .prepared → x.tid ∉ n.undelivered i)) := by
  rw [syncShipsNew, hactor] at h
  exact h

/-! ## Runs -/

structure Placed (used : Int × Int → Prop) (n : Net) : Prop where
  running : ∀ i, (n.servers i).Running
  prepares : (n.board used).Unique
  commits : ∀ i, (n.servers i).committedIntra.Nodup

theorem Placed.fresh (c : Constants) (used : Int × Int → Prop) : (Net.fresh c).Placed used where
  running := fun _ _ => rfl
  prepares := ⟨fun _ => List.nodup_nil, fun _ _ _ _ ht => absurd ht List.not_mem_nil,
    fun _ _ ht => absurd ht List.not_mem_nil⟩
  commits := fun _ => List.nodup_nil

/-- A sync reply ships the tail of what its sender has logged. -/
theorem exists_shipped {c : Constants} {ok : Net → NetEvent → Prop} (hr : Reach Net.step ok (Net.fresh c) n)
    {response : SyncRes} (hactor : n.actor ev = some (i, .syncReply .ok response)) :
    ∃ k, getClusterIdFromServerId n.constants k = getClusterIdFromServerId n.constants i ∧
      (agreed (response.logs.map LogEntry.toWALEntry)).Sublist (n.seq k) := by
  have hwf : n.WellFormed := .reach hr
  obtain ⟨m, r, q, rfl, hm, rfl, hreq, hres, -⟩ := actor_syncReply hactor
  have hmem : r ∈ n.rpcs := List.mem_of_getElem? hm
  refine ⟨r.dst, (mem_stubsOf.mp (hwf.rpcs r hmem).dst).2.1, ?_⟩
  rcases served_reach hr r hmem q response hreq hres with hnil | ⟨old, hold, hlogs⟩
  · rw [hnil]
    exact List.nil_sublist _
  · rw [hlogs]
    exact ((List.drop_sublist _ _).filter _).trans (hold.sublist.filter _)

/-- The requests of an event of the network are those of its actor. -/
theorem token_of_actor (hactor : n.actor ev = some (i, e)) {x : Int × Int} (hx : x ∈ n.tokens i e.requestTids) :
    ∃ y, ev.requestTo n.constants = some y ∧ x = (y.1, y.2.tid) := by
  obtain ⟨hk, hmem⟩ := mem_tokens.mp hx
  obtain ⟨b, hb, htid⟩ := List.mem_map.mp hmem
  cases e with
  | input z =>
    obtain ⟨rfl, -⟩ := actor_input hactor
    cases z with
    | transfer call request | tpcPrepare call request =>
      refine ⟨_, rfl, ?_⟩
      rw [List.mem_singleton.mp hb] at htid
      exact Prod.ext hk htid.symm
    | _ => cases hb
  | _ => cases hb

section Step

variable {c : Constants} {ok : Net → NetEvent → Prop} {txnOf : Int → Int → Transaction} {used used' : Int × Int → Prop}

theorem Placed.step (h : n.Placed used) (hr : Reach Net.step ok (Net.fresh c) n)
    (hcarries : n.Carries fun k => routed (txnOf k) (accountsOf c k)) (hok : n.syncShipsNew ev)
    (hused : ∀ x, used x → used' x)
    (hnew : ∀ y, ev.requestTo n.constants = some y → ¬ used (y.1, y.2.tid) ∧ used' (y.1, y.2.tid)) :
    (n.step ev).Placed used' := by
  have hwf : n.WellFormed := .reach hr
  have hrunning : ∀ i, ((n.step ev).servers i).Running := fun i => (n.takes_step ev h.running i).running
  rcases n.step_cases ev with ⟨hnone, hservers⟩ | ⟨i, e, u, hactor, -, hu, hstep⟩
  · have hboard : (n.step ev).board used' = { n.board used with used := used' } := by
      have hcoming : ∀ j, (n.step ev).undelivered j = n.undelivered j := by
        intro j
        have hmark : undeliveredIn (n.mark ev) j = n.undelivered j := undelivered_mark (by simp [hnone])
        rw [← hmark]
        simp [undelivered, Net.step, hnone]
      simp only [board, tokens, hservers, hcoming, constants_step]
    refine ⟨hrunning, ?_, ?_⟩
    · rw [hboard]
      exact ⟨h.prepares.places, h.prepares.apart, fun j x hx => hused x (h.prepares.used j x hx)⟩
    · rw [hservers]
      exact h.commits
  · subst hu
    have hship : ∀ response, e = .syncReply .ok response → response.ack = true → ∃ k,
        getClusterIdFromServerId n.constants k = getClusterIdFromServerId n.constants i ∧
        (agreed (response.logs.map LogEntry.toWALEntry)).Sublist (n.seq k) ∧
        ∀ x ∈ agreed (response.logs.map LogEntry.toWALEntry),
          x.tid ∉ (n.seq i).map WALEntry.tid ∧ (x.status = .prepared → x.tid ∉ n.undelivered i) := by
      rintro response rfl hack
      obtain ⟨k, hk, hsub⟩ := exists_shipped hr hactor
      exact ⟨k, hk, hsub, (hok.reply hactor).2 rfl hack⟩
    refine ⟨hrunning, ?_, ?_⟩
    · have hstubs : (n.servers i).stubs.Nodup := by
        rw [hwf.stubs i]
        exact nodup_stubsOf n.constants i
      obtain ⟨sent, new, hturn⟩ := ServerImpl.handle_turn (e := e) hstubs (phase_reach hr i) (h.running i)
        (hwf.sound i).wal (hcarries.servers i).current (by
          rintro status response rfl
          exact (hok.reply hactor).1)
      refine board_step h.prepares hwf hactor hturn hused ?_ ?_
      · intro x hx
        obtain ⟨y, hy, rfl⟩ := token_of_actor hactor hx
        exact hnew y hy
      · intro response he hack
        obtain ⟨k, hk, hsub, hfresh⟩ := hship response he hack
        refine ⟨⟨k, hk, tidsOf_sublist .cross hsub⟩, ?_⟩
        intro t ht
        obtain ⟨x, hx, htype, rfl⟩ := mem_tidsOf.mp ht
        have hstatus : x.status = .prepared := by
          simpa [isPaxosEntry, htype] using (List.mem_filter.mp hx).2
        refine ⟨fun hmem => (hfresh x hx).1 ?_, (hfresh x hx).2 hstatus⟩
        obtain ⟨y, hy, -, htid⟩ := mem_tidsOf.mp hmem
        exact List.mem_map.mpr ⟨y, hy, htid⟩
    · rw [hstep]
      refine forall_servers_after (P := fun _ s => s.committedIntra.Nodup) ev h.commits ?_
      refine ServerImpl.committedIntra_handle (hwf.sound i) (h.commits i) e ?_
      intro response he hack
      obtain ⟨k, -, hsub, hfresh⟩ := hship response he hack
      refine List.nodup_append.mpr ⟨h.commits i, (h.commits k).sublist (tidsOf_sublist .intra hsub), ?_⟩
      rintro t ht _ hlast rfl
      obtain ⟨x, hx, -, rfl⟩ := mem_tidsOf.mp hlast
      obtain ⟨y, hy, -, htid⟩ := mem_tidsOf.mp ht
      exact (hfresh x hx).1 (List.mem_map.mpr ⟨y, hy, htid⟩)

end Step

end Net

/-- The tids requested in a run, by cluster. -/
def requestTokens (c : Constants) (es : List NetEvent) : List (Int × Int) :=
  (es.filterMap (NetEvent.requestTo c)).map fun x => (x.1, x.2.tid)

/-- No tid is requested twice from one cluster.  (A cross-shard transaction is sent to two.) -/
def DistinctTids (c : Constants) (es : List NetEvent) : Prop := (requestTokens c es).Nodup

instance (c : Constants) (es : List NetEvent) : Decidable (DistinctTids c es) :=
  inferInstanceAs (Decidable (List.Nodup _))

theorem DistinctTids.oneTxnPerTid {c : Constants} {es : List NetEvent} (h : DistinctTids c es) : OneTxnPerTid c es := by
  intro x hx y hy hk ht
  rw [List.inj_on_of_nodup_map h hx hy (Prod.ext hk ht)]

namespace Net

variable {c : Constants} {txnOf : Int → Int → Transaction}

theorem placed_run (es : List NetEvent) (htids : DistinctTids c es)
    (hok : okRun Net.step (fun n ev => n.noRepeat ev ∧ ev.Carries (fun k _ t txn => txn = txnOf k t) c) (Net.fresh c) es) :
    (Net.run c es).Placed (· ∈ requestTokens c es) := by
  induction es using List.reverseRecOn with
  | nil => exact .fresh c _
  | append_singleton es ev ih =>
    have hsplit : requestTokens c (es ++ [ev]) = requestTokens c es ++ requestTokens c [ev] := by
      rw [requestTokens, List.filterMap_append, List.map_append]
      rfl
    rw [DistinctTids, hsplit, List.nodup_append] at htids
    obtain ⟨hes, hev⟩ := okRun_append.mp hok
    have hr := reach_run c hes
    have hconst : (Net.run c es).constants = c := constants_reach hr
    have hcarries := (routed_reach (fun n ev hok => ⟨hok.1.1, hok.2⟩) hr).1
    rw [Net.run, List.foldl_append, List.foldl_cons, List.foldl_nil]
    refine (ih htids.1 hes).step hr hcarries hev.1.1.2 ?_ ?_
    · intro x hx
      rw [hsplit]
      exact List.mem_append_left _ hx
    · rw [hconst]
      intro y hy
      have hlast : (y.1, y.2.tid) ∈ requestTokens c [ev] := by
        simp [requestTokens, hy]
      refine ⟨fun hold => htids.2.2 _ hold _ hlast rfl, ?_⟩
      rw [hsplit]
      exact List.mem_append_right _ hlast

end Net

/-- **No repeated entry.**  In every run in which no tid is requested twice from a cluster and whose steps keep to
`noRepeat`, no log has two agreed entries with one tid. -/
theorem agreed_unrepeated (c : Constants) (es : List NetEvent) (htids : DistinctTids c es)
    (hok : okRun Net.step (fun n ev => n.noRepeat ev) (Net.fresh c) es) :
    ∀ i, ((agreed ((Net.run c es).servers i).ledger.log).map WALEntry.tid).Nodup := by
  have hguard := hok.and_forall htids.oneTxnPerTid.carries
  have hplaced := Net.placed_run es htids hguard
  have hentries := (Net.routed_reach (fun n ev hok => ⟨hok.1.1, hok.2⟩) (Net.reach_run c hguard)).2
  intro i
  refine nodup_tids ?_ (hplaced.commits i) ?_
  · exact (hplaced.prepares.places i).of_append_left.of_append_left.of_map _
  · -- a tid has one transaction, and that crosses the shard or stays in it
    intro x hx y hy htype htype' htid
    obtain ⟨htxn, hcross, -⟩ := ((hentries.ledgers i).log x (List.mem_of_mem_filter hx)).1
    obtain ⟨htxn', -, hintra⟩ := ((hentries.ledgers i).log y (List.mem_of_mem_filter hy)).1
    have hc := hcross htype
    rw [htxn, htid, ← htxn', Transaction.not_crosses_of_within (hintra htype')] at hc
    cases hc

/-- Server 1 leads a cross-shard prepare and a transfer with server 2.  Server 3 has promised nothing and turns the
prepare down; it hears of the third round, takes over the log of server 1, and leads a transfer with server 2. -/
def turnedDownThenSynced : List NetEvent :=
  [.input 1 (.tpcPrepare 0 ⟨⟨1, 1001, 1⟩, 1⟩), .deliver 0, .complete 0, .deliver 2, .deliver 3, .complete 2, .deliver 4,
   .input 1 (.transfer 1 ⟨⟨2, 3, 1⟩, 2⟩), .deliver 6, .complete 6, .deliver 8, .complete 8, .deliver 10,
   .input 1 (.transfer 2 ⟨⟨4, 5, 1⟩, 3⟩), .deliver 13, .deliver 14, .complete 14,
   .input 3 (.transfer 3 ⟨⟨6, 7, 1⟩, 4⟩), .deliver 16, .complete 16, .deliver 18, .complete 18, .deliver 20]

theorem agreed_unrepeated_turnedDownThenSynced :
    ((agreed ((Net.run ⟨3, 3⟩ turnedDownThenSynced).servers 3).ledger.log).map WALEntry.tid).Nodup :=
  agreed_unrepeated ⟨3, 3⟩ turnedDownThenSynced (by decide) (by decide +kernel) 3

/-- After two rounds, of which server 1 alone has the decision of the first, server 2 misses a third round and
catches up when it hears of a fourth.  The decision makes the log of server 1 longer by one, so the sync ships the
transfer of the second round once more. -/
def shippedWithDecision : List NetEvent :=
  twoRounds ++ [.input 1 (.transfer 2 ⟨⟨4, 5, 1⟩, 3⟩), .deliver 13, .complete 13, .deliver 15, .complete 15,
    .input 1 (.transfer 3 ⟨⟨6, 7, 1⟩, 4⟩), .deliver 18, .deliver 20, .complete 20]

theorem agreed_repeated_after_sync :
    ¬ ∀ es : List NetEvent, DistinctTids ⟨3, 3⟩ es →
      ∀ i, ((agreed ((Net.run ⟨3, 3⟩ es).servers i).ledger.log).map WALEntry.tid).Nodup := by
  intro h
  have htwice := h shippedWithDecision (by decide) 2
  revert htwice
  decide +kernel

end MultiPaxosDB
