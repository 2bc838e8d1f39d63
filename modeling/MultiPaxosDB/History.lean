/-
# MultiPaxosDB.History — what the logs and the RPC list never forget.

Four facts about whole runs that the agreement proof rests on: a log only grows; what a sync reply
carries is the end of a log its sender once had; a server sends one prepare per ballot number; and it
sends one accept per ballot to each server, so that no server accepts a ballot twice.
-/
import MultiPaxosDB.Batches

namespace MultiPaxosDB

open Lib

/-! ## Logs only grow -/

theorem LedgerStep.log_prefix {P : EntryPred} {S : WALEntry → Prop} {l l' : Ledger} (h : LedgerStep P S l l') :
    l.log <+: l'.log := by
  cases h with
  | prepare request ballot => exact List.prefix_append _ _
  | commit request ballot =>
    unfold Ledger.commitTransaction
    split
    · exact List.prefix_refl _
    · exact List.prefix_append _ _
  | decide tid isCommit =>
    simp only [Ledger.processTpcDecision, Ledger.decision_wal]
    split
    · exact List.prefix_append _ _
    · exact List.prefix_refl _
  | insert entry => exact List.prefix_append _ _
  | frame hf => rw [hf.log]

theorem ServerImpl.Core.grows {s t : ServerImpl} {e : Event} (h : Core s e t) (hs : s.ledger.Sound) :
    t.ledger.Sound ∧ s.ledger.log <+: t.ledger.log := by
  have hchain := h.ledger_chain (s.feeds_true e)
  exact reflTransGen_invariant (motive := fun l : Ledger => l.Sound ∧ s.ledger.log <+: l.log)
    (fun _ _ hstep hl => ⟨hl.1.step hstep, hl.2.trans hstep.log_prefix⟩) hchain ⟨hs, List.prefix_refl _⟩

/-- No move takes back that a tid is applied. -/
theorem ServerImpl.Core.applied_subset {s t : ServerImpl} {e : Event} (h : Core s e t)
    (hs : s.ledger.Sound) : s.ledger.balanceApplied ⊆ t.ledger.balanceApplied := by
  obtain ⟨ht, hlog⟩ := h.grows hs
  rw [hs.applied, ht.applied]
  exact committedTids_mono hlog.subset

/-- Releasing the locks of a round logs nothing. -/
theorem ServerImpl.log_foldl_releaseEntry (preparePhase : Bool) (batch : List BatchEntry) (l : Ledger) :
    (batch.foldl (releaseEntry preparePhase) l).log = l.log := by
  obtain ⟨locks, h⟩ := foldl_releaseEntry_eq preparePhase batch l
  rw [h]

theorem ServerImpl.log_prefix_handle (s : ServerImpl) (e : Event) :
    s.ledger.log <+: (s.handle e).ledger.log :=
  reflTransGen_invariant (motive := fun l : Ledger => s.ledger.log <+: l.log)
    (fun _ _ hstep hl => hl.trans hstep.log_prefix) (s.handle_chain e) (List.prefix_refl _)

namespace Net

variable {n : Net} {ev : NetEvent} {i : Int}

theorem log_prefix_step (n : Net) (ev : NetEvent) (j : Int) :
    (n.servers j).ledger.log <+: ((n.step ev).servers j).ledger.log := by
  rcases n.step_cases ev with ⟨-, hservers⟩ | ⟨i, e, u, -, -, hu, hstep⟩
  · rw [hservers]
  · rw [hstep]
    exact forall_servers_after (P := fun j s => (n.servers j).ledger.log <+: s.ledger.log) ev
      (fun _ => List.prefix_refl _) (hu ▸ (n.servers i).log_prefix_handle e) j

/-! ## Sync replies -/

/-- The reply `p` to the request `q` carries nothing, or what `log` held from the cut on at some time. -/
def Served (log : List WALEntry) (q : SyncReq) (p : SyncRes) : Prop :=
  p.logs = [] ∨ ∃ old, old <+: log ∧
    p.logs.map LogEntry.toWALEntry = old.drop (q.lastInserted + 1).toNat

theorem served_processSyncCall (l : Ledger) (q : SyncReq) : Served l.log q (l.processSyncCall q) := by
  unfold Ledger.processSyncCall
  split
  · split
    · exact .inr ⟨l.log, List.prefix_refl _, map_toWALEntry _⟩
    · exact .inl rfl
  · exact .inl rfl

theorem Served.mono {log log' : List WALEntry} {q : SyncReq} {p : SyncRes} (h : Served log q p)
    (hlog : log <+: log') : Served log' q p := by
  rcases h with hnil | ⟨old, hold, hlogs⟩
  · exact .inl hnil
  · exact .inr ⟨old, hold.trans hlog, hlogs⟩

/-- Every sync reply on the wire came out of the log of the server that gave it. -/
theorem served_reach {c : Constants} {ok : Net → NetEvent → Prop}
    (hr : Reach Net.step ok (Net.fresh c) n) : ∀ r ∈ n.rpcs, ∀ q p, r.req = .sync q →
      r.res = some (.sync p) → Served (n.servers r.dst).ledger.log q p := by
  refine hr.invariant (motive := fun n => ∀ r ∈ n.rpcs, ∀ q p, r.req = .sync q →
    r.res = some (.sync p) → Served (n.servers r.dst).ledger.log q p) ?_ ?_
  · intro r hr
    exact absurd hr List.not_mem_nil
  · intro n ev _ h _ r' hr' q p hreq hres
    have hold : ∀ r ∈ n.rpcs, r.Later r' → (r'.res = r.res ∨ n.AnsweredBy ev r r') →
        Served ((n.step ev).servers r'.dst).ledger.log q p := by
      intro r hr hlater hcase
      rw [hlater.dst]
      rw [hlater.req] at hreq
      rcases hcase with hsame | ⟨-, -, hnew⟩
      · exact (h r hr q p hreq (hsame ▸ hres)).mono (n.log_prefix_step ev r.dst)
      · rw [hnew, hreq, Option.some.injEq] at hres
        obtain rfl := RpcRes.sync.inj hres
        exact (served_processSyncCall _ q).mono (n.log_prefix_step ev r.dst)
    rcases n.step_cases ev with ⟨hnone, -⟩ | ⟨i, e, u, -, -, -, hstep⟩
    · obtain ⟨r, hr, hlater, hsame⟩ := mem_rpcs_step_of_none hnone hr'
      exact hold r hr hlater (.inl hsame)
    · rw [hstep] at hr'
      rcases mem_rpcs_after hr' with ⟨r, hr, hlater, hcase⟩ | ⟨-, -, hnone⟩
      · exact hold r hr hlater hcase
      · rw [hnone] at hres
        cases hres

/-- Behind an acknowledged sync reply stands the completion of a `Sync`. -/
theorem actor_syncReply {response : SyncRes} (h : n.actor ev = some (i, .syncReply .ok response)) :
    ∃ k r q, ev = .complete k ∧ n.rpcs[k]? = some r ∧ r.src = i ∧ r.req = .sync q ∧
      r.res = some (.sync response) ∧ r.done = false := by
  generalize hreply : Event.syncReply .ok response = e at h
  cases acts h with
  | input _ x _ => cases hreply
  | deliver k r hr hres => cases hreq : r.req <;> rw [hreq] at hreply <;> cases hreply
  | complete k r res _ hr hres hdone he =>
    obtain rfl := hreply
    unfold replyEvent at he
    split at he <;> cases he
    rename_i q hreq
    exact ⟨k, r, q, rfl, hr, rfl, hreq, hres, hdone⟩
  | fail k r status _ hr hdone hstatus he =>
    obtain rfl := hreply
    unfold replyEvent at he
    split at he <;> cases he
    exact absurd rfl hstatus

/-! ## One prepare per ballot number -/

/-- All prepares of one move are one prepare. -/
theorem Sends.prepare_unique (hwf : n.WellFormed) {q q' : PrepareReq} (h : n.Sends ev i (.prepare q))
    (h' : n.Sends ev i (.prepare q')) : q = q' := by
  obtain ⟨e, dst, hactor, hc⟩ := h.outbox
  obtain ⟨e', dst', hactor', hc'⟩ := h'.outbox
  rw [hactor, Option.some.injEq, Prod.mk.injEq] at hactor'
  obtain ⟨-, rfl⟩ := hactor'
  have hjust := justified hactor
  generalize hu : (n.servers i).handle e = u at hc hc'
  cases ServerImpl.moves_of_handle hu with
  | done hcore => exact absurd rfl ((hwf.core_sent hjust hcore hc).2 q)
  | @start t hcore =>
    -- what is not the prepare of the new phase was sent by the move before it, and is no prepare
    have hnext : ∀ {dst q}, { dst := dst, req := .prepare q } ∈
        t.takePending.reissuePrepareForCurrent.outbox → q = t.takePending.nextPrepare := by
      intro dst q hc
      rcases ServerImpl.mem_outbox_reissue hc with hold | ⟨-, hreq⟩
      · exact absurd rfl ((hwf.core_sent hjust hcore hold).2 q)
      · exact RpcReq.prepare.inj hreq
    rw [hnext hc, hnext hc']
  | @retry t hpre =>
    have hnext : ∀ {dst q}, { dst := dst, req := .prepare q } ∈ t.reissuePrepareForCurrent.outbox →
        q = t.nextPrepare := by
      intro dst q hc
      rcases ServerImpl.mem_outbox_reissue hc with hold | ⟨-, hreq⟩
      · rw [hpre.outbox] at hold
        exact absurd hold List.not_mem_nil
      · exact RpcReq.prepare.inj hreq
    rw [hnext hc, hnext hc']

/-- While ballots only rise, a server sends one prepare per number. -/
theorem issuedOnce_reach {c : Constants}
    (hr : Reach Net.step (fun n ev => n.syncRaises ev = true) (Net.fresh c) n) :
    ∀ i q q', n.Issued i q → n.Issued i q' → q.ballot.num = q'.ballot.num → q = q' := by
  refine hr.invariant (motive := fun n => ∀ i q q', n.Issued i q → n.Issued i q' →
    q.ballot.num = q'.ballot.num → q = q') (fun i q _ hq => absurd hq (not_issued_fresh c i q)) ?_
  intro n ev hr h hok i q q' hq hq' hnum
  have hl := lawful_reach hr
  rcases hasSent_step hq with hold | hnew
  · rcases hasSent_step hq' with hold' | hnew'
    · exact h i q q' hold hold' hnum
    · have hle := hl.bound.issued i q hold
      have hlt := (sends_bound hl.wf hl.phase hok hnew').1
      omega
  · rcases hasSent_step hq' with hold' | hnew'
    · have hle := hl.bound.issued i q' hold'
      have hlt := (sends_bound hl.wf hl.phase hok hnew).1
      omega
    · exact hnew.prepare_unique hl.wf hnew'

end Net

/-! ## One accept per ballot and destination -/

/-- The ballot of an `AcceptReq`. -/
def RpcReq.acceptBallot : RpcReq → Option Ballot
  | .accept a => some a.ballot
  | _ => none

/-- The destinations and ballots of the accepts among some calls. -/
def acceptsAmong (calls : List (Int × RpcReq)) : List (Int × Option Ballot) :=
  (calls.map fun p => (p.1, p.2.acceptBallot)).filter fun p => p.2.isSome

theorem acceptsAmong_append (xs ys : List (Int × RpcReq)) :
    acceptsAmong (xs ++ ys) = acceptsAmong xs ++ acceptsAmong ys := by
  simp [acceptsAmong]

theorem acceptsAmong_eq_nil {calls : List (Int × RpcReq)} (h : ∀ p ∈ calls, p.2.acceptBallot = none) :
    acceptsAmong calls = [] := by
  unfold acceptsAmong
  rw [List.filter_eq_nil_iff]
  intro p hp
  obtain ⟨q, hq, rfl⟩ := List.mem_map.mp hp
  simp [h q hq]

theorem mem_acceptsAmong {calls : List (Int × RpcReq)} {p : Int × Option Ballot}
    (h : p ∈ acceptsAmong calls) : ∃ a, (p.1, RpcReq.accept a) ∈ calls ∧ p.2 = some a.ballot := by
  obtain ⟨hmem, hsome⟩ := List.mem_filter.mp h
  obtain ⟨⟨dst, req⟩, hcall, rfl⟩ := List.mem_map.mp hmem
  cases req with
  | accept a => exact ⟨a, hcall, rfl⟩
  | _ => cases hsome

namespace ServerImpl

/-- What a server sends, as calls. -/
def calls (s : ServerImpl) : List (Int × RpcReq) := s.outbox.map fun c => (c.dst, c.req)

/-- Calls of which none is an accept. -/
theorem acceptsAmong_calls_of_append {s t : ServerImpl} {sent : List OutCall}
    (h : t.outbox = s.outbox ++ sent) (hsent : ∀ c ∈ sent, c.req.acceptBallot = none) :
    acceptsAmong t.calls = acceptsAmong s.calls := by
  have hnone : acceptsAmong (sent.map fun c => (c.dst, c.req)) = [] := by
    apply acceptsAmong_eq_nil
    intro p hp
    obtain ⟨c, hc, rfl⟩ := List.mem_map.mp hp
    exact hsent c hc
  rw [calls, h, List.map_append, acceptsAmong_append, hnone, List.append_nil]
  rfl

/-- A move sends at most one accept to each stub. -/
theorem Core.accepts_nodup {s t : ServerImpl} {e : Event} (h : Core s e t) (hout : s.outbox = [])
    (hstubs : s.stubs.Nodup) : (acceptsAmong t.calls).Nodup := by
  have hempty : acceptsAmong s.calls = [] := by
    rw [calls, hout]
    rfl
  have hnone : ∀ {t : ServerImpl} {sent : List OutCall}, t.outbox = s.outbox ++ sent →
      (∀ c ∈ sent, c.req.acceptBallot = none) → (acceptsAmong t.calls).Nodup := by
    intro t sent ht hsent
    rw [acceptsAmong_calls_of_append ht hsent, hempty]
    exact List.nodup_nil
  cases h with
  | propose x y =>
    show (acceptsAmong ((s.outbox ++ s.stubs.map fun dst =>
      ({ dst := dst, req := .accept s.proposal } : OutCall)).map fun c => (c.dst, c.req))).Nodup
    rw [hout, List.nil_append, List.map_map]
    refine List.Nodup.filter _ ?_
    rw [List.map_map]
    exact hstubs.map fun a b hab => (Prod.mk.inj hab).1
  | behind request =>
    apply hnone (show _ = s.outbox ++ [_] from rfl)
    intro c hc
    rw [List.mem_singleton.mp hc]
    rfl
  | staleLog x y index =>
    apply hnone (show _ = s.outbox ++ [_] from rfl)
    intro c hc
    rw [List.mem_singleton.mp hc]
    rfl
  | commitRound x y =>
    apply hnone (show _ = s.outbox ++ s.stubs.map _ from rfl)
    intro c hc
    obtain ⟨dst, -, rfl⟩ := List.mem_map.mp hc
    rfl
  | _ => exact hnone (show _ = s.outbox ++ [] from (List.append_nil _).symm) (by simp)

/-- The prepares of a new phase are no accepts. -/
theorem acceptsAmong_reissue (t : ServerImpl) :
    acceptsAmong t.reissuePrepareForCurrent.calls = acceptsAmong t.calls := by
  apply acceptsAmong_calls_of_append (show _ = t.outbox ++ t.stubs.map _ from rfl)
  intro c hc
  obtain ⟨dst, -, rfl⟩ := List.mem_map.mp hc
  rfl

theorem Moves.accepts_nodup {s u : ServerImpl} {e : Event} (h : Moves s e u) (hout : s.outbox = [])
    (hstubs : s.stubs.Nodup) : (acceptsAmong u.calls).Nodup := by
  cases h with
  | done hcore => exact hcore.accepts_nodup hout hstubs
  | @start t hcore =>
    rw [acceptsAmong_reissue]
    exact hcore.accepts_nodup hout hstubs
  | @retry t hpre =>
    have hempty : t.calls = [] := by
      rw [calls, hpre.outbox, hout]
      rfl
    rw [acceptsAmong_reissue, hempty]
    exact List.nodup_nil

end ServerImpl

namespace Net

variable {n : Net} {ev : NetEvent} {i : Int}

/-- The calls ever made. -/
def calls (n : Net) : List (Int × RpcReq) := n.rpcs.map fun r => (r.dst, r.req)

theorem calls_mark (n : Net) (ev : NetEvent) :
    (n.mark ev).map (fun r => (r.dst, r.req)) = n.calls := by
  refine List.ext_getElem? ?_
  intro k
  rw [calls, List.getElem?_map, List.getElem?_map]
  cases hk : n.rpcs[k]? with
  | none =>
    have hlen : n.rpcs.length ≤ k := List.getElem?_eq_none_iff.mp hk
    rw [List.getElem?_eq_none (by rw [length_mark]; exact hlen)]
  | some r =>
    obtain ⟨r', hr', hlater, -⟩ := getElem?_mark ev hk
    rw [hr', Option.map_some, Option.map_some, hlater.dst, hlater.req]

theorem calls_after (n : Net) (ev : NetEvent) (i : Int) (t : ServerImpl) :
    (n.after ev i t).calls = n.calls ++ t.calls := by
  rw [← n.calls_mark ev]
  simp [calls, after, ServerImpl.calls, sentBy]

/-- In a run with one batch per number, no server is sent two accepts with one ballot. -/
theorem acceptsOnce_reach {c : Constants} (hc : c.clusterSize = 3)
    (hr : Reach Net.step (fun n ev => n.syncRaises ev = true) (Net.fresh c) n) :
    (acceptsAmong n.calls).Nodup := by
  refine hr.invariant (motive := fun n => (acceptsAmong n.calls).Nodup)
    (show (acceptsAmong []).Nodup from List.nodup_nil) ?_
  intro n ev hr h hok
  have hl := lawful_reach hr
  have hrounds := rounds_reach hc hr
  have hsize : n.constants.clusterSize = 3 := by rw [constants_reach hr]; exact hc
  rcases n.step_cases ev with ⟨hnone, -⟩ | ⟨i, e, u, hactor, hmoves, hu, hstep⟩
  · have hcalls : (n.step ev).calls = n.calls := by
      rw [← n.calls_mark ev]
      simp [calls, step, hnone]
    rwa [hcalls]
  · rw [hstep, calls_after, acceptsAmong_append]
    refine List.nodup_append.mpr ⟨h, hmoves.accepts_nodup rfl ?_, ?_⟩
    · show (n.servers i).stubs.Nodup
      rw [hl.wf.stubs i]
      exact nodup_stubsOf n.constants i
    · intro p hold p' hnew heq
      obtain ⟨a, hcall, hballot⟩ := mem_acceptsAmong hold
      obtain ⟨a', hcall', hballot'⟩ := mem_acceptsAmong hnew
      obtain ⟨r, hr, hreq⟩ := List.mem_map.mp hcall
      obtain ⟨o, ho, horeq⟩ := List.mem_map.mp hcall'
      have hprop : n.Proposed r.src a := ⟨r, hr, rfl, (Prod.mk.inj hreq).2⟩
      have hmem : { dst := o.dst, req := .accept a' } ∈ ((n.servers i).handle e).outbox := by
        rw [hu, ← (Prod.mk.inj horeq).2]
        exact ho
      obtain ⟨rfl, status, request, response, x, y, hactor', hawait, hcount, hmaj⟩ :=
        (sends_of_outbox hactor hmem).proposal
      have hself := (hrounds.quorum_of_counts hl hsize hactor' hawait hcount hmaj).2
      have hsame : a.ballot = (n.servers i).promisedNum := by
        rw [heq, hballot', Option.some.injEq] at hballot
        exact hballot.symm
      -- the older proposal would be one of the same server under its present number
      have hsrc : r.src = i := by
        rw [← hrounds.proposal_serverId hl hprop, hsame]
        exact hself
      rw [hsrc] at hprop
      have hlt := (hrounds.awaits i hawait).fresh a hprop
      rw [((hl.phase i).prepare hawait).1, hsame] at hlt
      exact absurd hlt (lt_irrefl _)

/-- Two accepts with one ballot to one server are one RPC. -/
theorem eq_of_accepts (h : (acceptsAmong n.calls).Nodup) {r r' : Rpc} {a a' : AcceptReq}
    (hr : r ∈ n.rpcs) (hr' : r' ∈ n.rpcs) (ha : r.req = .accept a) (ha' : r'.req = .accept a')
    (hdst : r.dst = r'.dst) (hballot : a.ballot = a'.ballot) : r = r' := by
  have hkeys : acceptsAmong n.calls = (n.rpcs.filter fun r => r.req.acceptBallot.isSome).map fun r =>
      (r.dst, r.req.acceptBallot) := by
    rw [acceptsAmong, calls, List.map_map, List.filter_map]
    rfl
  rw [hkeys] at h
  refine List.inj_on_of_nodup_map h ?_ ?_ ?_
  · exact List.mem_filter.mpr ⟨hr, by rw [ha]; rfl⟩
  · exact List.mem_filter.mpr ⟨hr', by rw [ha']; rfl⟩
  · simp only [ha, ha', hdst, RpcReq.acceptBallot, hballot]

end Net

end MultiPaxosDB
