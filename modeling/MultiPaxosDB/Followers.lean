/-
# MultiPaxosDB.Followers — one leader per cluster.

Nothing in the code elects a leader or keeps one.  Who leads is decided by the client: a server starts a round when a
request is queued on it and at no other time.  So if all requests go to one server of each cluster, no other server ever
prepares (`Followed.idle`, `Followed.senders`); the promises of a cluster are all to that one server; what the others log
as agreed they have from it, so it is never behind them (`Followed.behind`), and it never has to ask for a sync.

What `Conservation`, `LeaderBooks` and `Serial` ask of a run, that its leaders hear from no other proposer and sync with
nobody, is therefore a matter of where the client sends its requests (`replicas_follow`), up to the one thing that goes
wrong by itself: a sync reply is cut by raw index and applied whenever it arrives, so that a replica can come out with
more agreed entries than its leader.  Of the guards of `Agreement` only those for syncs are left in `ledStep`: that the
ballot is not lowered, that the cut is right, and that a batch is accepted in place.
-/
import MultiPaxosDB.Agreement
import MultiPaxosDB.LeaderBooks
import MultiPaxosDB.Session

namespace MultiPaxosDB

open Lib

/-! ## The head of a cluster -/

/-- The leader of the cluster of server `i`. -/
def headOf (c : Constants) (leaders : List Int) (i : Int) : Int := Client.leaderOf leaders (getClusterIdFromServerId c i)

section Head

variable {c : Constants} {leaders : List Int} {i j : Int}

theorem headOf_of_isLeader (h : isLeader c leaders i) : headOf c leaders i = i := h.2

theorem headOf_of_stub (h : j ∈ stubsOf c i) : headOf c leaders j = headOf c leaders i := by
  rw [headOf, (mem_stubsOf.mp h).2.1]
  rfl

end Head

/-! ## One server -/

namespace ServerImpl

variable {s t u : ServerImpl} {e : Event}

/-- No batch and no round. -/
structure Idle (s : ServerImpl) : Prop where
  pending : s.pending = []
  current : s.current = []
  prepare : s.awaitPrepareDecision = false
  accept : s.awaitAcceptDecision = false

theorem Idle.not_preparing (hs : s.Idle) : ¬ s.awaitPrepareDecision = true := by simp [hs.prepare]

theorem Idle.not_accepting (hs : s.Idle) : ¬ s.awaitAcceptDecision = true := by simp [hs.accept]

/-- A server that nothing is asked of stays idle. -/
theorem Core.stays_idle (h : Core s e t) (hs : s.Idle) (he : e.entries = []) : t.Idle := by
  cases h with
  | transfer | tpcPrepare => cases he
  | countPrepare _ _ hawait | staleLog _ _ _ hawait | reject _ _ hawait | propose _ _ hawait
  | abortPrepare _ _ hawait => exact absurd hawait hs.not_preparing
  | countAccept _ _ hawait | commitRound _ _ hawait | abortAccept _ _ hawait => exact absurd hawait hs.not_accepting
  | _ => exact ⟨hs.pending, hs.current, hs.prepare, hs.accept⟩

/-- It makes no other move than these. -/
theorem Moves.core_of_idle (h : Moves s e u) (hs : s.Idle) (he : e.entries = []) : Core s e u := by
  cases h with
  | done hcore => exact hcore
  | start hcore _ _ hpending => exact absurd (hcore.stays_idle hs he).pending hpending
  | retry hpre =>
    cases hpre with
    | staleBallot _ _ _ hawait => exact absurd hawait hs.not_preparing
    | synced _ _ hcurrent | notSynced hcurrent => exact absurd hs.current hcurrent

/-- It sends syncs only. -/
theorem Core.sync_of_idle (h : Core s e t) (hs : s.Idle) (hout : s.outbox = []) {call : OutCall} (hc : call ∈ t.outbox) :
    call.req.isSync = true := by
  cases h.sent hout hc with
  | behind | staleLog => rfl
  | accept _ _ _ _ hawait => exact absurd hawait hs.not_preparing
  | commit _ _ _ _ hawait => exact absurd hawait hs.not_accepting

/-- A server that no other proposes to, and that is shown no larger index, never sends a sync. -/
theorem Moves.not_sync (h : Moves s e u) (hout : s.outbox = []) (hcall : ∀ request, e ≠ .prepareCall request)
    (hindex : ∀ request response k, e = .prepareReply .ok request response → response.paxosIndex = some k →
      k ≤ s.ledger.paxosIndex) {call : OutCall} (hc : call ∈ u.outbox) : call.req.isSync = false := by
  have hall : ∀ {call : OutCall} {req : RpcReq}, req.isSync = false →
      call ∈ s.outbox ++ s.stubs.map (fun dst => { dst := dst, req := req }) → call.req.isSync = false := by
    intro call req hreq hmem
    rw [hout, List.nil_append] at hmem
    obtain ⟨dst, -, rfl⟩ := List.mem_map.mp hmem
    exact hreq
  have hcore : ∀ {t}, Core s e t → ∀ {call}, call ∈ t.outbox → call.req.isSync = false := by
    intro t h call hc
    cases h with
    | behind request => exact absurd rfl (hcall request)
    | staleLog _ _ k _ _ _ hk hlt =>
      have hle := hindex _ _ k rfl hk
      omega
    | propose => exact hall rfl hc
    | commitRound => exact hall rfl hc
    | _ => exact absurd (hout ▸ hc) List.not_mem_nil
  cases h with
  | done h => exact hcore h hc
  | start h =>
    rcases mem_outbox_reissue hc with hold | ⟨-, hreq⟩
    · exact hcore h hold
    · rw [hreq]
      rfl
  | retry hpre =>
    rcases mem_outbox_reissue hc with hold | ⟨-, hreq⟩
    · rw [hpre.outbox, hout] at hold
      cases hold
    · rw [hreq]
      rfl

/-- The index that a server shows is its own. -/
theorem paxosIndex_processPrepareCall {request : PrepareReq} {k : Int}
    (h : (s.processPrepareCall request).2.paxosIndex = some k) : k = s.ledger.paxosIndex := by
  unfold processPrepareCall at h
  split at h
  · cases h
  · dsimp only at h
    split at h
    · cases h
    · split at h
      · dsimp only at h
        split at h
        · rw [← Option.some.inj h]
          unfold promise
          split_ifs <;> rfl
        · cases h
      · cases h

/-- The server is engaged: it has promised, or its own round is under way. -/
def Engaged (s : ServerImpl) : Prop :=
  s.promised = true ∨ s.awaitPrepareDecision = true ∨ s.awaitAcceptDecision = true

/-- To whom a server is engaged after a move: to the one it was engaged to, to the one whose prepare it acknowledges, or
to itself. -/
theorem Core.engaged (h : Core s e t) (ht : t.Engaged) :
    (s.Engaged ∧ t.promisedNum = s.promisedNum) ∨ ∃ request, e = .prepareCall request ∧ t.promisedNum = request.ballot := by
  cases h with
  | promise request => exact .inr ⟨request, rfl, rfl⟩
  | countPrepare _ _ hawait | staleLog _ _ _ hawait | reject _ _ hawait | propose _ _ hawait
  | abortPrepare _ _ hawait => exact .inl ⟨.inr (.inl hawait), rfl⟩
  | countAccept _ _ hawait | commitRound _ _ hawait | abortAccept _ _ hawait => exact .inl ⟨.inr (.inr hawait), rfl⟩
  | commit request =>
    refine .inl ⟨?_, rfl⟩
    rcases ht with hfalse | hawait | hawait
    · cases hfalse
    · exact .inr (.inl hawait)
    · exact .inr (.inr hawait)
  | _ => exact .inl ⟨ht, rfl⟩

end ServerImpl

/-! ## The network -/

namespace Net

variable {n : Net} {ev : NetEvent} {i j : Int} {leaders : List Int}

/-- Requests come to the leaders only and by their shards, and the syncs are in order. -/
structure Led (leaders : List Int) (n : Net) (ev : NetEvent) : Prop where
  requests : ∀ i e, n.actor ev = some (i, e) → e.entries ≠ [] → isLeader n.constants leaders i
  shards : ev.Carries (fun k => byShard (accountsOf n.constants k)) n.constants
  raises : n.syncRaises ev = true
  cut : n.syncCut ev = true
  inPlace : n.acceptsInPlace ev = true

structure Followed (leaders : List Int) (n : Net) : Prop where
  idle : ∀ i, ¬ isLeader n.constants leaders i → (n.servers i).Idle
  /-- Leaders prepare, propose and announce; the others sync. -/
  senders : ∀ r ∈ n.rpcs, isLeader n.constants leaders r.src ↔ r.req.isSync = false
  promises : ∀ i, (n.servers i).Engaged → (n.servers i).promisedNum.serverId = headOf n.constants leaders i
  /-- An index that a replica has shown is not beyond its sequence. -/
  indexes : ∀ r ∈ n.rpcs, ∀ response, r.res = some (.prepare response) → ∀ k, response.paxosIndex = some k →
    k < (n.seq r.dst).length
  behind : ∀ i ∈ serverIds n.constants, n.seq i <+: n.seq (headOf n.constants leaders i)

theorem Followed.fresh (c : Constants) (leaders : List Int) : (Net.fresh c).Followed leaders where
  idle := fun _ _ => ⟨rfl, rfl, rfl, rfl⟩
  senders := fun _ hr => absurd hr List.not_mem_nil
  promises := by
    intro i h
    rcases h with h | h | h <;> cases h
  indexes := fun _ hr => absurd hr List.not_mem_nil
  behind := fun _ _ => List.prefix_refl _

section Guards

variable (h : n.Followed leaders) (hwf : n.WellFormed)
include h hwf

/-- A call of the protocol is from the head of the cluster to another server of it. -/
theorem Followed.callee {r : Rpc} (hr : r ∈ n.rpcs) (hsync : r.req.isSync = false) :
    headOf n.constants leaders r.dst = r.src ∧ ¬ isLeader n.constants leaders r.dst := by
  have hrpc := hwf.rpcs r hr
  have hhead : headOf n.constants leaders r.dst = r.src := by
    rw [headOf_of_stub hrpc.dst]
    exact headOf_of_isLeader ((h.senders r hr).mpr hsync)
  refine ⟨hhead, fun hleader => ?_⟩
  have hself := headOf_of_isLeader hleader
  exact (mem_stubsOf.mp hrpc.dst).2.2 (hself.symm.trans hhead)

/-- The head of a cluster is in front. -/
theorem Followed.leads (hi : isLeader n.constants leaders i) : n.leads i = true := by
  refine List.all_eq_true.mpr fun j hj => decide_eq_true ?_
  have hbehind := h.behind j (mem_stubsOf.mp hj).1
  rw [headOf_of_stub hj, headOf_of_isLeader hi] at hbehind
  have hleni := hwf.length_seq i
  have hlenj := hwf.length_seq j
  have hle := hbehind.length_le
  omega

/-- A leader hears from no proposer and from no sync. -/
theorem Followed.own {e : Event} (hactor : n.actor ev = some (i, e)) (hi : isLeader n.constants leaders i) :
    e.own = true := by
  have hjust := justified hactor
  cases e with
  | prepareCall request | acceptCall request | commitCall request =>
    obtain ⟨r, hr, rfl, hreq, -⟩ := hjust
    exact absurd hi (h.callee hwf hr (by rw [hreq]; rfl)).2
  | syncReply status response =>
    obtain ⟨r, hr, rfl, ⟨request, hreq⟩, -⟩ := hjust
    have hsync := (h.senders r hr).mp hi
    rw [hreq] at hsync
    cases hsync
  | _ => rfl

omit hwf in
/-- A server whose round is under way is a leader. -/
theorem Followed.isLeader_of_await (hawait : (n.servers i).awaitPrepareDecision = true ∨
    (n.servers i).awaitAcceptDecision = true) : isLeader n.constants leaders i := by
  by_contra hnot
  exact hawait.elim (h.idle i hnot).not_preparing (h.idle i hnot).not_accepting

theorem Followed.quorumAtFront (ev : NetEvent) : n.quorumAtFront ev = true := by
  unfold Net.quorumAtFront
  split
  · rename_i i request response hactor
    cases hawait : (n.servers i).awaitPrepareDecision with
    | false => simp
    | true => simp [h.leads hwf (h.isLeader_of_await (.inl hawait))]
  · rename_i i request response hactor
    cases hawait : (n.servers i).awaitAcceptDecision with
    | false => simp
    | true =>
      have hi := h.isLeader_of_await (.inr hawait)
      have hown := h.promises i (.inr (.inr hawait))
      rw [headOf_of_isLeader hi] at hown
      simp [h.leads hwf hi, hown]
  · rfl

theorem Followed.acceptsPromised {txnOf : Int → Int → Transaction} (ho : n.Orderly txnOf) (ev : NetEvent) :
    n.acceptsPromised ev = true := by
  unfold Net.acceptsPromised
  split
  · rename_i j request hactor
    cases hacc : (n.servers j).accepts request with
    | false => simp
    | true =>
      obtain ⟨r, hr, rfl, hreq, -⟩ := justified hactor
      have hsrc := ho.rounds.proposal_serverId ho.lawful ⟨r, hr, rfl, hreq⟩
      have hhead := (h.callee hwf hr (by rw [hreq]; rfl)).1
      have hpromised : (n.servers r.dst).promised = true := by
        simp only [ServerImpl.accepts, Bool.and_eq_true] at hacc
        exact hacc.1
      have hto := h.promises r.dst (.inl hpromised)
      simp [hto, hhead, hsrc]
  · rfl

/-- **With one leader per cluster a step keeps the replicas in agreement**, if its syncs are in order. -/
theorem Followed.ordered {txnOf : Int → Int → Transaction} (ho : n.Orderly txnOf) (hled : n.Led leaders ev) :
    n.ordered false ev := by
  refine ⟨hled.shards, ?_, h.quorumAtFront hwf ev, hled.cut, hled.inPlace⟩
  rw [oneBatchPerNumber, hled.raises, h.acceptsPromised hwf ho ev]
  rfl

end Guards

/-! ### What a follower copies -/

section Copies

variable {txnOf : Int → Int → Transaction} (ha : n.Agreeing false) (ho : n.Orderly txnOf)
include ha ho

/-- **A follower copies**: its agreed entries stay what they are, or become a prefix of another server's. -/
theorem Agreeing.copies (hok : n.ordered false ev) {e : Event} {t : ServerImpl} (hactor : n.actor ev = some (i, e))
    (hidle : (n.servers i).Idle) (hcore : ServerImpl.Core { n.servers i with outbox := [] } e t) :
    n.Copied i (agreed t.ledger.log) := by
  cases hcore with
  | decision tid isCommit => exact .inl (Ledger.agreed_processTpcDecision (ho.lawful.wf.sound i).wal tid isCommit)
  | sweep => exact .inl (Ledger.agreed_sweep (ho.lawful.wf.sound i).wal)
  | accept request hconn hacc =>
    obtain ⟨p, hp, -, hpre⟩ := ha.accept ho hactor hok hconn hacc
    exact .inr ⟨p, hp, ho.seq_accept i request ▸ hpre⟩
  | commit request hconn hcom =>
    obtain ⟨a, hballot, hbatch, -, hcopied⟩ := ha.commit ho hactor hcom
    exact ho.seq_commit hballot hbatch ▸ hcopied
  | synced response hack => exact ha.synced ho hactor hack hok
  | countPrepare _ _ hawait | staleLog _ _ _ hawait | reject _ _ hawait | propose _ _ hawait
  | abortPrepare _ _ hawait => exact absurd hawait hidle.not_preparing
  | countAccept _ _ hawait | commitRound _ _ hawait | abortAccept _ _ hawait => exact absurd hawait hidle.not_accepting
  | _ => exact .inl rfl

end Copies

/-! ### One step -/

section Step

variable {txnOf : Int → Int → Transaction} (h : n.Followed leaders) (ho : n.Orderly txnOf) (hled : n.Led leaders ev)
include h hled

/-- What a follower does. -/
theorem Followed.core {e : Event} {u : ServerImpl} (hactor : n.actor ev = some (i, e))
    (hmoves : ServerImpl.Moves { n.servers i with outbox := [] } e u) (hi : ¬ isLeader n.constants leaders i) :
    ServerImpl.Core { n.servers i with outbox := [] } e u ∧ u.Idle := by
  have hidle : ServerImpl.Idle { n.servers i with outbox := [] } :=
    ⟨(h.idle i hi).pending, (h.idle i hi).current, (h.idle i hi).prepare, (h.idle i hi).accept⟩
  have hno : e.entries = [] := by
    by_contra hne
    exact hi (hled.requests i e hactor hne)
  have hcore := hmoves.core_of_idle hidle hno
  exact ⟨hcore, hcore.stays_idle hidle hno⟩

include ho

/-- What the acting server sends. -/
theorem Followed.sends {e : Event} {u : ServerImpl} (hactor : n.actor ev = some (i, e))
    (hmoves : ServerImpl.Moves { n.servers i with outbox := [] } e u) {call : OutCall} (hc : call ∈ u.outbox) :
    isLeader n.constants leaders i ↔ call.req.isSync = false := by
  have hwf := ho.lawful.wf
  by_cases hi : isLeader n.constants leaders i
  · refine ⟨fun _ => hmoves.not_sync rfl ?_ ?_ hc, fun _ => hi⟩
    · rintro request rfl
      cases h.own hwf hactor hi
    · -- what a replica has shown is not beyond its own sequence, and that is not beyond the leader's
      rintro request response k rfl hk
      obtain ⟨r, hr, rfl, hreq, hres⟩ := justified hactor
      have hlt := h.indexes r hr response (hres rfl) k hk
      have hhead := (h.callee hwf hr (by rw [hreq]; rfl)).1
      have hbehind := h.behind r.dst (mem_stubsOf.mp (hwf.rpcs r hr).dst).1
      rw [hhead] at hbehind
      have hle := hbehind.length_le
      have hlen := hwf.length_seq r.src
      show k ≤ (n.servers r.src).ledger.paxosIndex
      omega
  · obtain ⟨hcore, -⟩ := h.core hled hactor hmoves hi
    have hidle : ServerImpl.Idle { n.servers i with outbox := [] } :=
      ⟨(h.idle i hi).pending, (h.idle i hi).current, (h.idle i hi).prepare, (h.idle i hi).accept⟩
    have hsync := hcore.sync_of_idle hidle rfl hc
    simp [hi, hsync]

/-- To whom the acting server is engaged. -/
theorem Followed.engaged {e : Event} {u : ServerImpl} (hactor : n.actor ev = some (i, e))
    (hmoves : ServerImpl.Moves { n.servers i with outbox := [] } e u) (hu : u.Engaged) :
    u.promisedNum.serverId = headOf n.constants leaders i := by
  have hwf := ho.lawful.wf
  have hcore : ∀ {t}, ServerImpl.Core { n.servers i with outbox := [] } e t → t.Engaged →
      t.promisedNum.serverId = headOf n.constants leaders i := by
    intro t hcore ht
    rcases hcore.engaged ht with ⟨hold, heq⟩ | ⟨request, rfl, heq⟩
    · rw [heq]
      exact h.promises i hold
    · obtain ⟨r, hr, rfl, hreq, -⟩ := justified hactor
      rw [heq, (hwf.rpcs r hr).proposer request hreq]
      exact (h.callee hwf hr (by rw [hreq]; rfl)).1.symm
  by_cases hi : isLeader n.constants leaders i
  · have hself : u.serverId = headOf n.constants leaders i := by
      rw [headOf_of_isLeader hi, hmoves.identity.1]
      exact hwf.serverId i
    cases hmoves with
    | done hdone => exact hcore hdone hu
    | start => exact hself
    | retry => exact hself
  · exact hcore (h.core hled hactor hmoves hi).1 hu

theorem Followed.step (ha : n.Agreeing false) : (n.step ev).Followed leaders := by
  have hwf := ho.lawful.wf
  have hgrow : ∀ j, (n.seq j).length ≤ ((n.step ev).seq j).length := fun j => (n.seq_prefix_step ev j).length_le
  rcases n.step_cases ev with ⟨hnone, hservers⟩ | ⟨i, e, u, hactor, hmoves, -, hstep⟩
  · refine ⟨?_, ?_, ?_, ?_, ?_⟩
    · rw [hservers, constants_step]
      exact h.idle
    · intro r' hr'
      obtain ⟨r, hr, hlater, -⟩ := mem_rpcs_step_of_none hnone hr'
      rw [constants_step, hlater.src, hlater.req]
      exact h.senders r hr
    · rw [hservers, constants_step]
      exact h.promises
    · intro r' hr' response hres k hk
      obtain ⟨r, hr, hlater, hsame⟩ := mem_rpcs_step_of_none hnone hr'
      have hlt := h.indexes r hr response (hsame ▸ hres) k hk
      have hle := hgrow r.dst
      rw [hlater.dst]
      omega
    · have hseq : (n.step ev).seq = n.seq := by
        funext j
        rw [seq, hservers]
        rfl
      rw [hseq, constants_step]
      exact h.behind
  · refine ⟨?_, ?_, ?_, ?_, ?_⟩
    · rw [hstep]
      exact forall_servers_after (P := fun j s => ¬ isLeader n.constants leaders j → s.Idle) ev h.idle fun hi =>
        (h.core hled hactor hmoves hi).2
    · intro r' hr'
      rw [constants_step]
      rw [hstep] at hr'
      rcases mem_rpcs_after hr' with ⟨r, hr, hlater, -⟩ | ⟨rfl, hc, -⟩
      · rw [hlater.src, hlater.req]
        exact h.senders r hr
      · exact h.sends ho hled hactor hmoves hc
    · rw [hstep]
      exact forall_servers_after (P := fun j s => s.Engaged → s.promisedNum.serverId = headOf n.constants leaders j) ev
        h.promises (h.engaged ho hled hactor hmoves)
    · intro r' hr' response hres k hk
      have hle := hgrow r'.dst
      rw [hstep] at hr'
      rcases mem_rpcs_after hr' with ⟨r, hr, hlater, hsame | ⟨-, -, hanswer⟩⟩ | ⟨-, -, hres'⟩
      · have hlt := h.indexes r hr response (hsame ▸ hres) k hk
        rw [← hlater.dst] at hlt
        omega
      · rw [hanswer] at hres
        have hlen := hwf.length_seq r.dst
        rw [← hlater.dst] at hlen hres
        cases hreq : r.req with
        | prepare request =>
          rw [hreq] at hres
          cases hres
          have heq := ServerImpl.paxosIndex_processPrepareCall hk
          omega
        | accept | commit | sync =>
          rw [hreq] at hres
          cases hres
      · rw [hres'] at hres
        cases hres
    · intro j hj
      rw [constants_step] at hj ⊢
      by_cases hji : j = i
      · subst hji
        by_cases hi : isLeader n.constants leaders j
        · rw [headOf_of_isLeader hi]
        · obtain ⟨hcore, -⟩ := h.core hled hactor hmoves hi
          have hok := h.ordered hwf ho hled
          refine List.IsPrefix.trans ?_ (n.seq_prefix_step ev _)
          rw [hstep, seq_after, Function.update_self]
          rcases ha.copies ho hok hactor (h.idle j hi) hcore with heq | ⟨p, hp, hpre⟩
          · rw [heq]
            exact h.behind j hj
          · rw [← headOf_of_stub hp]
            exact hpre.trans (h.behind p (mem_stubsOf.mp hp).1)
      · have hsame : (n.step ev).seq j = n.seq j := by
          rw [hstep, seq_after, Function.update_of_ne hji]
        rw [hsame]
        exact (h.behind j hj).trans (n.seq_prefix_step ev _)

end Step

end Net

/-! ## The deployment -/

/-- The driver and the clock leave the leaders alone, and the syncs are in order. -/
def Net.leavesLeaders (leaders : List Int) (n : Net) : NetEvent → Bool
  | .input i x => !decide (isLeader n.constants leaders i) || (n.servers i).quiet (.input x)
  | ev => n.syncRaises ev && n.syncCut ev && n.acceptsInPlace ev

namespace System

variable {s : System} {ev : SysEvent} {leaders : List Int} {c : Constants}

/-- The client goes by its leaders; nothing is asked of the messages between the servers but what concerns syncs. -/
def ledStep (leaders : List Int) (s : System) (ev : SysEvent) : Prop :=
  submitsTo leaders s ev ∧
    match ev with
    | .server ev' => s.net.leavesLeaders leaders ev' = true
    | _ => True

instance (leaders : List Int) (s : System) : (ev : SysEvent) → Decidable (ledStep leaders s ev)
  | .server ev' => inferInstanceAs (Decidable (_ ∧ s.net.leavesLeaders leaders ev' = true))
  | .submit _ _ _ | .deliver _ | .complete _ | .fail _ => inferInstanceAs (Decidable (_ ∧ True))

/-- The function gives the transaction of every tid. -/
def Explains (txnOf : Int → Transaction) (s : System) : Prop := ∀ r ∈ s.submitted, r.txn = txnOf r.tid

theorem Routed.explained (h : s.Routed leaders) : ∃ txnOf, Explains txnOf s := by
  refine ⟨fun t => ((s.submitted.find? fun r => r.tid == t).map TransferReq.txn).getD ⟨0, 0, 0⟩, ?_⟩
  intro r hr
  cases hfind : s.submitted.find? fun r' => r'.tid == r.tid with
  | none => exact absurd (List.find?_eq_none.mp hfind r hr) (by simp)
  | some r' =>
    have heq := h.eq_of_tid (List.mem_of_find?_eq_some hfind) hr (by simpa using List.find?_some hfind)
    simp [hfind, heq]

/-- The shards of the accounts of a request, at the leader it is sent to. -/
theorem Directed.byShard (h : s.Directed leaders) (hrouted : s.Routed leaders)
    (hleaders : LeaderPerCluster s.net.constants leaders) :
    (∀ i r, (i, .transfer r) ∈ s.requests → isLeader s.net.constants leaders i ∧
      MultiPaxosDB.byShard (accountsOf s.net.constants (getClusterIdFromServerId s.net.constants i)) false r.tid r.txn) ∧
    ∀ i r, (i, .tpcPrepare r) ∈ s.requests → isLeader s.net.constants leaders i ∧
      MultiPaxosDB.byShard (accountsOf s.net.constants (getClusterIdFromServerId s.net.constants i)) true r.tid r.txn := by
  refine ⟨?_, ?_⟩
  · intro i r hr
    obtain ⟨hsub, hone⟩ := hrouted.transfers i r hr
    obtain ⟨-, hsender, -⟩ := hrouted.accounts r hsub
    obtain ⟨hcluster, hleader⟩ := hleaders.leaderFor hsender
    rw [h.transfers i r hr]
    refine ⟨hleader, fun hfalse => (by cases hfalse), fun _ => ?_⟩
    rw [Transaction.inOneShard] at hone
    simp [Transaction.within, accountsOf, isClientInCluster, hcluster, hone]
  · intro i r hr
    obtain ⟨hsub, htwo⟩ := hrouted.prepares i r hr
    obtain ⟨-, hsender, hreceiver⟩ := hrouted.accounts r hsub
    rw [Transaction.inOneShard] at htwo
    rcases h.prepares i r hr with rfl | rfl
    · obtain ⟨hcluster, hleader⟩ := hleaders.leaderFor hsender
      refine ⟨hleader, fun _ => ?_, fun hfalse => (by cases hfalse)⟩
      simp [Transaction.crosses, accountsOf, isClientInCluster, hcluster, Ne.symm htwo]
    · obtain ⟨hcluster, hleader⟩ := hleaders.leaderFor hreceiver
      refine ⟨hleader, fun _ => ?_, fun hfalse => (by cases hfalse)⟩
      simp [Transaction.crosses, accountsOf, isClientInCluster, hcluster, htwo]

/-- What a step of the deployment is to the network. -/
theorem led_of_step (h : s.Directed leaders) (hrouted : s.Routed leaders)
    (hleaders : LeaderPerCluster s.net.constants leaders) (txnOf : Int → Transaction) (htxn : Explains txnOf s)
    (hok : ledStep leaders s ev) : (s.step ev).net = s.net ∨ ∃ ev', (s.step ev).net = s.net.step ev' ∧
      s.net.Led leaders ev' ∧ ev'.Carries (fun _ _ t txn => txn = txnOf t) s.net.constants := by
  obtain ⟨htransfer, hprepare⟩ := h.byShard hrouted hleaders
  have hinput : ∀ i x, (s.net.syncRaises (.input i x) = true ∧ s.net.syncCut (.input i x) = true) ∧
      s.net.acceptsInPlace (.input i x) = true := by
    intro i x
    refine ⟨⟨?_, rfl⟩, ?_⟩
    · by_cases hi : i ∈ serverIds s.net.constants <;> simp [Net.syncRaises, Net.actor, hi]
    · by_cases hi : i ∈ serverIds s.net.constants <;> simp [Net.acceptsInPlace, Net.actor, hi]
  generalize hs' : s.step ev = s'
  cases moves_of_step hs' with
  | deliver k x hx hdel =>
    have hmem : (x.dst, x.req) ∈ s.requests := List.mem_map.mpr ⟨x, List.mem_of_getElem? hx, rfl⟩
    refine .inr ⟨_, rfl, ⟨?_, ?_, (hinput _ _).1.1, (hinput _ _).1.2, (hinput _ _).2⟩, ?_⟩
    · intro i e hactor hentries
      cases Net.acts hactor with
      | input =>
        cases hreq : x.req with
        | transfer r => exact (htransfer _ r (hreq ▸ hmem)).1
        | tpcPrepare r => exact (hprepare _ r (hreq ▸ hmem)).1
        | tpcDecision tid isCommit =>
          rw [hreq] at hentries
          exact absurd rfl hentries
    · cases hreq : x.req with
      | transfer r => exact (htransfer _ r (hreq ▸ hmem)).2
      | tpcPrepare r => exact (hprepare _ r (hreq ▸ hmem)).2
      | tpcDecision tid isCommit => trivial
    · cases hreq : x.req with
      | transfer r => exact htxn r (hrouted.transfers _ r (hreq ▸ hmem)).1
      | tpcPrepare r => exact htxn r (hrouted.prepares _ r (hreq ▸ hmem)).1
      | tpcDecision tid isCommit => trivial
  | server ev' hclient =>
    refine .inr ⟨ev', rfl, ?_⟩
    have hpeace : s.net.leavesLeaders leaders ev' = true := hok.2
    have hsync : (s.net.syncRaises ev' = true ∧ s.net.syncCut ev' = true) ∧ s.net.acceptsInPlace ev' = true := by
      cases ev' with
      | input i x => exact hinput i x
      | deliver | complete | fail => simpa only [Net.leavesLeaders, Bool.and_eq_true] using hpeace
    refine ⟨⟨?_, ?_, hsync.1.1, hsync.1.2, hsync.2⟩, ?_⟩
    · intro i e hactor hentries
      cases e with
      | input x =>
        obtain ⟨rfl, -⟩ := Net.actor_input hactor
        cases x with
        | transfer | tpcPrepare => cases hclient
        | tpcDecision | disconnect | tick | sweep => exact absurd rfl hentries
      | _ => exact absurd rfl hentries
    · cases ev' with
      | input i x =>
        cases x with
        | transfer | tpcPrepare => cases hclient
        | tpcDecision | disconnect | tick | sweep => trivial
      | _ => trivial
    · cases ev' with
      | input i x =>
        cases x with
        | transfer | tpcPrepare => cases hclient
        | tpcDecision | disconnect | tick | sweep => trivial
      | _ => trivial
  | _ => exact .inl rfl

section Reached

variable (hc : c.clusterSize = 3) (hleaders : LeaderPerCluster c leaders)
include hc hleaders

/-- The network of the deployment goes through a run in which every step keeps the replicas in agreement. -/
theorem followed_reach (hr : Reach System.step (ledStep leaders) (System.fresh c) s) :
    s.net.Followed leaders ∧ ∀ txnOf : Int → Transaction, Explains txnOf s → Reach Net.step (fun n ev =>
      n.ordered false ev ∧ ev.Carries (fun _ _ t txn => txn = txnOf t) c) (Net.fresh c) s.net := by
  have hsubmits : ∀ s ev, ledStep leaders s ev → submitsTo leaders s ev := fun _ _ hok => hok.1
  refine hr.invariant (motive := fun s : System => s.net.Followed leaders ∧ ∀ txnOf : Int → Transaction,
    Explains txnOf s → Reach Net.step (fun n ev => n.ordered false ev ∧
      ev.Carries (fun _ _ t txn => txn = txnOf t) c) (Net.fresh c) s.net) ⟨.fresh c leaders, fun _ _ => .start⟩ ?_
  rintro s ev hr ⟨hfollowed, hnet⟩ hok
  have hconst := Net.constants_reach (net_reach hr)
  have hrouted := routed_reach hsubmits hr
  have hdirected := directed_reach hsubmits hr
  have hstep := fun txnOf htxn => led_of_step hdirected hrouted (hconst ▸ hleaders) txnOf htxn hok
  refine ⟨?_, ?_⟩
  · obtain ⟨txnOf, htxn⟩ := hrouted.explained
    rcases hstep txnOf htxn with heq | ⟨ev', heq, hled, -⟩
    · rw [heq]
      exact hfollowed
    · rw [heq]
      have horderly : s.net.Orderly fun _ => txnOf := Net.orderly_reach hc (hnet txnOf htxn)
      exact hfollowed.step horderly hled (Net.agreeing_reach hc (hnet txnOf htxn))
  · intro txnOf htxn
    have hbefore : Explains txnOf s := fun r hmem => htxn r (s.submitted_subset ev hmem)
    rcases hstep txnOf hbefore with heq | ⟨ev', heq, hled, hcarries⟩
    · rw [heq]
      exact hnet txnOf hbefore
    · rw [heq]
      have horderly : s.net.Orderly fun _ => txnOf := Net.orderly_reach hc (hnet txnOf hbefore)
      exact (hnet txnOf hbefore).step ⟨hfollowed.ordered horderly.lawful.wf horderly hled, hconst ▸ hcarries⟩

/-- No step disturbs a leader. -/
theorem leadersStable_of_ledStep (hr : Reach System.step (ledStep leaders) (System.fresh c) s)
    (hok : ledStep leaders s ev) : leadersStable leaders s ev := by
  refine ⟨hok.1, ?_⟩
  cases ev with
  | server ev' =>
    rintro ⟨i, e⟩ hactor hi
    have hown := (followed_reach hc hleaders hr).1.own (.reach (net_reach hr)) hactor hi
    cases e with
    | input x =>
      obtain ⟨rfl, -⟩ := Net.actor_input hactor
      have hpeace : s.net.leavesLeaders leaders (.input i x) = true := hok.2
      simpa [Net.leavesLeaders, hi] using hpeace
    | _ => exact hown
  | _ => trivial

end Reached

end System

/-- **Leaders are followed.**  If the client sends its requests to one server of each cluster and the syncs are in order,
whatever becomes of the messages: no other server ever prepares, proposes or announces anything, and that one never asks for a sync; so the
leaders stay undisturbed; and the agreed entries of every server are a prefix of its leader's. -/
theorem replicas_follow (c : Constants) (leaders : List Int) (es : List SysEvent) (hc : c.clusterSize = 3)
    (hleaders : LeaderPerCluster c leaders) (hrun : okRun System.step (System.ledStep leaders) (System.fresh c) es) :
    okRun System.step (System.leadersStable leaders) (System.fresh c) es ∧
      (∀ r ∈ (System.run c es).net.rpcs, isLeader c leaders r.src ↔ r.req.isSync = false) ∧
      ∀ i ∈ serverIds c, (System.run c es).net.seq i <+: (System.run c es).net.seq (headOf c leaders i) := by
  have hr := System.reach_run c hrun
  have hconst := Net.constants_reach (System.net_reach hr)
  have hfollowed := (System.followed_reach hc hleaders hr).1
  refine ⟨hrun.of_reach (fun s ev hr hok => System.leadersStable_of_ledStep hc hleaders hr hok) .start, ?_, ?_⟩
  · have hsenders := hfollowed.senders
    rw [hconst] at hsenders
    exact hsenders
  · have hbehind := hfollowed.behind
    rw [hconst] at hbehind
    exact hbehind

/-- Server 1 prepares a cross-shard transaction and makes a transfer; server 3 promises and then hears nothing more of
the first round and nothing of the second.  It is asked for the next one, and takes over the log. -/
def followedRun : List SysEvent :=
  [.submit [1, 4] ⟨1, 1501, 1⟩ 1, .deliver 0, .server (.deliver 0), .server (.deliver 1), .server (.complete 0),
   .server (.deliver 2), .server (.complete 2), .server (.deliver 4),
   .submit [1, 4] ⟨2, 3, 1⟩ 2, .deliver 2, .server (.deliver 6), .server (.complete 6), .server (.deliver 8),
   .server (.complete 8), .server (.deliver 10),
   .submit [1, 4] ⟨4, 5, 1⟩ 3, .deliver 3, .server (.deliver 13), .server (.deliver 14), .server (.complete 14)]

theorem replicas_follow_followedRun :
    okRun System.step (System.leadersStable [1, 4]) (System.fresh ⟨2, 3⟩) followedRun ∧
      [1, 2, 3].map (fun i => ((System.run ⟨2, 3⟩ followedRun).net.seq i).map WALEntry.tid) = [[1, 2], [1, 2], [1, 2]] :=
  ⟨(replicas_follow ⟨2, 3⟩ [1, 4] followedRun rfl leaderPerCluster_pair (by decide +kernel)).1, by decide +kernel⟩

-- The Accept of the first round, had it come after that: server 3 is still promised, and logs the prepare again.
example : ((System.run ⟨2, 3⟩ (followedRun ++ [.server (.deliver 3)])).net.seq 3).map WALEntry.tid = [1, 2, 1] := by
  decide +kernel

end MultiPaxosDB
