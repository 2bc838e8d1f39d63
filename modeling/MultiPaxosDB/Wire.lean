/-
# MultiPaxosDB.Wire — what every RPC of a run looks like.

The facts that need no assumption on the run: a server keeps its identity and its stubs, its ledger
is `Sound`, an RPC goes to another server of the sender's cluster, a `PrepareReq` carries its sender's
id, and a reply repeats the ballot it answers.  A hinted ballot number is never below the one asked
for, and a server that reports a longer log names itself.
-/
import MultiPaxosDB.Cluster
import MultiPaxosDB.LedgerInvariant

namespace MultiPaxosDB

open Lib

/-! ## Replies -/

/-- The reply `x` of server `dst` fits the request it answers. -/
inductive Answers (dst : Int) : RpcReq → RpcRes → Prop
  | prepare {request : PrepareReq} {response : PrepareRes} : response.ballot = request.ballot →
      (∀ latest, response.latestBallotNum = some latest → request.ballot.num ≤ latest) →
      (∀ index, response.paxosIndex = some index → response.serverId = some dst) →
      Answers dst (.prepare request) (.prepare response)
  | accept {request : AcceptReq} {response : AcceptRes} : response.ballot = request.ballot →
      Answers dst (.accept request) (.accept response)
  | commit {request : CommitReq} : Answers dst (.commit request) .commit
  | sync {request : SyncReq} {response : SyncRes} : Answers dst (.sync request) (.sync response)

theorem ServerImpl.serverId_promise (s : ServerImpl) (request : PrepareReq) :
    (s.promise request).serverId = s.serverId := by
  unfold promise
  split_ifs <;> rfl

theorem ServerImpl.processPrepareCall_answers (s : ServerImpl) (request : PrepareReq) :
    Answers s.serverId (.prepare request) (.prepare (s.processPrepareCall request).2) := by
  unfold processPrepareCall
  dsimp only
  split
  · exact .prepare rfl (by simp [plainPrepareRes]) (by simp [plainPrepareRes])
  split
  · exact .prepare rfl (by simp [plainPrepareRes]) (by simp [plainPrepareRes])
  split
  · refine .prepare rfl ?_ ?_
    · intro latest hlatest
      simp only [Option.ite_none_right_eq_some, Option.some.injEq] at hlatest
      obtain ⟨hle, rfl⟩ := hlatest
      exact hle
    · intro index _
      rw [← s.serverId_promise request]
  · exact .prepare rfl (by simp [plainPrepareRes]) (by simp [plainPrepareRes])

theorem ServerImpl.processAcceptCall_ballot (s : ServerImpl) (request : AcceptReq) :
    (s.processAcceptCall request).2.ballot = request.ballot := by
  unfold processAcceptCall
  split_ifs <;> rfl

theorem ServerImpl.respond_answers (s : ServerImpl) (req : RpcReq) :
    Answers s.serverId req (s.respond req) := by
  cases req with
  | prepare request => exact s.processPrepareCall_answers request
  | accept request => exact .accept (s.processAcceptCall_ballot request)
  | commit request => exact .commit
  | sync request => exact .sync

/-! ## The invariant -/

structure Rpc.WellFormed (c : Constants) (r : Rpc) : Prop where
  src : r.src ∈ serverIds c
  dst : r.dst ∈ stubsOf c r.src
  proposer : ∀ request, r.req = .prepare request → request.ballot.serverId = r.src
  reply : ∀ x, r.res = some x → Answers r.dst r.req x

structure Net.WellFormed (n : Net) : Prop where
  serverId : ∀ i, (n.servers i).serverId = i
  stubs : ∀ i, (n.servers i).stubs = stubsOf n.constants i
  shard : ∀ i, (n.servers i).ledger.constants = n.constants ∧
    (n.servers i).ledger.clusterId = getClusterIdFromServerId n.constants i
  sound : ∀ i, (n.servers i).ledger.Sound
  rpcs : ∀ r ∈ n.rpcs, r.WellFormed n.constants

theorem stubsOf_symm {c : Constants} {i j : Int} (hi : i ∈ serverIds c) (h : j ∈ stubsOf c i) :
    i ∈ stubsOf c j := by
  rw [mem_stubsOf] at h ⊢
  exact ⟨hi, h.2.1.symm, h.2.2.symm⟩

namespace ServerImpl

theorem Core.identity {s t : ServerImpl} {e : Event} (h : Core s e t) :
    t.serverId = s.serverId ∧ t.stubs = s.stubs := by
  cases h <;> exact ⟨rfl, rfl⟩

theorem Pre.identity {s t : ServerImpl} {e : Event} (h : Pre s e t) :
    t.serverId = s.serverId ∧ t.stubs = s.stubs := by
  cases h <;> exact ⟨rfl, rfl⟩

theorem Moves.identity {s u : ServerImpl} {e : Event} (h : Moves s e u) :
    u.serverId = s.serverId ∧ u.stubs = s.stubs := by
  cases h with
  | done hcore => exact hcore.identity
  | start hcore => exact hcore.identity
  | retry hpre => exact hpre.identity

end ServerImpl

namespace Net.WellFormed

theorem fresh (c : Constants) : (Net.fresh c).WellFormed where
  serverId := fun _ => rfl
  stubs := fun _ => rfl
  shard := fun _ => ⟨rfl, rfl⟩
  sound := fun _ => .fresh c _
  rpcs := by simp [Net.fresh]

variable {n : Net}

/-- Only servers of the deployment act. -/
theorem actor_mem (h : n.WellFormed) {i : Int} {e : Event} (hjust : Justified n i e) :
    i ∈ serverIds n.constants := by
  have hdst : ∀ r ∈ n.rpcs, r.dst ∈ serverIds n.constants := fun r hr =>
    (mem_stubsOf.mp (h.rpcs r hr).dst).1
  cases e with
  | input x => exact hjust
  | prepareCall | acceptCall | commitCall | syncCall =>
    obtain ⟨r, hr, rfl, -⟩ := hjust
    exact hdst r hr
  | prepareReply | acceptReply | syncReply =>
    obtain ⟨r, hr, rfl, -⟩ := hjust
    exact (h.rpcs r hr).src

/-- What a move of server `i` sends goes to its cluster. -/
theorem core_sent (h : n.WellFormed) {i : Int} {e : Event} (hjust : Justified n i e)
    {t : ServerImpl} (hcore : ServerImpl.Core { n.servers i with outbox := [] } e t)
    {c : OutCall} (hc : c ∈ t.outbox) :
    c.dst ∈ stubsOf n.constants i ∧ ∀ request, c.req ≠ .prepare request := by
  have hsent := hcore.sent rfl hc
  refine ⟨?_, hsent.not_prepare⟩
  cases hsent with
  | behind request =>
    obtain ⟨r, hr, rfl, hreq, -⟩ := hjust
    have hwf := h.rpcs r hr
    rw [hwf.proposer request hreq]
    exact stubsOf_symm hwf.src hwf.dst
  | staleLog hindex =>
    obtain ⟨r, hr, rfl, hreq, hres⟩ := hjust
    have hwf := h.rpcs r hr
    have hans := hwf.reply _ (hres rfl)
    rw [hreq] at hans
    cases hans with
    | prepare _ _ hserver =>
      rw [hserver _ hindex]
      exact hwf.dst
  | accept dst a b hdst => exact h.stubs i ▸ hdst
  | commit dst a b hdst => exact h.stubs i ▸ hdst

/-- What the acting server sends goes to its cluster, and its prepares carry its id. -/
theorem sent (h : n.WellFormed) {i : Int} {e : Event} (hjust : Justified n i e)
    {u : ServerImpl} (hmoves : ServerImpl.Moves { n.servers i with outbox := [] } e u)
    {c : OutCall} (hc : c ∈ u.outbox) :
    c.dst ∈ stubsOf n.constants i ∧
      ∀ request, c.req = .prepare request → request.ballot.serverId = i := by
  -- the prepares of a state with this identity
  have hnext : ∀ t : ServerImpl, t.serverId = (n.servers i).serverId → t.stubs = (n.servers i).stubs →
      c.dst ∈ t.stubs → c.req = .prepare t.nextPrepare → c.dst ∈ stubsOf n.constants i ∧
        ∀ request, c.req = .prepare request → request.ballot.serverId = i := by
    intro t hid hstubs hdst hreq
    refine ⟨by rw [← h.stubs i, ← hstubs]; exact hdst, ?_⟩
    intro request hq
    rw [hreq] at hq
    cases hq
    exact hid.trans (h.serverId i)
  cases hmoves with
  | done hcore =>
    obtain ⟨hdst, hno⟩ := h.core_sent hjust hcore hc
    exact ⟨hdst, fun request hq => absurd hq (hno request)⟩
  | @start t hcore =>
    rcases ServerImpl.mem_outbox_reissue hc with hold | ⟨hdst, hreq⟩
    · obtain ⟨hdst, hno⟩ := h.core_sent hjust hcore hold
      exact ⟨hdst, fun request hq => absurd hq (hno request)⟩
    · exact hnext t.takePending hcore.identity.1 hcore.identity.2 hdst hreq
  | @retry t hpre =>
    rcases ServerImpl.mem_outbox_reissue hc with hold | ⟨hdst, hreq⟩
    · rw [hpre.outbox] at hold
      exact absurd hold (by simp)
    · exact hnext t hpre.identity.1 hpre.identity.2 hdst hreq

theorem step (h : n.WellFormed) (ev : NetEvent) : (n.step ev).WellFormed := by
  have hans : ∀ r ∈ n.rpcs, ∀ r', r.Later r' → (r'.res = r.res ∨ n.AnsweredBy ev r r') →
      r'.WellFormed n.constants := by
    intro r hr r' hlater hres
    have hwf := h.rpcs r hr
    refine ⟨hlater.src ▸ hwf.src, hlater.src ▸ hlater.dst ▸ hwf.dst, ?_, ?_⟩
    · intro request hreq
      rw [hlater.src]
      exact hwf.proposer request (hlater.req ▸ hreq)
    · intro x hx
      rw [hlater.dst, hlater.req]
      rcases hres with hsame | ⟨-, -, hnew⟩
      · exact hwf.reply x (hsame ▸ hx)
      · rw [hnew, Option.some.injEq] at hx
        rw [← hx]
        have hanswer := (n.servers r.dst).respond_answers r.req
        rwa [h.serverId r.dst] at hanswer
  rcases n.step_cases ev with ⟨hnone, hservers⟩ | ⟨i, e, u, hactor, hmoves, hu, hstep⟩
  · refine ⟨?_, ?_, ?_, ?_, ?_⟩
    · rw [hservers]; exact h.serverId
    · rw [hservers, constants_step]; exact h.stubs
    · rw [hservers, constants_step]; exact h.shard
    · rw [hservers]; exact h.sound
    · intro r' hr'
      obtain ⟨r, hr, hlater, hres⟩ := mem_rpcs_step_of_none hnone hr'
      rw [constants_step]
      exact hans r hr r' hlater (.inl hres)
  · have hjust := justified hactor
    obtain ⟨hid, hstubs⟩ := hmoves.identity
    obtain ⟨hconst, hcluster⟩ := (n.servers i).handle_shard e
    rw [hstep]
    refine ⟨?_, ?_, ?_, ?_, ?_⟩
    · exact forall_servers_after (P := fun j s => s.serverId = j) ev h.serverId
        (hid.trans (h.serverId i))
    · exact forall_servers_after (P := fun j s => s.stubs = stubsOf n.constants j) ev h.stubs
        (hstubs.trans (h.stubs i))
    · exact forall_servers_after (P := fun j s => s.ledger.constants = n.constants ∧
        s.ledger.clusterId = getClusterIdFromServerId n.constants j) ev h.shard
        (by rw [← hu, hconst, hcluster]; exact h.shard i)
    · exact forall_servers_after (P := fun _ s => s.ledger.Sound) ev h.sound
        (hu ▸ ServerImpl.handle_sound (h.sound i) e)
    · intro r' hr'
      rcases mem_rpcs_after hr' with ⟨r, hr, hlater, hres⟩ | ⟨rfl, hc, hres⟩
      · exact hans r hr r' hlater hres
      · obtain ⟨hdst, hown⟩ := h.sent hjust hmoves hc
        refine ⟨h.actor_mem hjust, hdst, hown, ?_⟩
        intro x hx
        rw [hres] at hx
        exact absurd hx (by simp)

theorem reach {c : Constants} {ok : Net → NetEvent → Prop} (hr : Reach Net.step ok (Net.fresh c) n) :
    n.WellFormed :=
  hr.invariant (.fresh c) fun _ ev _ h _ => h.step ev

end Net.WellFormed

/-- The constants of a deployment never change. -/
theorem Net.constants_reach {c : Constants} {ok : Net → NetEvent → Prop} {n : Net}
    (hr : Reach Net.step ok (Net.fresh c) n) : n.constants = c :=
  hr.invariant (motive := fun n => n.constants = c) rfl fun n ev _ h _ => by rw [constants_step, h]

/-- What is no server of the deployment never moves. -/
theorem Net.servers_outside {c : Constants} {ok : Net → NetEvent → Prop} {n : Net}
    (hr : Reach Net.step ok (Net.fresh c) n) {i : Int} (hi : i ∉ serverIds c) :
    n.servers i = ServerImpl.fresh c i := by
  refine hr.invariant (motive := fun n : Net => n.servers i = ServerImpl.fresh c i) rfl ?_
  intro n ev hr h _
  rcases n.step_cases ev with ⟨-, hservers⟩ | ⟨j, e, u, hactor, -, -, hstep⟩
  · rw [hservers, h]
  · have hwf : n.WellFormed := .reach hr
    have hj := hwf.actor_mem (justified hactor)
    rw [constants_reach hr] at hj
    have hne : i ≠ j := fun heq => hi (heq ▸ hj)
    rw [hstep, servers_after_ne n ev u hne, h]

end MultiPaxosDB
