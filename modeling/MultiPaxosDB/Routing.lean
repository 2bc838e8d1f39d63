/-
# MultiPaxosDB.Routing — the transactions the client hands in, and where they turn up.

`processTransactions` sends a transaction inside a shard to the leader of that shard and one between
shards to the two leaders.  `System.Routed` says so of all the client ever asked for, for a client that
knows its leaders.  `System.Issued` follows the transactions into the servers: whatever is queued, proposed,
logged or synced is a transaction the client has submitted, an intra-shard entry is one inside a shard, and
a committed cross-shard entry is one the client has decided to commit.
-/
import Mathlib.Data.Int.Interval
import Mathlib.Order.Interval.Finset.Basic
import MultiPaxosDB.Coordinator
import MultiPaxosDB.Provenance

namespace MultiPaxosDB

open Lib

/-! ## The deployment -/

/-- The id of a client whose shard is one of the deployment.  (It is, for every client, unless the product
`id * num_clusters` overflows.) -/
def isAccount (c : Constants) (a : Int) : Prop :=
  (1 ≤ a ∧ a ≤ totalClients) ∧ 1 ≤ getClusterIdFromClientId c a ∧ getClusterIdFromClientId c a ≤ c.numClusters

instance (c : Constants) (a : Int) : Decidable (isAccount c a) := by
  unfold isAccount
  infer_instance

/-- One leader per cluster: `leaders[k - 1]` is a server of cluster `k`. -/
def LeaderPerCluster (c : Constants) (leaders : List Int) : Prop :=
  ∀ k, 1 ≤ k → k ≤ c.numClusters → Client.leaderOf leaders k ∈ serverIds c ∧
    getClusterIdFromServerId c (Client.leaderOf leaders k) = k

/-- The leader of the shard of an account. -/
def leaderFor (c : Constants) (leaders : List Int) (account : Int) : Int :=
  Client.leaderOf leaders (getClusterIdFromClientId c account)

/-- Both accounts of the transaction are in one shard. -/
def Transaction.inOneShard (c : Constants) (txn : Transaction) : Prop :=
  getClusterIdFromClientId c txn.sender = getClusterIdFromClientId c txn.receiver

instance (c : Constants) (txn : Transaction) : Decidable (txn.inOneShard c) :=
  inferInstanceAs (Decidable (_ = _))

/-- Server `i` is the leader of its cluster. -/
def isLeader (c : Constants) (leaders : List Int) (i : Int) : Prop :=
  i ∈ serverIds c ∧ Client.leaderOf leaders (getClusterIdFromServerId c i) = i

instance (c : Constants) (leaders : List Int) (i : Int) : Decidable (isLeader c leaders i) :=
  inferInstanceAs (Decidable (_ ∧ _))

theorem LeaderPerCluster.leaderFor {c : Constants} {leaders : List Int} (h : LeaderPerCluster c leaders)
    {a : Int} (ha : isAccount c a) :
    getClusterIdFromServerId c (leaderFor c leaders a) = getClusterIdFromClientId c a ∧
      isLeader c leaders (leaderFor c leaders a) := by
  obtain ⟨hmem, hcluster⟩ := h _ ha.2.1 ha.2.2
  refine ⟨hcluster, hmem, ?_⟩
  rw [MultiPaxosDB.leaderFor, hcluster]

/-! ## What the client asks for -/

namespace System

variable {s : System} {ev : SysEvent}

theorem isDecision_consumeTpcPrepare (c : Constants) (client : Client) (reply : TransferRes) :
    ∀ p ∈ (client.consumeTpcPrepare c true reply).2, p.2.isDecision = true := by
  intro p hp
  by_cases hzero : reply.tid = 0
  · rw [Client.consumeTpcPrepare_unnamed c client hzero] at hp
    exact absurd hp List.not_mem_nil
  · rcases Client.consumeTpcPrepare_cases c client hzero rfl with ⟨isCommit, -, -, hout⟩ | ⟨-, hout⟩
    · rw [hout] at hp
      rw [(mem_broadcast.mp hp).2.2]
      rfl
    · rw [hout] at hp
      exact absurd hp List.not_mem_nil

/-- **What a step adds to the client's requests**: those of a new transaction, or decisions. -/
theorem requests_step (s : System) (ev : SysEvent) :
    (∃ leaders t tid, ev = .submit leaders t tid ∧
      (s.step ev).submitted = s.submitted ++ [{ txn := t, tid := tid }] ∧
      (s.step ev).requests = s.requests ++ (s.client.processTransaction s.net.constants leaders t tid).2) ∨
    ((∀ leaders t tid, ev ≠ .submit leaders t tid) ∧ (s.step ev).submitted = s.submitted ∧
      ∃ out, (s.step ev).requests = s.requests ++ out ∧ ∀ p ∈ out, p.2.isDecision = true) := by
  have hnone : ∀ {s' : System}, s'.requests = s.requests →
      ∃ out, s'.requests = s.requests ++ out ∧ ∀ p ∈ out, p.2.isDecision = true := fun heq =>
    ⟨[], by rw [heq, List.append_nil], fun p hp => absurd hp List.not_mem_nil⟩
  by_cases hsubmit : ∃ leaders t tid, ev = .submit leaders t tid
  · obtain ⟨leaders, t, tid, rfl⟩ := hsubmit
    exact .inl ⟨leaders, t, tid, rfl, rfl, requests_append s _ _ _⟩
  · refine .inr ⟨fun leaders t tid heq => hsubmit ⟨leaders, t, tid, heq⟩, ?_⟩
    generalize hs' : s.step ev = s'
    cases moves_of_step hs' with
    | idle => exact ⟨rfl, hnone rfl⟩
    | submit leaders t tid => exact absurd ⟨leaders, t, tid, rfl⟩ hsubmit
    | deliver k x => exact ⟨rfl, hnone (requests_modify s s.client k (fun _ => rfl) fun _ => rfl)⟩
    | vote k x request reply =>
      exact ⟨rfl, _, requests_close s k _ _, isDecision_consumeTpcPrepare _ _ reply⟩
    | close k x => exact ⟨rfl, hnone (by rw [requests_close, List.append_nil])⟩
    | server ev => exact ⟨rfl, hnone rfl⟩

theorem constants_step (s : System) (ev : SysEvent) : (s.step ev).net.constants = s.net.constants := by
  rcases s.net_step ev with heq | ⟨ev', heq⟩
  · rw [heq]
  · rw [heq, Net.constants_step]

/-- The client knows its leaders: all it hands in goes to them, with a fresh positive tid, from one client
of the deployment to another. -/
def submitsTo (leaders : List Int) (s : System) : SysEvent → Prop
  | .submit leaders' t tid => leaders' = leaders ∧ 0 < tid ∧ tid ∉ s.submitted.map TransferReq.tid ∧
      isAccount s.net.constants t.sender ∧ isAccount s.net.constants t.receiver
  | _ => True

instance (leaders : List Int) (s : System) : (ev : SysEvent) → Decidable (submitsTo leaders s ev)
  | .submit _ _ _ => inferInstanceAs (Decidable (_ ∧ _ ∧ _ ∧ _ ∧ _))
  | .deliver _ | .complete _ | .fail _ | .server _ => .isTrue trivial

theorem freshTid_of_submitsTo {leaders : List Int} (h : submitsTo leaders s ev) : s.freshTid ev := by
  cases ev with
  | submit leaders' t tid => exact h.2.2.1
  | _ => trivial

structure Routed (leaders : List Int) (s : System) : Prop where
  accounts : ∀ r ∈ s.submitted, 0 < r.tid ∧ isAccount s.net.constants r.txn.sender ∧
    isAccount s.net.constants r.txn.receiver
  tids : (s.submitted.map TransferReq.tid).Nodup
  transfers : ∀ i r, (i, .transfer r) ∈ s.requests → r ∈ s.submitted ∧ r.txn.inOneShard s.net.constants
  prepares : ∀ i r, (i, .tpcPrepare r) ∈ s.requests → r ∈ s.submitted ∧ ¬ r.txn.inOneShard s.net.constants
  asked : ∀ r ∈ s.submitted, ¬ r.txn.inOneShard s.net.constants →
    (leaderFor s.net.constants leaders r.txn.sender, .tpcPrepare r) ∈ s.requests ∧
      (leaderFor s.net.constants leaders r.txn.receiver, .tpcPrepare r) ∈ s.requests
  backed : ∀ t b, s.Decided t b → ∃ i r, (i, .tpcPrepare r) ∈ s.requests ∧ r.tid = t

namespace Routed

variable {leaders : List Int}

theorem fresh (c : Constants) : (System.fresh c).Routed leaders where
  accounts := fun _ hr => absurd hr List.not_mem_nil
  tids := List.nodup_nil
  transfers := fun _ _ hr => absurd hr List.not_mem_nil
  prepares := fun _ _ hr => absurd hr List.not_mem_nil
  asked := fun _ hr => absurd hr List.not_mem_nil
  backed := fun _ _ h => absurd h.choose_spec List.not_mem_nil

theorem eq_of_tid (h : s.Routed leaders) {r r' : TransferReq} (hr : r ∈ s.submitted) (hr' : r' ∈ s.submitted)
    (htid : r.tid = r'.tid) : r = r' := List.inj_on_of_nodup_map h.tids hr hr' htid

/-- The client hands in one transaction more. -/
theorem submit (h : s.Routed leaders) (t : Transaction) (tid : Int)
    (hok : submitsTo leaders s (.submit leaders t tid)) : (s.step (.submit leaders t tid)).Routed leaders := by
  obtain ⟨-, hpos, hnew, hsender, hreceiver⟩ := hok
  have hreqs : (s.step (.submit leaders t tid)).requests =
      s.requests ++ (s.client.processTransaction s.net.constants leaders t tid).2 := requests_append s _ _ _
  have hold : ∀ {p}, p ∈ s.requests → p ∈ (s.step (.submit leaders t tid)).requests := fun hp => by
    rw [hreqs]
    exact List.mem_append_left _ hp
  have hout : ∀ i req, (i, req) ∈ (s.step (.submit leaders t tid)).requests → (i, req) ∈ s.requests ∨
      (t.inOneShard s.net.constants ∧ req = .transfer { txn := t, tid := tid }) ∨
      (¬ t.inOneShard s.net.constants ∧ req = .tpcPrepare { txn := t, tid := tid }) := by
    intro i req hmem
    rw [hreqs] at hmem
    rcases List.mem_append.mp hmem with hp | hp
    · exact .inl hp
    · right
      unfold Client.processTransaction at hp
      dsimp only at hp
      split at hp
      · rename_i hone
        exact .inl ⟨hone, (Prod.mk.inj (List.mem_singleton.mp hp)).2⟩
      · rename_i htwo
        refine .inr ⟨htwo, ?_⟩
        rcases List.mem_pair.mp hp with heq | heq <;> exact (Prod.mk.inj heq).2
  have hlast : ({ txn := t, tid := tid } : TransferReq) ∈ s.submitted ++ [{ txn := t, tid := tid }] :=
    List.mem_append_right _ List.mem_cons_self
  refine ⟨?_, ?_, ?_, ?_, ?_, ?_⟩
  · intro r hr
    rcases List.mem_append.mp hr with hr | hr
    · exact h.accounts r hr
    · rw [List.mem_singleton.mp hr]
      exact ⟨hpos, hsender, hreceiver⟩
  · show ((s.submitted ++ [_]).map TransferReq.tid).Nodup
    rw [List.map_append]
    refine List.nodup_append.mpr ⟨h.tids, List.nodup_singleton _, ?_⟩
    rintro t' ht' _ hlast rfl
    rw [List.map_singleton, List.mem_singleton] at hlast
    rw [hlast] at ht'
    exact hnew ht'
  · intro i r hr
    rcases hout i _ hr with hp | ⟨hone, heq⟩ | ⟨-, heq⟩
    · exact ⟨List.mem_append_left _ (h.transfers i r hp).1, (h.transfers i r hp).2⟩
    · cases heq
      exact ⟨hlast, hone⟩
    · cases heq
  · intro i r hr
    rcases hout i _ hr with hp | ⟨-, heq⟩ | ⟨htwo, heq⟩
    · exact ⟨List.mem_append_left _ (h.prepares i r hp).1, (h.prepares i r hp).2⟩
    · cases heq
    · cases heq
      exact ⟨hlast, htwo⟩
  · intro r hr htwo
    rcases List.mem_append.mp hr with hr | hr
    · exact (h.asked r hr htwo).imp hold hold
    · rw [List.mem_singleton.mp hr] at htwo ⊢
      have hne : ¬ getClusterIdFromClientId s.net.constants t.sender =
          getClusterIdFromClientId s.net.constants t.receiver := htwo
      rw [hreqs, Client.processTransaction]
      simp only [if_neg hne]
      exact ⟨List.mem_append_right _ List.mem_cons_self,
        List.mem_append_right _ (List.mem_cons_of_mem _ List.mem_cons_self)⟩
  · rintro t' b ⟨i, hi⟩
    rcases hout i _ hi with hp | ⟨-, heq⟩ | ⟨-, heq⟩
    · obtain ⟨j, r, hr, htid⟩ := h.backed t' b ⟨i, hp⟩
      exact ⟨j, r, hold hr, htid⟩
    · cases heq
    · cases heq

theorem step (h : s.Routed leaders) (hv : s.Votes) (ht : s.Tracked) (hok : submitsTo leaders s ev) :
    (s.step ev).Routed leaders := by
  rcases s.requests_step ev with ⟨leaders', t, tid, rfl, -, -⟩ | ⟨hno, hsub, out, hreqs, hout⟩
  · have heq : leaders' = leaders := hok.1
    subst heq
    exact h.submit t tid hok
  · have hconst := s.constants_step ev
    have hold : ∀ {p}, p ∈ s.requests → p ∈ (s.step ev).requests := fun hp => mem_requests_step hp
    have hback : ∀ {i req}, req.isDecision = false → (i, req) ∈ (s.step ev).requests → (i, req) ∈ s.requests := by
      intro i req hnot hmem
      rw [hreqs] at hmem
      rcases List.mem_append.mp hmem with hp | hp
      · exact hp
      · have hdec := hout _ hp
        rw [show (i, req).2.isDecision = false from hnot] at hdec
        cases hdec
    refine ⟨?_, ?_, ?_, ?_, ?_, ?_⟩
    · rw [hsub, hconst]
      exact h.accounts
    · rw [hsub]
      exact h.tids
    · intro i r hr
      rw [hsub, hconst]
      exact h.transfers i r (hback rfl hr)
    · intro i r hr
      rw [hsub, hconst]
      exact h.prepares i r (hback rfl hr)
    · rw [hsub, hconst]
      intro r hr htwo
      exact (h.asked r hr htwo).imp hold hold
    · intro t b hd
      rcases decided_step hv ht hd with hd | ⟨k, x, request, reply, -, hx, -, hreq, htid, -⟩
      · obtain ⟨i, r, hr, htid⟩ := h.backed t b hd
        exact ⟨i, r, hold hr, htid⟩
      · refine ⟨x.dst, request, hold (List.mem_map.mpr ⟨x, List.mem_of_getElem? hx, ?_⟩), htid⟩
        rw [hreq]

end Routed

theorem routed_reach {c : Constants} {leaders : List Int} {ok : System → SysEvent → Prop}
    (hok : ∀ s ev, ok s ev → submitsTo leaders s ev) (hr : Reach System.step ok (System.fresh c) s) :
    s.Routed leaders := by
  refine hr.invariant (motive := Routed leaders) (.fresh c) ?_
  intro s ev hr h hev
  have hfresh : ∀ s ev, ok s ev → s.freshTid ev := fun s ev hev => freshTid_of_submitsTo (hok s ev hev)
  exact h.step (votes_reach hfresh hr) (tracked_reach hr) (hok s ev hev)

/-! ## What the servers log -/

/-- A request of a server is for a submitted transaction, and a `Transfer` is inside a shard. -/
def requested (s : System) : RequestPred := fun isCross t txn =>
  { txn := txn, tid := t } ∈ s.submitted ∧ (isCross = false → txn.inOneShard s.net.constants)

/-- An entry is for a submitted transaction; an intra-shard one is inside a shard, and a cross-shard commit
is one the client has decided. -/
def recorded (s : System) : EntryPred := fun type status t txn =>
  { txn := txn, tid := t } ∈ s.submitted ∧ (type = .intra → txn.inOneShard s.net.constants) ∧
    (type = .cross → status = .committed → s.Decided t true)

/-- All requests and entries in the network come from the client. -/
structure Issued (s : System) : Prop where
  carries : s.net.Carries fun _ => s.requested
  entries : s.net.Entries fun _ => s.recorded

theorem submitted_subset (s : System) (ev : SysEvent) : s.submitted ⊆ (s.step ev).submitted := by
  rcases s.requests_step ev with ⟨leaders, t, tid, -, hsub, -⟩ | ⟨-, hsub, -⟩
  · rw [hsub]
    exact List.subset_append_left _ _
  · rw [hsub]
    exact List.Subset.refl _

theorem requested_step (s : System) (ev : SysEvent) {isCross : Bool} {t : Int} {txn : Transaction}
    (h : s.requested isCross t txn) : (s.step ev).requested isCross t txn := by
  refine ⟨s.submitted_subset ev h.1, ?_⟩
  rw [constants_step]
  exact h.2

theorem recorded_step (s : System) (ev : SysEvent) {type : TransactionType} {status : TransactionStatus}
    {t : Int} {txn : Transaction} (h : s.recorded type status t txn) : (s.step ev).recorded type status t txn := by
  refine ⟨s.submitted_subset ev h.1, ?_, fun htype hstatus => (h.2.2 htype hstatus).step ev⟩
  rw [constants_step]
  exact h.2.1

/-- Leaders go by the RPC and replicas by the shard; both log what the client meant. -/
theorem fits_recorded (s : System) {l : Ledger} (hconst : l.constants = s.net.constants) :
    l.Fits s.requested s.recorded where
  ledCross := fun t txn h => ⟨h.1, by simp, by simp⟩
  ledIntra := fun t txn h => ⟨h.1, fun _ => h.2 rfl, by simp⟩
  cross := fun isCross t txn h _ => ⟨h.1, by simp, by simp⟩
  intra := by
    intro isCross t txn h hintra
    refine ⟨h.1, ?_, by simp⟩
    intro _
    simp only [ServerImpl.intraHere, Ledger.isClientInCluster, isClientInCluster, hconst, Bool.and_eq_true,
      beq_iff_eq] at hintra
    exact hintra.1.trans hintra.2.symm

/-- A step of the network that brings in and decides only what the client has. -/
theorem Issued.net (h : s.Issued) (hwf : s.net.WellFormed) {ev : NetEvent}
    (hcarries : ev.Carries (fun _ => s.requested) s.net.constants)
    (hdecides : s.net.Decides (fun _ => s.recorded) ev) :
    (s.net.step ev).Carries (fun _ => s.requested) ∧ (s.net.step ev).Entries fun _ => s.recorded :=
  ⟨h.carries.step hwf hcarries, h.entries.step hwf h.carries (fun i => s.fits_recorded (hwf.shard i).1)
    hcarries hdecides⟩

theorem Issued.weaken (ev : SysEvent) {n : Net} (hn : (s.step ev).net = n)
    (h : n.Carries (fun _ => s.requested) ∧ n.Entries fun _ => s.recorded) : (s.step ev).Issued := by
  refine ⟨?_, ?_⟩
  · rw [hn]
    exact h.1.mono fun _ _ _ _ => s.requested_step ev
  · rw [hn]
    exact h.2.mono fun _ _ _ _ _ => s.recorded_step ev

theorem Issued.step (h : s.Issued) {leaders : List Int} (hwf : s.net.WellFormed) (hrouted : s.Routed leaders)
    (ev : SysEvent) : (s.step ev).Issued := by
  have hsame : (s.step ev).net = s.net → (s.step ev).Issued := fun heq => .weaken ev heq ⟨h.carries, h.entries⟩
  generalize hs' : s.step ev = s' at hsame
  cases moves_of_step hs' with
  | idle => exact hsame rfl
  | submit leaders t tid => exact hsame rfl
  | vote k x request reply => exact hsame rfl
  | close k x => exact hsame rfl
  | deliver k x hx hdel =>
    have hmem : (x.dst, x.req) ∈ s.requests := List.mem_map.mpr ⟨x, List.mem_of_getElem? hx, rfl⟩
    rw [← hs']
    refine .weaken _ (by rw [hs']) (h.net hwf ?_ ?_)
    · cases hreq : x.req with
      | transfer r =>
        rw [hreq] at hmem
        obtain ⟨hsub, hone⟩ := hrouted.transfers _ _ hmem
        exact ⟨hsub, fun _ => hone⟩
      | tpcPrepare r =>
        rw [hreq] at hmem
        exact ⟨(hrouted.prepares _ _ hmem).1, by simp⟩
      | tpcDecision t b => trivial
    · intro i y hinput
      obtain ⟨rfl, rfl⟩ := NetEvent.input.inj hinput
      cases hreq : x.req with
      | transfer r => trivial
      | tpcPrepare r => trivial
      | tpcDecision t b =>
        rw [hreq] at hmem
        intro txn hprepared
        refine ⟨hprepared.1, by simp, ?_⟩
        intro _ hcommit
        cases b with
        | true => exact ⟨_, hmem⟩
        | false => cases hcommit
  | server ev hev =>
    rw [← hs']
    refine .weaken _ (by rw [hs']) (h.net hwf ?_ ?_)
    · cases ev with
      | input i x => cases x <;> trivial
      | _ => trivial
    · rintro i x rfl
      cases x with
      | sweep => exact fun t _ txn hprepared => ⟨hprepared.1, by simp, by simp⟩
      | disconnect servers => trivial
      | tick ms => trivial
      | _ => cases hev

theorem issued_reach {c : Constants} {leaders : List Int} {ok : System → SysEvent → Prop}
    (hok : ∀ s ev, ok s ev → submitsTo leaders s ev) (hr : Reach System.step ok (System.fresh c) s) :
    s.Issued := by
  refine hr.invariant (motive := Issued) ⟨.fresh c, .fresh c⟩ ?_
  intro s ev hr h _
  exact h.step (.reach (net_reach hr)) (routed_reach hok hr) ev

end System

end MultiPaxosDB
