/-
# MultiPaxosDB.LeaderBooks — the lock accounting of the leaders of a whole deployment.

`ServerImpl.Accounted` is about one server and what it is sent.  Here it is derived for every leader of a
deployment from what the client does: a `Transfer` goes to the leader of the one shard and a `TpcPrepare` to the
leader of either (`Addressed`), no leader is asked twice about a transaction, and a call is handled at most once.
So no tid comes to a leader a second time, and the reservations of `Reservations` hold throughout.
-/
import MultiPaxosDB.Conservation
import MultiPaxosDB.Reservations

namespace MultiPaxosDB

open Lib

theorem LeaderPerCluster.leaderFor_ne {c : Constants} {leaders : List Int} (h : LeaderPerCluster c leaders)
    {a a' : Int} (ha : isAccount c a) (ha' : isAccount c a')
    (hne : getClusterIdFromClientId c a ≠ getClusterIdFromClientId c a') :
    MultiPaxosDB.leaderFor c leaders a ≠ MultiPaxosDB.leaderFor c leaders a' := by
  intro heq
  apply hne
  rw [← (h.leaderFor ha).1, ← (h.leaderFor ha').1, heq]

namespace System

variable {s : System} {ev : SysEvent} {leaders : List Int}

/-! ## Where the requests go -/

/-- The requests for a transaction: one, or one to each of two leaders. -/
theorem mem_processTransaction {c : Constants} {client : Client} {t : Transaction} {tid : Int}
    {p : Int × ClientReq} (hp : p ∈ (client.processTransaction c leaders t tid).2) :
    p = (leaderFor c leaders t.sender, .transfer { txn := t, tid := tid }) ∨
      p = (leaderFor c leaders t.sender, .tpcPrepare { txn := t, tid := tid }) ∨
      p = (leaderFor c leaders t.receiver, .tpcPrepare { txn := t, tid := tid }) := by
  unfold Client.processTransaction at hp
  dsimp only at hp
  split at hp
  · exact .inl (List.mem_singleton.mp hp)
  · exact .inr (List.mem_pair.mp hp)

/-- The requests of the client are to the leaders of their accounts. -/
structure Directed (leaders : List Int) (s : System) : Prop where
  transfers : ∀ i r, (i, .transfer r) ∈ s.requests → i = leaderFor s.net.constants leaders r.txn.sender
  prepares : ∀ i r, (i, .tpcPrepare r) ∈ s.requests →
    i = leaderFor s.net.constants leaders r.txn.sender ∨ i = leaderFor s.net.constants leaders r.txn.receiver

theorem Directed.step (h : s.Directed leaders) (hok : submitsTo leaders s ev) : (s.step ev).Directed leaders := by
  have hconst := s.constants_step ev
  rcases s.requests_step ev with ⟨leaders', t, tid, rfl, -, hreqs⟩ | ⟨-, -, out, hreqs, hout⟩
  · obtain rfl : leaders' = leaders := hok.1
    refine ⟨?_, ?_⟩ <;> rw [hreqs, hconst]
    · intro i r hr
      rcases List.mem_append.mp hr with hold | hlast
      · exact h.transfers i r hold
      · rcases mem_processTransaction hlast with heq | heq | heq <;> cases heq
        rfl
    · intro i r hr
      rcases List.mem_append.mp hr with hold | hlast
      · exact h.prepares i r hold
      · rcases mem_processTransaction hlast with heq | heq | heq <;> cases heq
        · exact .inl rfl
        · exact .inr rfl
  · refine ⟨?_, ?_⟩ <;> rw [hreqs, hconst]
    · intro i r hr
      rcases List.mem_append.mp hr with hold | hlast
      · exact h.transfers i r hold
      · cases hout _ hlast
    · intro i r hr
      rcases List.mem_append.mp hr with hold | hlast
      · exact h.prepares i r hold
      · cases hout _ hlast

theorem directed_reach {ok : System → SysEvent → Prop} (hok : ∀ s ev, ok s ev → submitsTo leaders s ev)
    (hr : Reach System.step ok (System.fresh c) s) : s.Directed leaders := by
  refine hr.invariant (motive := Directed leaders) ⟨fun _ _ h => absurd h List.not_mem_nil,
    fun _ _ h => absurd h List.not_mem_nil⟩ ?_
  intro s ev _ h hev
  exact h.step (hok s ev hev)

/-- The requests of the client for a vote or a transfer, by server and tid. -/
def asked (s : System) : List (Int × Int) :=
  (s.requests.filter fun p => !p.2.isDecision).map fun p => (p.1, p.2.tid)

/-- Moreover no server is asked twice about a transaction. -/
structure Addressed (leaders : List Int) (s : System) : Prop extends Directed leaders s where
  once : s.asked.Nodup

namespace Addressed

theorem fresh (c : Constants) : (System.fresh c).Addressed leaders where
  transfers := fun _ _ hr => absurd hr List.not_mem_nil
  prepares := fun _ _ hr => absurd hr List.not_mem_nil
  once := List.nodup_nil

theorem asked_append {s' : System} {out : List (Int × ClientReq)} (h : s'.requests = s.requests ++ out) :
    s'.asked = s.asked ++ (out.filter fun p => !p.2.isDecision).map fun p => (p.1, p.2.tid) := by
  rw [asked, h, List.filter_append, List.map_append]
  rfl

/-- The two leaders of a cross-shard transaction are different ones. -/
theorem nodup_processTransaction {c : Constants} (hleaders : LeaderPerCluster c leaders) (client : Client)
    {t : Transaction} (tid : Int) (hsender : isAccount c t.sender) (hreceiver : isAccount c t.receiver) :
    ((client.processTransaction c leaders t tid).2.map Prod.fst).Nodup := by
  unfold Client.processTransaction
  dsimp only
  split
  · exact List.nodup_singleton _
  · rename_i hne
    have hapart := hleaders.leaderFor_ne hsender hreceiver hne
    exact List.nodup_cons.mpr ⟨fun hmem => hapart (List.mem_singleton.mp hmem), List.nodup_singleton _⟩

theorem submit (h : s.Addressed leaders) (hleaders : LeaderPerCluster s.net.constants leaders) (hv : s.Votes)
    (t : Transaction) (tid : Int) (hok : submitsTo leaders s (.submit leaders t tid)) :
    (s.step (.submit leaders t tid)).Addressed leaders := by
  have hdirected := h.toDirected.step hok
  obtain ⟨-, -, hnew, hsender, hreceiver⟩ := hok
  have hreqs : (s.step (.submit leaders t tid)).requests =
      s.requests ++ (s.client.processTransaction s.net.constants leaders t tid).2 := requests_append s _ _ _
  refine ⟨hdirected, ?_⟩
  rw [asked_append hreqs]
  refine List.nodup_append.mpr ⟨h.once, ?_, ?_⟩
  · have hdsts := nodup_processTransaction hleaders s.client tid hsender hreceiver
    refine List.Nodup.of_map Prod.fst ?_
    rw [List.map_map]
    exact hdsts.sublist (List.filter_sublist.map _)
  · -- the tid is new, so nobody has been asked about it
    rintro p hp q hq rfl
    obtain ⟨x, hx, rfl⟩ := List.mem_map.mp hp
    obtain ⟨y, hy, heq⟩ := List.mem_map.mp hq
    have hytid : y.2.tid = tid := by
      rcases mem_processTransaction (List.mem_filter.mp hy).1 with rfl | rfl | rfl <;> rfl
    have hxtid : x.2.tid = tid := (Prod.mk.inj heq).2.symm.trans hytid
    exact hnew (hxtid ▸ hv.known x (List.mem_filter.mp hx).1)

theorem step (h : s.Addressed leaders) (hleaders : LeaderPerCluster s.net.constants leaders) (hv : s.Votes)
    (hok : submitsTo leaders s ev) : (s.step ev).Addressed leaders := by
  rcases s.requests_step ev with ⟨leaders', t, tid, rfl, -, -⟩ | ⟨-, -, out, hreqs, hout⟩
  · have heq : leaders' = leaders := hok.1
    subst heq
    exact h.submit hleaders hv t tid hok
  · refine ⟨h.toDirected.step hok, ?_⟩
    rw [asked_append hreqs, List.filter_eq_nil_iff.mpr, List.map_nil, List.append_nil]
    · exact h.once
    · intro p hp
      rw [hout p hp]
      decide

/-- No server is asked twice about a transaction. -/
theorem call_unique (h : s.Addressed leaders) {k k' : Nat} {x y : ClientCall} (hx : s.calls[k]? = some x)
    (hy : s.calls[k']? = some y) (hxdec : x.req.isDecision = false) (hydec : y.req.isDecision = false)
    (hdst : x.dst = y.dst) (htid : x.req.tid = y.req.tid) : k = k' := by
  have honce := h.once
  rw [asked, requests, List.filter_map, List.map_map, List.nodup_iff_pairwise_ne, List.pairwise_map,
    List.pairwise_filter, List.pairwise_iff_getElem] at honce
  obtain ⟨hk, rfl⟩ := List.getElem?_eq_some_iff.mp hx
  obtain ⟨hk', rfl⟩ := List.getElem?_eq_some_iff.mp hy
  have hasks : ∀ {z : ClientCall}, z.req.isDecision = false →
      ((fun p : Int × ClientReq => !p.2.isDecision) ∘ fun z : ClientCall => (z.dst, z.req)) z = true := by
    intro z hz
    show (!z.req.isDecision) = true
    rw [hz]
    rfl
  rcases Nat.lt_trichotomy k k' with hlt | heq | hlt
  · exact absurd (Prod.ext hdst htid) (honce k k' hk hk' hlt (hasks hxdec) (hasks hydec))
  · exact heq
  · exact absurd (Prod.ext hdst.symm htid.symm) (honce k' k hk' hk hlt (hasks hydec) (hasks hxdec))

end Addressed

section Reached

variable {c : Constants} (hleaders : LeaderPerCluster c leaders)
  (hr : Reach System.step (leadersStable leaders) (System.fresh c) s)
include hr

theorem routed_stable : s.Routed leaders := routed_reach (fun _ _ hok => hok.1) hr

theorem votes_stable : s.Votes := votes_reach (fun _ _ hok => freshTid_of_submitsTo hok.1) hr

theorem issued_stable : s.Issued := issued_reach (fun _ _ hok => hok.1) hr

include hleaders in
theorem addressed_reach : s.Addressed leaders := by
  refine hr.invariant (motive := Addressed leaders) (.fresh c) ?_
  intro s ev hr h hok
  refine h.step ?_ (votes_stable hr) hok.1
  rw [Net.constants_reach (net_reach hr)]
  exact hleaders

end Reached

/-! ## What comes to a leader -/

/-- The tids of the transfers and votes that server `i` has been asked for. -/
def deliveredTids (s : System) (i : Int) : List Int :=
  (s.calls.filter fun x => decide (x.dst = i) && x.delivered && !x.req.isDecision).map fun x => x.req.tid

theorem mem_deliveredTids {i t : Int} : t ∈ s.deliveredTids i ↔
    ∃ x ∈ s.calls, x.dst = i ∧ x.delivered = true ∧ x.req.isDecision = false ∧ x.req.tid = t := by
  simp [deliveredTids, and_assoc]

theorem deliveredTids_step (s : System) (ev : SysEvent) (i : Int) :
    s.deliveredTids i ⊆ (s.step ev).deliveredTids i := by
  intro t ht
  obtain ⟨x, hx, hdst, hdel, hdec, htid⟩ := mem_deliveredTids.mp ht
  obtain ⟨k, hk⟩ := List.mem_iff_getElem?.mp hx
  obtain ⟨x', hk', hlater⟩ := s.later_step ev hk
  refine mem_deliveredTids.mpr ⟨x', List.mem_of_getElem? hk', hlater.dst.trans hdst, hlater.delivered hdel, ?_, ?_⟩
  · rw [hlater.req]
    exact hdec
  · rw [hlater.req]
    exact htid

/-- The call is delivered to server `i` in this step, and is enqueued as `b`. -/
def Brings (s : System) (ev : SysEvent) (i : Int) (b : BatchEntry) : Prop :=
  ∃ x, ev = .deliver b.call ∧ s.calls[b.call]? = some x ∧ x.delivered = false ∧ x.dst = i ∧ x.req = .ofEntry b

/-- A step is at most one event of a leader, a quiet one; what it enqueues is a call of the client, and a decision
it brings is the client's. -/
theorem leader_event (hok : leadersStable leaders s ev) {i : Int} (hi : isLeader s.net.constants leaders i) :
    (s.step ev).net.servers i = s.net.servers i ∨
      ∃ e, (s.step ev).net.servers i = (s.net.servers i).handle e ∧ (s.net.servers i).quiet e = true ∧
        (∀ b ∈ e.entries, s.Brings ev i b) ∧ ∀ t b, e = .input (.tpcDecision t b) → s.Decided t b := by
  generalize hs' : s.step ev = s'
  cases moves_of_step hs' with
  | idle | submit | vote | close => exact .inl rfl
  | server ev' hev =>
    rcases servers_step_cases s.net ev' i with ⟨hserver, -⟩ | ⟨e, hactor, hserver⟩
    · exact .inl hserver
    · refine .inr ⟨e, hserver, hok.2 (i, e) hactor hi, ?_, ?_⟩
      · intro b hb
        have hnone := NetEvent.entriesAt_of_not_fromClient hev i
        cases e with
        | input x =>
          obtain ⟨rfl, -⟩ := Net.actor_input hactor
          rw [NetEvent.entriesAt, if_pos rfl] at hnone
          rw [Event.entries, hnone] at hb
          exact absurd hb List.not_mem_nil
        | _ => exact absurd hb List.not_mem_nil
      · rintro t b rfl
        obtain ⟨rfl, -⟩ := Net.actor_input hactor
        cases hev
  | deliver k x hx hnot =>
    rcases servers_step_cases s.net (.input x.dst (x.req.toInput k)) i with ⟨hserver, -⟩ | ⟨e, hactor, hserver⟩
    · exact .inl hserver
    · have hboth : (x.dst, Event.input (x.req.toInput k)) = (i, e) := by
        simp only [Net.actor] at hactor
        split at hactor
        · exact Option.some.inj hactor
        · cases hactor
      cases hboth
      refine .inr ⟨_, hserver, by cases x.req <;> rfl, ?_, ?_⟩
      · intro b hb
        obtain ⟨rfl, hreq⟩ := ClientReq.eq_of_entry (Option.mem_toList.mp hb)
        exact ⟨x, rfl, hx, hnot, rfl, hreq⟩
      · intro t b hinput
        refine ⟨x.dst, List.mem_map.mpr ⟨x, List.mem_of_getElem? hx, ?_⟩⟩
        cases hreq : x.req with
        | tpcDecision t' b' =>
          rw [hreq] at hinput
          cases hinput
          rfl
        | _ =>
          rw [hreq] at hinput
          cases hinput

/-- A call comes in once: its tid is not among those delivered before. -/
theorem Brings.new (h : s.Addressed leaders) {i : Int} {b : BatchEntry} (hb : s.Brings ev i b) :
    b.request.tid ∉ s.deliveredTids i := by
  obtain ⟨x, -, hx, hnot, hdst, hreq⟩ := hb
  have hof : (ClientReq.ofEntry b).isDecision = false ∧ (ClientReq.ofEntry b).tid = b.request.tid := by
    unfold ClientReq.ofEntry
    split <;> exact ⟨rfl, rfl⟩
  rw [← hreq] at hof
  intro hmem
  obtain ⟨y, hy, hydst, hydel, hydec, hytid⟩ := mem_deliveredTids.mp hmem
  obtain ⟨k, hk⟩ := List.mem_iff_getElem?.mp hy
  obtain rfl := h.call_unique hx hk hof.1 hydec (hdst.trans hydst.symm) (hof.2.trans hytid.symm)
  have heq : x = y := Option.some.inj (hx.symm.trans hk)
  rw [heq, hydel] at hnot
  cases hnot

theorem Brings.delivered {i : Int} {b : BatchEntry} (hb : s.Brings ev i b) :
    b.request.tid ∈ (s.step ev).deliveredTids i := by
  obtain ⟨x, rfl, hx, hnot, hdst, hreq⟩ := hb
  have hcalls : (s.step (.deliver b.call)).calls = s.calls.modify b.call fun x => { x with delivered := true } := by
    simp only [System.step, hx, hnot]
    rfl
  refine mem_deliveredTids.mpr ⟨{ x with delivered := true }, ?_, hdst, rfl, ?_, ?_⟩
  · rw [hcalls]
    have hnow : (s.calls.modify b.call fun x => { x with delivered := true })[b.call]? =
        some { x with delivered := true } := by
      rw [Net.getElem?_modify_some _ hx, if_pos rfl]
    exact List.mem_of_getElem? hnow
  · show x.req.isDecision = false
    rw [hreq, ClientReq.ofEntry]
    split <;> rfl
  · show x.req.tid = b.request.tid
    rw [hreq, ClientReq.ofEntry]
    split <;> rfl

/-- What comes to a leader is for its shard. -/
theorem Brings.reservable (h : s.Addressed leaders) (hrouted : s.Routed leaders)
    (hleaders : LeaderPerCluster s.net.constants leaders) (hwf : s.net.WellFormed) {i : Int} {b : BatchEntry}
    (hb : s.Brings ev i b) :
    reservable (fun _ => True) (s.net.servers i).ledger.isClientInCluster b.isCrossShard b.request.tid
      b.request.txn := by
  obtain ⟨x, -, hx, -, hdst, hreq⟩ := hb
  have hasked : (i, ClientReq.ofEntry b) ∈ s.requests :=
    List.mem_map.mpr ⟨x, List.mem_of_getElem? hx, by rw [hdst, hreq]⟩
  obtain ⟨hconst, hid⟩ := hwf.shard i
  have hin : ∀ a, (s.net.servers i).ledger.isClientInCluster a =
      (getClusterIdFromClientId s.net.constants a == getClusterIdFromServerId s.net.constants i) := by
    intro a
    rw [Ledger.isClientInCluster, hconst, hid]
    rfl
  unfold ClientReq.ofEntry at hasked
  split at hasked
  · rename_i hcross
    obtain ⟨hsub, htwo⟩ := hrouted.prepares i _ hasked
    obtain ⟨hpos, hsender, hreceiver⟩ := hrouted.accounts _ hsub
    refine ⟨hpos, trivial, fun _ => ?_, fun hintra => by rw [hcross] at hintra; cases hintra⟩
    have hne : getClusterIdFromClientId s.net.constants b.request.txn.sender ≠
        getClusterIdFromClientId s.net.constants b.request.txn.receiver := htwo
    rw [Transaction.crosses, hin, hin]
    rcases h.prepares i _ hasked with rfl | rfl
    · rw [(hleaders.leaderFor hsender).1]
      simp [hne.symm]
    · rw [(hleaders.leaderFor hreceiver).1]
      simp [hne]
  · rename_i hcross
    obtain ⟨hsub, hone⟩ := hrouted.transfers i _ hasked
    obtain ⟨hpos, hsender, -⟩ := hrouted.accounts _ hsub
    refine ⟨hpos, trivial, fun htrue => absurd htrue hcross, fun _ => ?_⟩
    have heq : getClusterIdFromClientId s.net.constants b.request.txn.sender =
        getClusterIdFromClientId s.net.constants b.request.txn.receiver := hone
    have hi := h.transfers i _ hasked
    rw [Transaction.within, hin, hin, hi, (hleaders.leaderFor hsender).1, ← heq]
    simp

end System

theorem ServerImpl.Accounted.mono {Q : Int → Prop} {s : ServerImpl} {tids tids' : List Int}
    (h : s.Accounted Q tids) (hsub : tids ⊆ tids') : s.Accounted Q tids' :=
  ⟨h.phase, h.running, h.carries, fun p hp => hsub (h.known p hp), h.once, h.books.mono hsub⟩

namespace System

/-- **The books of a leader**: whatever the deployment goes through and whatever the amounts, the reservations of a
stable leader are those of `Reservations`. -/
theorem accounted_reach {s : System} {leaders : List Int} {c : Constants} (hleaders : LeaderPerCluster c leaders)
    (hr : Reach System.step (leadersStable leaders) (System.fresh c) s) {i : Int} (hi : isLeader c leaders i) :
    (s.net.servers i).Accounted (fun _ => True) (s.deliveredTids i) := by
  refine hr.invariant
    (motive := fun s : System => (s.net.servers i).Accounted (fun _ => True) (s.deliveredTids i)) ?_ ?_
  · exact ServerImpl.Accounted.fresh c i
  intro s ev hr h hok
  have hnet := net_reach hr
  have hconst := Net.constants_reach hnet
  have haddressed := addressed_reach hleaders hr
  rw [← hconst] at hleaders hi
  rcases leader_event hok hi with hsame | ⟨e, hserver, hquiet, hbrings, -⟩
  · rw [hsame]
    exact h.mono (s.deliveredTids_step ev i)
  · rw [hserver]
    refine (h.handle (ServerImpl.quiet.own hquiet) ?_ fun b hb => (hbrings b hb).new haddressed).mono ?_
    · intro b hb
      exact (hbrings b hb).reservable haddressed (routed_stable hr) hleaders (.reach hnet)
    · intro t ht
      rcases List.mem_append.mp ht with hold | hnew
      · exact s.deliveredTids_step ev i hold
      · obtain ⟨b, hb, rfl⟩ := List.mem_map.mp hnew
        exact (hbrings b hb).delivered

end System

end MultiPaxosDB
