/-
# MultiPaxosDB.Quiescence — once the network is quiet, every request has been answered.

A client call is parked on the leader it was sent to until a round has taken it up and is over.  The round can wait for
ever: completions that it does not count, and ballots that a peer overwrites, may leave it with nothing to wait for
(`Progress`).  With one leader per cluster the peers overwrite nothing (`Followers`), so what is left is the status of
the RPCs: while each of them ends with an answer or with its deadline, a leader without an open RPC has no round and no
queue, and every call that has reached it is answered (`quiet_network_answers`).
-/
import MultiPaxosDB.Followers
import MultiPaxosDB.Progress

namespace MultiPaxosDB

open Lib

/-! ## Rounds under one leader -/

/-- No RPC between servers ends with another error than a missed deadline. -/
def NetEvent.timely : NetEvent → Bool
  | .fail _ status => decide (status ≠ .error)
  | _ => true

/-- A prepare or an accept of the server has ended with another error. -/
def Event.erred : Event → Bool
  | .prepareReply .error _ _ => true
  | .acceptReply .error _ _ => true
  | _ => false

namespace Net

variable {n : Net} {ev : NetEvent} {i : Int} {leaders : List Int}

theorem erred_of_timely (hev : ev.timely = true) {e : Event} (hactor : n.actor ev = some (i, e)) : e.erred = false := by
  have hreply : ∀ {req : RpcReq} {status : Status} {res : RpcRes}, status ≠ .error → replyEvent req status res = some e →
      e.erred = false := by
    intro req status res hstatus he
    unfold replyEvent at he
    split at he
    · cases he
      cases status with
      | error => exact absurd rfl hstatus
      | ok | deadlineExceeded => rfl
    · cases he
      cases status with
      | error => exact absurd rfl hstatus
      | ok | deadlineExceeded => rfl
    · cases he
      rfl
    · cases he
  cases acts hactor with
  | input => rfl
  | deliver k r => cases r.req <;> rfl
  | complete k r res e hk hres hdone he => exact hreply (by decide) he
  | fail k r status e hk hdone hstatus he => exact hreply (of_decide_eq_true hev) he

/-- A round of a leader keeps the ballot it asks with, and counts every completion. -/
theorem Followed.undisturbed (h : n.Followed leaders) (hwf : n.WellFormed) (hev : ev.timely = true) :
    n.undisturbed ev = true := by
  unfold Net.undisturbed
  split
  · rename_i i e hactor
    have herred := erred_of_timely hev hactor
    have hjust := justified hactor
    cases e with
    | prepareCall request =>
      obtain ⟨r, hr, rfl, hreq, -⟩ := hjust
      have hidle := h.idle r.dst (h.callee hwf hr (by rw [hreq]; rfl)).2
      simp [ServerImpl.undisturbed, hidle.prepare]
    | acceptCall request =>
      obtain ⟨r, hr, rfl, hreq, -⟩ := hjust
      have hidle := h.idle r.dst (h.callee hwf hr (by rw [hreq]; rfl)).2
      simp [ServerImpl.undisturbed, hidle.accept]
    | prepareReply status request response | acceptReply status request response =>
      cases status with
      | error => cases herred
      | ok | deadlineExceeded => simp [ServerImpl.undisturbed]
    | _ => rfl
  · rfl

/-- A server without an open RPC of a round has nothing to do. -/
theorem parked_of_quiet {c : Constants} (hc : c.clusterSize = 3)
    (hr : Reach Net.step (fun n ev => n.undisturbed ev = true) (Net.fresh c) n)
    (hquiet : ∀ r ∈ n.rpcs, r.src = i → r.req.inRound = true → r.done = true) : (n.servers i).parked = [] := by
  have hawaits := awaits_reach hc hr i
  obtain ⟨es, hes⟩ := session_reach hr i
  have horderly := Session.orderly_run c i es
  rw [← hes] at horderly
  have hphase : (n.servers i).Phase := horderly.phase
  have hnone : ∀ call ∈ (n.session i).outstanding, call.req.inRound = false := by
    intro call hcall
    obtain ⟨r, hr, hsrc, hdone, hreq⟩ := mem_openCalls hcall
    by_contra hround
    rw [hquiet r hr hsrc (by rw [hreq]; simpa using hround)] at hdone
    cases hdone
  have hzero : ∀ p : OutCall → Bool, (∀ call, p call = true → call.req.inRound = true) →
      (n.session i).outstanding.countP p = 0 := by
    intro p hp
    refine List.countP_eq_zero.mpr fun call hcall htrue => ?_
    have hround := hnone call hcall
    rw [hp call htrue] at hround
    cases hround
  have hsync : ¬ ∃ call ∈ (n.session i).outstanding, call.req.isSync = true := by
    rintro ⟨call, hcall, hsync⟩
    have hround := hnone call hcall
    cases hreq : call.req <;> simp [RpcReq.isSync, RpcReq.inRound, hreq] at hsync hround
  -- neither phase has anything left to wait for
  have hprepare : (n.servers i).awaitPrepareDecision = false := by
    cases hawait : (n.servers i).awaitPrepareDecision with
    | false => rfl
    | true =>
      have hcount := (hawaits.prepare hawait).2
      have hfail := (hphase.prepare hawait).2.2.2.1
      rw [hzero] at hcount
      · omega
      · intro call hcall
        cases hreq : call.req <;> simp [OutCall.prepares, RpcReq.inRound, hreq] at hcall ⊢
  have haccept : (n.servers i).awaitAcceptDecision = false := by
    cases hawait : (n.servers i).awaitAcceptDecision with
    | false => rfl
    | true =>
      have hcount := (hawaits.accept hawait).2
      have hfail := (hphase.accept hawait).2
      rw [hzero] at hcount
      · omega
      · intro call hcall
        cases hreq : call.req <;> simp [OutCall.accepts, RpcReq.inRound, hreq] at hcall ⊢
  have hidle : (n.servers i).isPaxosRunning = false := by
    cases hrunning : (n.servers i).isPaxosRunning with
    | false => rfl
    | true => exact absurd (hawaits.paused hrunning hprepare haccept) hsync
  have hcurrent : (n.servers i).current = [] := horderly.busy.running hidle
  have hpending : (n.servers i).pending = [] := by
    by_contra hne
    rcases horderly.served hne with hrunning | hflag
    · rw [show (n.session i).server = n.servers i from rfl, hidle] at hrunning
      cases hrunning
    · exact hsync (horderly.synced hflag)
  rw [ServerImpl.parked, hcurrent, hpending]
  rfl

end Net

/-! ## The calls of the client -/

namespace System

variable {s : System} {ev : SysEvent} {leaders : List Int} {c : Constants}

/-- As `ledStep`, and the RPCs between servers end with an answer or a missed deadline. -/
def timelyStep (leaders : List Int) (s : System) (ev : SysEvent) : Prop :=
  ledStep leaders s ev ∧
    match ev with
    | .server ev' => ev'.timely = true
    | _ => True

instance (leaders : List Int) (s : System) : (ev : SysEvent) → Decidable (timelyStep leaders s ev)
  | .server ev' => inferInstanceAs (Decidable (_ ∧ ev'.timely = true))
  | .submit _ _ _ | .deliver _ | .complete _ | .fail _ => inferInstanceAs (Decidable (_ ∧ True))

theorem undisturbed_reach (hc : c.clusterSize = 3) (hleaders : LeaderPerCluster c leaders)
    (hr : Reach System.step (timelyStep leaders) (System.fresh c) s) :
    Reach Net.step (fun n ev => n.undisturbed ev = true) (Net.fresh c) s.net := by
  refine hr.invariant (motive := fun s : System => Reach Net.step (fun n ev => n.undisturbed ev = true) (Net.fresh c) s.net)
    .start ?_
  intro s ev hr h hok
  have hfollowed := (followed_reach hc hleaders (hr.mono fun _ _ hok => hok.1)).1
  have hwf : s.net.WellFormed := .reach h
  generalize hs' : s.step ev = s'
  cases moves_of_step hs' with
  | deliver k x => exact h.step (hfollowed.undisturbed hwf rfl)
  | server ev' => exact h.step (hfollowed.undisturbed hwf hok.2)
  | _ => exact h

/-- A call that has reached its server before a step or does so in it. -/
theorem delivered_step {k : Nat} {x' : ClientCall} (hx' : (s.step ev).calls[k]? = some x') (hdel : x'.delivered = true) :
    ∃ x, s.calls[k]? = some x ∧ x.dst = x'.dst ∧ x.req = x'.req ∧ (x.delivered = true ∨ ev = .deliver k) := by
  -- new calls are not delivered
  have hback : ∀ {calls : List ClientCall} {out : List (Int × ClientReq)}, (calls ++ out.map .new)[k]? = some x' →
      calls[k]? = some x' := by
    intro calls out h
    rcases Nat.lt_or_ge k calls.length with hlt | hge
    · rwa [List.getElem?_append_left hlt] at h
    · rw [List.getElem?_append_right hge, List.getElem?_map] at h
      obtain ⟨p, -, rfl⟩ := Option.map_eq_some_iff.mp h
      cases hdel
  have hmodify : ∀ {k' : Nat} {f : ClientCall → ClientCall}, (s.calls.modify k' f)[k]? = some x' →
      ∃ x, s.calls[k]? = some x ∧ x' = if k' = k then f x else x := by
    intro k' f h
    cases hx : s.calls[k]? with
    | none =>
      rw [List.getElem?_modify, hx] at h
      cases h
    | some x =>
      rw [Net.getElem?_modify_some f hx] at h
      exact ⟨x, rfl, (Option.some.inj h).symm⟩
  have hclose : ∀ {k' : Nat} {vote : Option Bool} {out : Client × List (Int × ClientReq)},
      (s.close k' vote out).calls[k]? = some x' →
        ∃ x, s.calls[k]? = some x ∧ x.dst = x'.dst ∧ x.req = x'.req ∧ (x.delivered = true ∨ ev = .deliver k) := by
    intro k' vote out h
    obtain ⟨x, hx, rfl⟩ := hmodify (hback h)
    refine ⟨x, hx, ?_, ?_, .inl ?_⟩ <;> split at hdel <;> simp_all
  generalize hs' : s.step ev = s' at hx'
  cases moves_of_step hs' with
  | idle | server => exact ⟨x', hx', rfl, rfl, .inl hdel⟩
  | submit => exact ⟨x', hback hx', rfl, rfl, .inl hdel⟩
  | vote => exact hclose hx'
  | close => exact hclose hx'
  | deliver k' y hy =>
    obtain ⟨x, hx, rfl⟩ := hmodify hx'
    by_cases hk : k' = k
    · subst hk
      exact ⟨x, hx, by rw [if_pos rfl], by rw [if_pos rfl], .inr rfl⟩
    · rw [if_neg hk] at hdel ⊢
      exact ⟨x, hx, rfl, rfl, .inl hdel⟩

/-- No server loses a call: it is answered, in the round or queued. -/
def Kept (s : System) : Prop := ∀ k x, s.calls[k]? = some x → x.delivered = true → x.req.isDecision = false →
  (k, x.req.tid) ∈ (s.net.servers x.dst).callKeys

theorem callKeys_subset (hrunning : ∀ i, (s.net.servers i).Running) (ev : SysEvent) (i : Int) :
    (s.net.servers i).callKeys ⊆ ((s.step ev).net.servers i).callKeys := by
  rcases s.net_step ev with heq | ⟨ev', heq⟩
  · rw [heq]
    exact List.Subset.refl _
  · rw [heq]
    rcases servers_step_cases s.net ev' i with ⟨hsame, -⟩ | ⟨e, -, hserver⟩
    · rw [hsame]
      exact List.Subset.refl _
    · rw [hserver]
      intro p hp
      exact (ServerImpl.callKeys_handle (hrunning i) e).mem_iff.mpr (List.mem_append_left _ hp)

theorem kept_reach (hleaders : LeaderPerCluster c leaders) (hr : Reach System.step (ledStep leaders) (System.fresh c) s) :
    s.Kept := by
  have hsubmits : ∀ s ev, ledStep leaders s ev → submitsTo leaders s ev := fun _ _ hok => hok.1
  refine hr.invariant (motive := Kept) (fun k x hx => by simp [System.fresh] at hx) ?_
  intro s ev hr h hok k x' hx' hdel hask
  have hconst := Net.constants_reach (net_reach hr)
  have hrunning := (tracked_reach hr).running
  obtain ⟨x, hx, hdst, hreq, hcase⟩ := delivered_step hx' hdel
  rw [← hreq] at hask
  rw [← hdst, ← hreq]
  by_cases hold : x.delivered = true
  · exact callKeys_subset hrunning ev x.dst (h k x hx hold hask)
  · obtain rfl : ev = .deliver k := hcase.resolve_left hold
    have hmem : (x.dst, x.req) ∈ s.requests := List.mem_map.mpr ⟨x, List.mem_of_getElem? hx, rfl⟩
    obtain ⟨htransfer, hprepare⟩ := (directed_reach hsubmits hr).byShard (routed_reach hsubmits hr) (hconst ▸ hleaders)
    -- the call is a request, so it is to a leader and becomes an entry of its queue
    obtain ⟨hleader, b, hentry, hkey⟩ : isLeader s.net.constants leaders x.dst ∧
        ∃ b, (x.req.toInput k).entry = some b ∧ b.key = (k, x.req.tid) := by
      cases hreq : x.req with
      | transfer r => exact ⟨(htransfer _ r (hreq ▸ hmem)).1, _, rfl, rfl⟩
      | tpcPrepare r => exact ⟨(hprepare _ r (hreq ▸ hmem)).1, _, rfl, rfl⟩
      | tpcDecision tid isCommit =>
        rw [hreq] at hask
        cases hask
    have hactor : s.net.actor (.input x.dst (x.req.toInput k)) = some (x.dst, .input (x.req.toInput k)) := by
      simp [Net.actor, hleader.1]
    have hstep : ((s.step (.deliver k)).net.servers x.dst) = (s.net.servers x.dst).handle (.input (x.req.toInput k)) := by
      simp only [System.step, hx, hold]
      rw [if_neg (by simp), Net.step_eq_after hactor, Net.servers_after_self]
    rw [hstep]
    refine (ServerImpl.callKeys_handle (hrunning x.dst) _).mem_iff.mpr (List.mem_append_right _ ?_)
    rw [Event.entries, hentry, ← hkey]
    exact List.mem_singleton.mpr rfl

end System

/-- **Once the network is quiet, every request has been answered.**  If the client sends its requests to one server of each
cluster, the syncs are in order, and no RPC between servers ends with another error than a missed deadline: a `Transfer` or
`TpcPrepare` that has reached a server is answered there, at the latest when no RPC of that server is open. -/
theorem quiet_network_answers (c : Constants) (leaders : List Int) (es : List SysEvent) (hc : c.clusterSize = 3)
    (hleaders : LeaderPerCluster c leaders) (hrun : okRun System.step (System.timelyStep leaders) (System.fresh c) es)
    (k : Nat) (x : ClientCall) (hx : (System.run c es).calls[k]? = some x) (hdel : x.delivered = true)
    (hask : x.req.isDecision = false)
    (hquiet : ∀ r ∈ (System.run c es).net.rpcs, r.src = x.dst → r.req.inRound = true → r.done = true) :
    ∃ reply ∈ ((System.run c es).net.servers x.dst).replies, reply.call = k ∧ reply.tid = x.req.tid := by
  have hr := System.reach_run c hrun
  have hkept := System.kept_reach hleaders (hr.mono fun _ _ hok => hok.1) k x hx hdel hask
  rw [ServerImpl.callKeys, Net.parked_of_quiet hc (System.undisturbed_reach hc hleaders hr) hquiet, List.map_nil,
    List.append_nil] at hkept
  obtain ⟨reply, hreply, hkey⟩ := List.mem_map.mp hkept
  obtain ⟨hcall, htid⟩ := Prod.mk.inj hkey
  exact ⟨reply, hreply, hcall, htid⟩

/-- A transfer whose leader hears from neither of its peers. -/
def peersSilent : List SysEvent :=
  [.submit [1, 4] ⟨1, 2, 5⟩ 7, .deliver 0, .server (.fail 0 .deadlineExceeded), .server (.fail 1 .deadlineExceeded)]

theorem quiet_network_answers_peersSilent :
    ∃ reply ∈ ((System.run ⟨2, 3⟩ peersSilent).net.servers 1).replies, reply.call = 0 ∧ reply.tid = 7 :=
  quiet_network_answers ⟨2, 3⟩ [1, 4] peersSilent rfl leaderPerCluster_pair (by decide +kernel) 0
    ⟨1, .transfer ⟨⟨1, 2, 5⟩, 7⟩, true, false, none⟩ (by decide +kernel) rfl rfl (by decide +kernel)

end MultiPaxosDB
