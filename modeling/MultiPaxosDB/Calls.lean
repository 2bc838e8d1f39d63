/-
# MultiPaxosDB.Calls — the client's calls on the servers.

A client call is parked on its server from the moment it is enqueued: in `pending_`, then in
`current_`, until `completeTransfer` answers it.  `callKeys` lists all of these with their tids, and a
handled event adds at most the call it brings (`handle_takes`).  So in a whole deployment
(`System.Tracked`) every entry of a batch is a call the client made to that server, every answer is the
answer to one, and no call is on a server twice: a call that is answered is in no batch any more.
-/
import Mathlib.Data.List.Perm.Subperm
import MultiPaxosDB.Client
import MultiPaxosDB.LedgerOps
import MultiPaxosDB.Lib.Modify

namespace MultiPaxosDB

open Lib

/-! ## One server -/

/-- The call and the tid of a batch entry. -/
def BatchEntry.key (b : BatchEntry) : Nat × Int := (b.call, b.request.tid)

/-- The call and the tid of an answer. -/
def TransferRes.key (x : TransferRes) : Nat × Int := (x.call, x.tid)

/-- The batch entry an event brings. -/
def Event.entries : Event → List BatchEntry
  | .input x => x.entry.toList
  | _ => []

namespace ServerImpl

/-- The entries that wait for their answer. -/
def parked (s : ServerImpl) : List BatchEntry := s.current ++ s.pending

/-- Every client call that has reached the server: answered, in the round, or queued. -/
def callKeys (s : ServerImpl) : List (Nat × Int) :=
  s.replies.map TransferRes.key ++ s.parked.map BatchEntry.key

/-- Without a round there is no batch in flight. -/
def Running (s : ServerImpl) : Prop := s.isPaxosRunning = false → s.current = []

/-- From `s` to `t` the server has taken at most the entries `new`. -/
structure Takes (s : ServerImpl) (new : List BatchEntry) (t : ServerImpl) : Prop where
  running : t.Running
  keys : t.callKeys.Subperm (s.callKeys ++ new.map BatchEntry.key)
  parked : ∀ b ∈ t.parked, b ∈ s.parked ∨ b ∈ new
  replies : s.replies ⊆ t.replies

theorem Takes.same {s t : ServerImpl} (h : s.Running) (new : List BatchEntry)
    (hrun : t.isPaxosRunning = s.isPaxosRunning) (hcur : t.current = s.current)
    (hpend : t.pending = s.pending) (hrep : t.replies = s.replies) : s.Takes new t where
  running := by
    intro hnot
    rw [hcur]
    exact h (hrun ▸ hnot)
  keys := by
    rw [callKeys, callKeys, ServerImpl.parked, ServerImpl.parked, hrep, hcur, hpend]
    exact (List.sublist_append_left _ _).subperm
  parked := by
    rw [ServerImpl.parked, ServerImpl.parked, hcur, hpend]
    exact fun b hb => .inl hb
  replies := by
    rw [hrep]
    exact List.Subset.refl _

/-- A call queued behind the others. -/
theorem Takes.queue {s : ServerImpl} (h : s.Running) (b : BatchEntry) :
    s.Takes [b] { s with pending := s.pending ++ [b] } where
  running := h
  keys := by
    have heq : ({ s with pending := s.pending ++ [b] } : ServerImpl).callKeys =
        s.callKeys ++ [b].map BatchEntry.key := by
      simp [callKeys, ServerImpl.parked]
    rw [heq]
  parked := by
    intro b' hb'
    have hmem : b' ∈ s.current ++ (s.pending ++ [b]) := hb'
    rw [← List.append_assoc] at hmem
    exact List.mem_append.mp hmem
  replies := List.Subset.refl _

section Answer

variable {s t : ServerImpl} {new answered kept : List BatchEntry} {ack : Bool} (hcur : t.current = kept)
  (hpend : t.pending = s.pending)
  (hrep : t.replies = s.replies ++ answered.map fun b => { call := b.call, ack := ack, tid := b.request.tid })
  (hperm : (answered ++ kept).Perm s.current)
include hcur hpend hrep hperm

/-- Entries that leave the batch in flight and are answered are on the server as before. -/
theorem callKeys_answer : t.callKeys.Perm s.callKeys := by
  have hkeys : t.callKeys =
      s.replies.map TransferRes.key ++ (answered ++ kept ++ s.pending).map BatchEntry.key := by
    rw [callKeys, ServerImpl.parked, hrep, hcur, hpend]
    simp only [List.map_append, List.map_map, List.append_assoc]
    rfl
  rw [hkeys]
  exact ((hperm.append_right s.pending).map BatchEntry.key).append_left (s.replies.map TransferRes.key)

theorem Takes.answer (hrun : t.Running) : s.Takes new t where
  running := hrun
  keys := (callKeys_answer hcur hpend hrep hperm).subperm.trans (List.sublist_append_left _ _).subperm
  parked := by
    intro b hb
    rw [ServerImpl.parked, hcur, hpend] at hb
    rcases List.mem_append.mp hb with hk | hp
    · exact .inl (List.mem_append_left _ (hperm.subset (List.mem_append_right _ hk)))
    · exact .inl (List.mem_append_right _ hp)
  replies := by
    rw [hrep]
    exact List.subset_append_left _ _

end Answer

/-- The validation loop drops no entry and doubles none. -/
theorem foldl_validateEntry_perm (ballot : Ballot) (batch : List BatchEntry) (a : Admission) :
    ((batch.foldl (validateEntry ballot) a).rejected ++ (batch.foldl (validateEntry ballot) a).kept).Perm
      (a.rejected ++ a.kept ++ batch) := by
  induction batch generalizing a with
  | nil => simp
  | cons b batch ih =>
    refine (ih (validateEntry ballot a b)).trans ?_
    unfold validateEntry
    split
    · show (a.rejected ++ [b] ++ a.kept ++ batch).Perm (a.rejected ++ a.kept ++ b :: batch)
      rw [List.append_assoc a.rejected, List.append_assoc a.rejected, List.append_assoc a.rejected]
      apply List.Perm.append_left
      exact List.perm_middle.symm
    · show (a.rejected ++ (a.kept ++ [b]) ++ batch).Perm (a.rejected ++ a.kept ++ b :: batch)
      simp

theorem admitAll_perm (l : Ledger) (ballot : Ballot) (batch : List BatchEntry) :
    ((admitAll l ballot batch).rejected ++ (admitAll l ballot batch).kept).Perm batch :=
  foldl_validateEntry_perm ballot batch { ledger := l, rejected := [], kept := [] }

theorem Core.takes {s t : ServerImpl} {e : Event} (h : Core s e t) (hs : s.Running) :
    s.Takes e.entries t := by
  cases h with
  | @refuse x b hentry =>
    have hnew : Event.entries (.input x) = [b] := by
      simp only [Event.entries, hentry, Option.toList_some]
    rw [hnew]
    refine ⟨hs, ?_, fun b' hb' => .inl hb', List.subset_append_left _ _⟩
    -- the answer goes to the end of the answers, the key to the end of all keys
    show ((s.replies ++ [_]).map TransferRes.key ++ s.parked.map BatchEntry.key).Subperm
      (s.replies.map TransferRes.key ++ s.parked.map BatchEntry.key ++ [b.key])
    rw [List.map_append, List.append_assoc, List.append_assoc]
    exact (List.perm_append_comm.append_left _).subperm
  | transfer call request => exact .queue hs _
  | tpcPrepare call request => exact .queue hs _
  | reject a b _ _ _ hempty =>
    refine .answer rfl rfl rfl ?_ fun _ => rfl
    have hperm := admitAll_perm s.ledger s.promisedNum s.current
    rwa [show (admitAll s.ledger s.promisedNum s.current).kept = [] from hempty] at hperm
  | propose a b =>
    refine .answer rfl rfl rfl (admitAll_perm s.ledger s.promisedNum s.current) ?_
    intro hnot
    have hcur : s.current = [] := hs hnot
    show (admitAll s.ledger s.promisedNum s.current).kept = []
    rw [hcur]
    rfl
  | abortPrepare | abortAccept =>
    exact .answer rfl rfl rfl (.of_eq (List.append_nil _)) fun _ => rfl
  | commitRound => exact .answer rfl rfl rfl (.of_eq (List.append_nil _)) fun _ => rfl
  | _ => exact .same hs _ rfl rfl rfl rfl

/-- **A handled event adds at most the call it brings.** -/
theorem handle_takes {s : ServerImpl} (hs : s.Running) (e : Event) : s.Takes e.entries (s.handle e) := by
  have hclear : ({ s with outbox := [] } : ServerImpl).Running := hs
  generalize hu : s.handle e = u
  cases moves_of_handle hu with
  | done hcore =>
    have ht := hcore.takes hclear
    exact ⟨ht.running, ht.keys, ht.parked, ht.replies⟩
  | @start t hcore hnot _ _ =>
    have ht := hcore.takes hclear
    have hcur : t.current = [] := ht.running hnot
    -- `current_` takes over `pending_`, so the list of all waiting entries stays as it is
    have hparked : t.takePending.reissuePrepareForCurrent.parked = t.parked := by
      show t.pending ++ [] = t.current ++ t.pending
      rw [hcur, List.append_nil, List.nil_append]
    have hrunning : t.takePending.reissuePrepareForCurrent.Running := by
      intro hrun
      cases hrun
    refine ⟨hrunning, ?_, ?_, ht.replies⟩
    · have hkeys := ht.keys
      rw [callKeys, hparked]
      exact hkeys
    · rw [hparked]
      exact ht.parked
  | @retry t hpre =>
    have ht : s.Takes e.entries t := by
      cases hpre <;> exact .same hs _ rfl rfl rfl rfl
    exact ⟨ht.running, ht.keys, ht.parked, ht.replies⟩

end ServerImpl

/-! ## The network -/

theorem ServerImpl.Takes.mono {s t : ServerImpl} {new new' : List BatchEntry} (h : s.Takes new t)
    (hnew : new.Sublist new') : s.Takes new' t where
  running := h.running
  keys := h.keys.trans (((hnew.map BatchEntry.key).append_left _).subperm)
  parked := fun b hb => (h.parked b hb).imp_right fun hmem => hnew.subset hmem
  replies := h.replies

/-- The entries an event of the network brings to server `i`. -/
def NetEvent.entriesAt (i : Int) : NetEvent → List BatchEntry
  | .input j x => if j = i then x.entry.toList else []
  | _ => []

theorem NetEvent.mem_entriesAt {ev : NetEvent} {i : Int} {b : BatchEntry} (h : b ∈ ev.entriesAt i) :
    ∃ x, ev = .input i x ∧ x.entry = some b := by
  cases ev with
  | input j x =>
    simp only [entriesAt] at h
    split at h
    · rename_i heq
      rw [heq]
      exact ⟨x, rfl, Option.mem_toList.mp h⟩
    · exact absurd h List.not_mem_nil
  | _ => exact absurd h List.not_mem_nil

/-- An event brings one call at most. -/
theorem NetEvent.nodup_entriesAt (ev : NetEvent) (i : Int) :
    ((ev.entriesAt i).map BatchEntry.call).Nodup := by
  cases ev with
  | input j x =>
    simp only [entriesAt]
    split
    · cases x.entry with
      | none => exact List.nodup_nil
      | some b => exact List.nodup_singleton _
    · exact List.nodup_nil
  | _ => exact List.nodup_nil

theorem NetEvent.entriesAt_of_not_fromClient {ev : NetEvent} (h : ev.fromClient = false) (i : Int) :
    ev.entriesAt i = [] := by
  cases ev with
  | input j x =>
    have hentry : x.entry = none := by
      cases x with
      | transfer call request => cases h
      | tpcPrepare call request => cases h
      | _ => rfl
    simp only [entriesAt, hentry, Option.toList_none, ite_self]
  | _ => rfl

theorem Net.takes_step {n : Net} (ev : NetEvent) (h : ∀ i, (n.servers i).Running) (i : Int) :
    (n.servers i).Takes (ev.entriesAt i) ((n.step ev).servers i) := by
  have hstay : ∀ j, (n.servers j).Takes (ev.entriesAt j) (n.servers j) := fun j =>
    .same (h j) _ rfl rfl rfl rfl
  rcases n.step_cases ev with ⟨-, hservers⟩ | ⟨j, e, u, hactor, -, hu, hstep⟩
  · rw [hservers]
    exact hstay i
  · have hnew : e.entries.Sublist (ev.entriesAt j) := by
      cases e with
      | input x =>
        obtain ⟨rfl, -⟩ := actor_input hactor
        simp [Event.entries, NetEvent.entriesAt]
      | _ => exact List.nil_sublist _
    rw [hstep]
    refine forall_servers_after (P := fun j s => (n.servers j).Takes (ev.entriesAt j) s) ev hstay ?_ i
    rw [← hu]
    exact (ServerImpl.handle_takes (h j) e).mono hnew

/-! ## The deployment -/

/-- The request that is enqueued as `b`. -/
def ClientReq.ofEntry (b : BatchEntry) : ClientReq :=
  if b.isCrossShard then .tpcPrepare b.request else .transfer b.request

theorem ClientReq.eq_of_entry {req : ClientReq} {k : Nat} {b : BatchEntry}
    (h : (req.toInput k).entry = some b) : b.call = k ∧ req = .ofEntry b := by
  cases req with
  | transfer request =>
    obtain rfl := Option.some.inj h
    exact ⟨rfl, rfl⟩
  | tpcPrepare request =>
    obtain rfl := Option.some.inj h
    exact ⟨rfl, rfl⟩
  | tpcDecision tid isCommit => cases h

/-- `x'` is the call `x` later in its life. -/
structure ClientCall.Later (x x' : ClientCall) : Prop where
  dst : x'.dst = x.dst
  req : x'.req = x.req
  delivered : x.delivered = true → x'.delivered = true
  vote : x.done = true → x'.done = true ∧ x'.vote = x.vote

theorem ClientCall.Later.refl (x : ClientCall) : x.Later x := ⟨rfl, rfl, id, fun h => ⟨h, rfl⟩⟩

namespace System

variable {s s' : System} {ev : SysEvent}

/-- A call keeps its place and what it asks for. -/
theorem later_step (s : System) (ev : SysEvent) {k : Nat} {x : ClientCall} (hx : s.calls[k]? = some x) :
    ∃ x', (s.step ev).calls[k]? = some x' ∧ x.Later x' := by
  have happend : ∀ {calls : List ClientCall} (new : List ClientCall) {x' : ClientCall},
      calls[k]? = some x' → (calls ++ new)[k]? = some x' := by
    intro calls new x' h
    rw [List.getElem?_append_left (List.getElem?_eq_some_iff.mp h).1]
    exact h
  have hclose : ∀ {k' : Nat} {y : ClientCall} (vote : Option Bool), s.calls[k']? = some y →
      y.done = false → ∃ x', (s.calls.modify k' fun x => { x with done := true, vote := vote })[k]? = some x' ∧
        x.Later x' := by
    intro k' y vote hy hopen
    refine ⟨_, Net.getElem?_modify_some _ hx, ?_⟩
    split
    · rename_i heq
      subst heq
      rw [hx, Option.some.injEq] at hy
      subst hy
      refine ⟨rfl, rfl, id, ?_⟩
      intro hdone
      rw [hopen] at hdone
      cases hdone
    · exact .refl x
  generalize hs' : s.step ev = s'
  cases moves_of_step hs' with
  | idle => exact ⟨x, hx, .refl x⟩
  | submit leaders t tid => exact ⟨x, happend _ hx, .refl x⟩
  | deliver k' y _ _ =>
    refine ⟨_, Net.getElem?_modify_some _ hx, ?_⟩
    split
    · exact ⟨rfl, rfl, fun _ => rfl, fun h => ⟨h, rfl⟩⟩
    · exact .refl x
  | vote k' y request reply hy hopen =>
    obtain ⟨x', hx', hlater⟩ := hclose _ hy hopen
    exact ⟨x', happend _ hx', hlater⟩
  | close k' y hy hopen =>
    obtain ⟨x', hx', hlater⟩ := hclose none hy hopen
    exact ⟨x', happend _ hx', hlater⟩
  | server ev => exact ⟨x, hx, .refl x⟩

/-- The batch entry `b` on server `i` is a call the client made to it. -/
def Parked (s : System) (i : Int) (b : BatchEntry) : Prop :=
  ∃ x, s.calls[b.call]? = some x ∧ x.dst = i ∧ x.delivered = true ∧
    (x.req.toInput b.call).entry = some b

/-- The call `p.1` with the tid `p.2` was made to server `i`, and handled there. -/
def Reached (s : System) (i : Int) (p : Nat × Int) : Prop :=
  ∃ x, s.calls[p.1]? = some x ∧ x.dst = i ∧ x.delivered = true ∧ x.req.tid = p.2

theorem Parked.step {i : Int} {b : BatchEntry} (h : s.Parked i b) (ev : SysEvent) : (s.step ev).Parked i b := by
  obtain ⟨x, hx, hdst, hdel, hreq⟩ := h
  obtain ⟨x', hx', hlater⟩ := s.later_step ev hx
  exact ⟨x', hx', hlater.dst.trans hdst, hlater.delivered hdel, hlater.req ▸ hreq⟩

theorem Reached.step {i : Int} {p : Nat × Int} (h : s.Reached i p) (ev : SysEvent) :
    (s.step ev).Reached i p := by
  obtain ⟨x, hx, hdst, hdel, hreq⟩ := h
  obtain ⟨x', hx', hlater⟩ := s.later_step ev hx
  exact ⟨x', hx', hlater.dst.trans hdst, hlater.delivered hdel, hlater.req ▸ hreq⟩

theorem Parked.reached {i : Int} {b : BatchEntry} (h : s.Parked i b) : s.Reached i b.key := by
  obtain ⟨x, hx, hdst, hdel, hreq⟩ := h
  refine ⟨x, hx, hdst, hdel, ?_⟩
  rw [(ClientReq.eq_of_entry hreq).2, ClientReq.ofEntry]
  split <;> rfl

/-- Every call on a server is one the client made to it, and is there once; and the votes the client
has counted are answers of the servers. -/
structure Tracked (s : System) : Prop where
  running : ∀ i, (s.net.servers i).Running
  parked : ∀ i, ∀ b ∈ (s.net.servers i).parked, s.Parked i b
  keys : ∀ i, ∀ p ∈ (s.net.servers i).callKeys, s.Reached i p
  once : ∀ i, ((s.net.servers i).callKeys.map Prod.fst).Nodup
  votes : ∀ k x v, s.calls[k]? = some x → x.vote = some v →
    ∃ reply ∈ (s.net.servers x.dst).replies, reply.call = k ∧ reply.ack = v

theorem Tracked.fresh (c : Constants) : (System.fresh c).Tracked where
  running := fun _ _ => rfl
  parked := fun _ _ hb => absurd hb List.not_mem_nil
  keys := fun _ _ hp => absurd hp List.not_mem_nil
  once := fun _ => List.nodup_nil
  votes := fun k x v hx => by simp [System.fresh] at hx

/-- What a step brings to a server are calls the client has made to it, and not handled before. -/
theorem takes_step (h : s.Tracked) (ev : SysEvent) (i : Int) : ∃ new,
    (s.net.servers i).Takes new ((s.step ev).net.servers i) ∧
      (∀ b ∈ new, (s.step ev).Parked i b) ∧
      (new.map BatchEntry.call).Nodup ∧
      ∀ b ∈ new, ∃ x, s.calls[b.call]? = some x ∧ x.delivered = false := by
  have hstay : (s.net.servers i).Takes [] (s.net.servers i) := .same (h.running i) _ rfl rfl rfl rfl
  have hnone : ∀ {P : BatchEntry → Prop}, ∀ b ∈ ([] : List BatchEntry), P b := fun b hb =>
    absurd hb List.not_mem_nil
  generalize hs' : s.step ev = s'
  cases moves_of_step hs' with
  | idle => exact ⟨[], hstay, hnone, List.nodup_nil, hnone⟩
  | submit leaders t tid => exact ⟨[], hstay, hnone, List.nodup_nil, hnone⟩
  | vote k x request reply => exact ⟨[], hstay, hnone, List.nodup_nil, hnone⟩
  | close k x => exact ⟨[], hstay, hnone, List.nodup_nil, hnone⟩
  | server ev hev =>
    refine ⟨[], ?_, hnone, List.nodup_nil, hnone⟩
    have htakes := Net.takes_step ev h.running i
    rwa [NetEvent.entriesAt_of_not_fromClient hev] at htakes
  | deliver k x hx hdel =>
    refine ⟨_, Net.takes_step _ h.running i, ?_, NetEvent.nodup_entriesAt _ i, ?_⟩
    · intro b hb
      obtain ⟨y, hinput, hentry⟩ := NetEvent.mem_entriesAt hb
      obtain ⟨hdst, rfl⟩ := NetEvent.input.inj hinput
      obtain ⟨rfl, -⟩ := ClientReq.eq_of_entry hentry
      exact ⟨_, Net.getElem?_modify_some _ hx, by simpa using hdst, by simp, by simpa using hentry⟩
    · intro b hb
      obtain ⟨y, hinput, hentry⟩ := NetEvent.mem_entriesAt hb
      obtain ⟨-, rfl⟩ := NetEvent.input.inj hinput
      obtain ⟨rfl, -⟩ := ClientReq.eq_of_entry hentry
      exact ⟨x, hx, hdel⟩

/-- A call the client has just started bears no vote. -/
theorem getElem?_of_append_new {calls : List ClientCall} {out : List (Int × ClientReq)} {k : Nat}
    {x : ClientCall} (h : (calls ++ out.map ClientCall.new)[k]? = some x) (hv : x.vote ≠ none) :
    calls[k]? = some x := by
  rw [List.getElem?_append] at h
  split at h
  · exact h
  · obtain ⟨p, -, rfl⟩ := List.mem_map.mp (List.mem_of_getElem? h)
    exact absurd rfl hv

/-- A vote is counted when the call it answers ends. -/
theorem vote_step (h : s.Tracked) (ev : SysEvent) {k : Nat} {x : ClientCall} {v : Bool}
    (hx : (s.step ev).calls[k]? = some x) (hv : x.vote = some v) :
    ∃ reply ∈ (s.net.servers x.dst).replies, reply.call = k ∧ reply.ack = v := by
  have hne : x.vote ≠ none := by
    rw [hv]
    simp
  generalize hs' : s.step ev = s' at hx
  cases moves_of_step hs' with
  | idle => exact h.votes k x v hx hv
  | submit leaders t tid => exact h.votes k x v (getElem?_of_append_new hx hne) hv
  | server ev => exact h.votes k x v hx hv
  | deliver k₀ y hy hdel =>
    obtain ⟨z, hz, rfl⟩ := getElem?_of_modify hx
    by_cases heq : k₀ = k
    · rw [if_pos heq] at hv ⊢
      exact h.votes k z v hz hv
    · rw [if_neg heq] at hv ⊢
      exact h.votes k z v hz hv
  | vote k₀ y request reply hy hopen hreq hmem hcall =>
    obtain ⟨z, hz, rfl⟩ := getElem?_of_modify (getElem?_of_append_new hx hne)
    by_cases heq : k₀ = k
    · subst heq
      rw [if_pos rfl] at hv ⊢
      rw [hz, Option.some.injEq] at hy
      subst hy
      refine ⟨reply, hmem, hcall, ?_⟩
      have hvote : (if reply.tid = 0 then none else some reply.ack) = some v := hv
      split at hvote
      · cases hvote
      · exact Option.some.inj hvote
    · rw [if_neg heq] at hv ⊢
      exact h.votes k z v hz hv
  | close k₀ y hy hopen =>
    obtain ⟨z, hz, rfl⟩ := getElem?_of_modify (getElem?_of_append_new hx hne)
    by_cases heq : k₀ = k
    · rw [if_pos heq] at hv
      cases hv
    · rw [if_neg heq] at hv ⊢
      exact h.votes k z v hz hv

theorem Tracked.step (h : s.Tracked) (ev : SysEvent) : (s.step ev).Tracked where
  running := by
    intro i
    obtain ⟨new, htakes, -⟩ := takes_step h ev i
    exact htakes.running
  parked := by
    intro i b hb
    obtain ⟨new, htakes, hnew, -⟩ := takes_step h ev i
    rcases htakes.parked b hb with hold | hin
    · exact (h.parked i b hold).step ev
    · exact hnew b hin
  keys := by
    intro i p hp
    obtain ⟨new, htakes, hnew, -⟩ := takes_step h ev i
    rcases List.mem_append.mp (htakes.keys.subset hp) with hold | hin
    · exact (h.keys i p hold).step ev
    · obtain ⟨b, hb, rfl⟩ := List.mem_map.mp hin
      exact (hnew b hb).reached
  once := by
    intro i
    obtain ⟨new, htakes, -, hnodup, hfresh⟩ := takes_step h ev i
    obtain ⟨keys, hperm, hsub⟩ := htakes.keys
    refine (hperm.map Prod.fst).nodup_iff.mp (List.Nodup.sublist (hsub.map Prod.fst) ?_)
    rw [List.map_append, List.map_map]
    refine List.nodup_append.mpr ⟨h.once i, hnodup, ?_⟩
    -- what is on the server was delivered, what comes was not
    rintro k hk _ hk' rfl
    obtain ⟨p, hp, rfl⟩ := List.mem_map.mp hk
    obtain ⟨b, hb, hcall⟩ := List.mem_map.mp hk'
    obtain ⟨x, hx, -, hdel, -⟩ := h.keys i p hp
    obtain ⟨y, hy, hnot⟩ := hfresh b hb
    have hcall : b.call = p.1 := hcall
    rw [hcall, hx, Option.some.injEq] at hy
    rw [← hy, hdel] at hnot
    cases hnot
  votes := by
    intro k x v hx hv
    obtain ⟨reply, hmem, hcall, hack⟩ := vote_step h ev hx hv
    obtain ⟨new, htakes, -⟩ := takes_step h ev x.dst
    exact ⟨reply, htakes.replies hmem, hcall, hack⟩

theorem tracked_reach {c : Constants} {ok : System → SysEvent → Prop}
    (hr : Reach System.step ok (System.fresh c) s) : s.Tracked :=
  hr.invariant (motive := Tracked) (.fresh c) fun _ ev _ h _ => h.step ev

/-- An answer is the answer to a call with the tid of its request. -/
theorem Tracked.reply_tid (h : s.Tracked) {i : Int} {k : Nat} {reply : TransferRes} {x : ClientCall}
    {request : TransferReq} (hmem : reply ∈ (s.net.servers i).replies) (hcall : reply.call = k)
    (hx : s.calls[k]? = some x) (hreq : x.req = .tpcPrepare request) : reply.tid = request.tid := by
  have hkey : reply.key ∈ (s.net.servers i).callKeys :=
    List.mem_append_left _ (List.mem_map.mpr ⟨reply, hmem, rfl⟩)
  obtain ⟨y, hy, -, -, htid⟩ := h.keys i _ hkey
  subst hcall
  rw [show s.calls[reply.key.1]? = some x from hx, Option.some.injEq] at hy
  rw [← hy, hreq] at htid
  exact htid.symm

/-- A call that is answered is in no batch any more. -/
theorem Tracked.not_parked (h : s.Tracked) {i : Int} {reply : TransferRes} {b : BatchEntry}
    (hmem : reply ∈ (s.net.servers i).replies) (hb : b ∈ (s.net.servers i).parked) :
    reply.call ≠ b.call := by
  have honce := h.once i
  rw [ServerImpl.callKeys, List.map_append, List.nodup_append] at honce
  exact honce.2.2 _ (List.mem_map.mpr ⟨_, List.mem_map.mpr ⟨reply, hmem, rfl⟩, rfl⟩) _
    (List.mem_map.mpr ⟨_, List.mem_map.mpr ⟨b, hb, rfl⟩, rfl⟩)

end System

end MultiPaxosDB
