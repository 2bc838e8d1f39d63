/-
# MultiPaxosDB.Coordinator — the client counts each vote once and decides each transaction once.

`processing` counts replies by tid, and the map is all the client remembers.  `System.Votes` says what it
stands for: an entry of the map counts exactly the votes of the calls that have ended, while the
transaction has no decision; an open `TpcPrepare` has an entry; a transaction has two `TpcPrepare`s at
most.  Hence the second vote finds the first one counted, the decision is made once, it is a commit only
if all votes were yes, and it goes once to every server of the two clusters.  Tids must not repeat.
-/
import MultiPaxosDB.Calls
import MultiPaxosDB.History

namespace MultiPaxosDB

open Lib

/-- The request is a `TpcPrepare` of the transaction `t`. -/
def ClientReq.prepares (t : Int) : ClientReq → Bool
  | .tpcPrepare request => request.tid == t
  | _ => false

def ClientReq.isDecision : ClientReq → Bool
  | .tpcDecision _ _ => true
  | _ => false

/-- The call has ended with the vote `v` on the transaction `t`. -/
def ClientCall.voted (t : Int) (v : Bool) (x : ClientCall) : Bool := x.req.prepares t && x.vote == some v

theorem ClientCall.voted_prepares {t : Int} {v : Bool} {x : ClientCall} (h : x.voted t v = true) :
    x.req.prepares t = true := by
  simp only [voted, Bool.and_eq_true] at h
  exact h.1

theorem ClientCall.vote_of_voted {t : Int} {v : Bool} {x : ClientCall} (h : x.voted t v = true) :
    x.vote = some v := by
  simp only [voted, Bool.and_eq_true, beq_iff_eq] at h
  exact h.2

/-! ## What the client does with a reply -/

namespace Client

/-- **The outcome of a counted reply**: a decision, once two votes are in, or an updated entry. -/
theorem consumeTpcPrepare_cases (c : Constants) (client : Client) {reply : TransferRes}
    (h : reply.tid ≠ 0) {entry : TpcPrepareRes}
    (hentry : entry = countVote (client.entryOf reply.tid) true reply.ack) :
    (∃ isCommit, (isCommit = true ↔ entry.successes = 2) ∧ 2 ≤ entry.successes + entry.failures ∧
      client.consumeTpcPrepare c true reply =
        ({ processing := client.processing.erase reply.tid },
          broadcast c reply.tid isCommit (getClusterIdFromClientId c entry.txn.sender)
            (getClusterIdFromClientId c entry.txn.receiver))) ∨
      (entry.successes ≠ 2 ∧ client.consumeTpcPrepare c true reply =
        ({ processing := client.processing.insert reply.tid entry }, [])) := by
  subst hentry
  unfold consumeTpcPrepare
  rw [if_neg h]
  dsimp only
  generalize countVote (client.entryOf reply.tid) true reply.ack = entry
  by_cases hcommit : entry.successes = 2
  · refine .inl ⟨true, by simp [hcommit], by omega, ?_⟩
    simp [hcommit, tpcCommit]
  · by_cases habort : 0 < entry.failures ∧ entry.successes + entry.failures = 2
    · refine .inl ⟨false, by simp [hcommit], by omega, ?_⟩
      simp [hcommit, habort, tpcAbort]
    · refine .inr ⟨hcommit, ?_⟩
      rw [if_neg]
      simp only [Bool.or_eq_true, beq_iff_eq, Bool.and_eq_true, decide_eq_true_eq, not_or]
      exact ⟨hcommit, habort⟩

end Client

/-! ## The invariant -/

namespace System

variable {s : System}

/-- What the client ever asked for, and of whom. -/
def requests (s : System) : List (Int × ClientReq) := s.calls.map fun x => (x.dst, x.req)

/-- The client has decided the transaction `t`. -/
def Decided (s : System) (t : Int) (isCommit : Bool) : Prop :=
  ∃ i, (i, .tpcDecision t isCommit) ∈ s.requests

/-- The servers a decision on `request` goes to. -/
def audience (c : Constants) (request : TransferReq) (isCommit : Bool) : List (Int × ClientReq) :=
  Client.broadcast c request.tid isCommit (getClusterIdFromClientId c request.txn.sender)
    (getClusterIdFromClientId c request.txn.receiver)

/-- An entry of `processing` counts the votes on an undecided transaction. -/
structure Counts (s : System) (t : Int) (entry : TpcPrepareRes) : Prop where
  successes : entry.successes = s.calls.countP (ClientCall.voted t true)
  failures : entry.failures = s.calls.countP (ClientCall.voted t false)
  undecided : ∀ isCommit, ¬ s.Decided t isCommit
  txn : { txn := entry.txn, tid := t } ∈ s.submitted

structure Votes (s : System) : Prop where
  known : ∀ p ∈ s.requests, p.2.tid ∈ s.submitted.map TransferReq.tid
  voteless : ∀ x ∈ s.calls, x.done = false → x.vote = none
  two : ∀ t, s.requests.countP (fun p => p.2.prepares t) ≤ 2
  counted : ∀ t entry, s.client.processing[t]? = some entry → s.Counts t entry
  opened : ∀ x ∈ s.calls, ∀ request, x.req = .tpcPrepare request → x.done = false →
    s.client.processing[request.tid]? ≠ none
  agreed : ∀ t b b', s.Decided t b → s.Decided t b' → b = b'
  polled : ∀ t b, s.Decided t b → ∀ x ∈ s.calls, x.req.prepares t = true →
    ∃ v, x.vote = some v ∧ (b = true → v = true)
  reaches : ∀ t b, s.Decided t b → ∃ request ∈ s.submitted, request.tid = t ∧
    ∀ i, (i, .tpcDecision t b) ∈ s.requests ↔ (i, .tpcDecision t b) ∈ audience s.net.constants request b
  once : (s.requests.filter fun p => p.2.isDecision).Nodup

theorem Votes.fresh (c : Constants) : (System.fresh c).Votes where
  known := fun p hp => absurd hp List.not_mem_nil
  voteless := fun x hx => absurd hx List.not_mem_nil
  two := fun t => Nat.zero_le 2
  counted := by simp [System.fresh]
  opened := fun x hx => absurd hx List.not_mem_nil
  agreed := fun t b b' h => absurd h.choose_spec List.not_mem_nil
  polled := fun t b _ x hx => absurd hx List.not_mem_nil
  reaches := fun t b h => absurd h.choose_spec List.not_mem_nil
  once := List.nodup_nil

/-! ### The calls of the client -/

theorem requests_append (s : System) (client : Client) (out : List (Int × ClientReq))
    (submitted : List TransferReq) :
    ({ s with client := client, calls := s.calls ++ out.map ClientCall.new, submitted := submitted } :
      System).requests = s.requests ++ out := by
  rw [requests, List.map_append, List.map_map]
  have hnew : (fun x : ClientCall => (x.dst, x.req)) ∘ ClientCall.new = id := rfl
  rw [hnew, List.map_id]
  rfl

/-- Marking a call does not change what was asked. -/
theorem requests_modify (s : System) (client : Client) (k : Nat) {f : ClientCall → ClientCall}
    (hdst : ∀ x, (f x).dst = x.dst) (hreq : ∀ x, (f x).req = x.req) :
    ({ s with client := client, calls := s.calls.modify k f } : System).requests = s.requests :=
  map_modify_of_eq (fun x => by rw [hdst x, hreq x]) s.calls k

theorem requests_close (s : System) (k : Nat) (vote : Option Bool) (out : Client × List (Int × ClientReq)) :
    (s.close k vote out).requests = s.requests ++ out.2 := by
  have hmark : (s.calls.modify k fun x => { x with done := true, vote := vote }).map
      (fun x => (x.dst, x.req)) = s.requests := by
    apply map_modify_of_eq
    intro x
    rfl
  have hnew : (fun x : ClientCall => (x.dst, x.req)) ∘ ClientCall.new = id := rfl
  unfold close
  rw [← hmark, requests, List.map_append, List.map_map, hnew, List.map_id]

theorem countP_requests (s : System) (t : Int) :
    s.requests.countP (fun p => p.2.prepares t) = s.calls.countP fun x => x.req.prepares t := by
  rw [requests, List.countP_map]
  rfl

/-- Calls that no vote was counted for. -/
theorem countP_voted_new (out : List (Int × ClientReq)) (t : Int) (v : Bool) :
    (out.map ClientCall.new).countP (ClientCall.voted t v) = 0 := by
  rw [List.countP_eq_zero]
  intro x hx
  obtain ⟨p, -, rfl⟩ := List.mem_map.mp hx
  simp [ClientCall.voted, ClientCall.new]

theorem countP_voted_append (calls : List ClientCall) (out : List (Int × ClientReq)) (t : Int) (v : Bool) :
    (calls ++ out.map ClientCall.new).countP (ClientCall.voted t v) = calls.countP (ClientCall.voted t v) := by
  rw [List.countP_append, countP_voted_new, Nat.add_zero]

theorem mem_append_new {calls : List ClientCall} {out : List (Int × ClientReq)} {x : ClientCall}
    (h : x ∈ calls ++ out.map ClientCall.new) : x ∈ calls ∨ ∃ p ∈ out, x = ClientCall.new p := by
  rcases List.mem_append.mp h with hold | hnew
  · exact .inl hold
  · obtain ⟨p, hp, rfl⟩ := List.mem_map.mp hnew
    exact .inr ⟨p, hp, rfl⟩

theorem decided_append_iff {requests out : List (Int × ClientReq)} {t : Int} {b : Bool} :
    (∃ i, (i, ClientReq.tpcDecision t b) ∈ requests ++ out) ↔
      (∃ i, (i, ClientReq.tpcDecision t b) ∈ requests) ∨ ∃ i, (i, ClientReq.tpcDecision t b) ∈ out := by
  simp only [List.mem_append, exists_or]

theorem decided_congr {s' : System} (h : s'.requests = s.requests) {t : Int} {b : Bool} :
    s'.Decided t b ↔ s.Decided t b := by
  rw [Decided, Decided, h]

/-- The client has started the calls `out`. -/
structure Starts (s : System) (out : List (Int × ClientReq)) (s' : System) : Prop where
  calls : s'.calls = s.calls ++ out.map ClientCall.new
  constants : s'.net.constants = s.net.constants
  submitted : s.submitted ⊆ s'.submitted

namespace Starts

variable {s' : System} {out : List (Int × ClientReq)} {t : Int} {b : Bool} (h : s.Starts out s')
include h

theorem requests : s'.requests = s.requests ++ out := by
  rw [← requests_append s s'.client out s'.submitted, System.requests, h.calls]
  rfl

theorem mem_calls {x : ClientCall} (hx : x ∈ s'.calls) : x ∈ s.calls ∨ ∃ p ∈ out, x = ClientCall.new p :=
  mem_append_new (h.calls ▸ hx)

theorem decided (hb : s'.Decided t b) : s.Decided t b ∨ ∃ i, (i, ClientReq.tpcDecision t b) ∈ out := by
  rw [Decided, h.requests] at hb
  exact decided_append_iff.mp hb

theorem voteless (hs : s.Votes) : ∀ x ∈ s'.calls, x.done = false → x.vote = none := by
  intro x hx hdone
  rcases h.mem_calls hx with hold | ⟨p, -, rfl⟩
  · exact hs.voteless x hold hdone
  · rfl

/-- They have no votes to be counted. -/
theorem counts {entry : TpcPrepareRes} (hs : s.Counts t entry) (hnot : ∀ i b, (i, ClientReq.tpcDecision t b) ∉ out) :
    s'.Counts t entry where
  successes := by
    rw [h.calls, countP_voted_append]
    exact hs.successes
  failures := by
    rw [h.calls, countP_voted_append]
    exact hs.failures
  undecided := by
    intro b hb
    rcases h.decided hb with hold | ⟨i, hi⟩
    · exact hs.undecided b hold
    · exact hnot i b hi
  txn := h.submitted hs.txn

/-- A decision of which there is none among them went where it went before. -/
theorem reaches (hs : s.Votes) (hb : s.Decided t b) (hnot : ∀ i, (i, ClientReq.tpcDecision t b) ∉ out) :
    ∃ request ∈ s'.submitted, request.tid = t ∧ ∀ i, (i, .tpcDecision t b) ∈ s'.requests ↔
      (i, .tpcDecision t b) ∈ audience s'.net.constants request b := by
  obtain ⟨r, hr, hrt, haud⟩ := hs.reaches t b hb
  refine ⟨r, h.submitted hr, hrt, ?_⟩
  intro i
  rw [h.requests, h.constants, List.mem_append, ← haud i]
  refine ⟨?_, .inl⟩
  rintro (hi | hi)
  · exact hi
  · exact absurd hi (hnot i)

end Starts

/-! ### Marks that count no vote -/

/-- A mark on an open call that leaves its vote alone. -/
theorem Votes.mark (h : s.Votes) {k : Nat} {x : ClientCall} (hx : s.calls[k]? = some x)
    {f : ClientCall → ClientCall} (hdst : ∀ x, (f x).dst = x.dst) (hreq : ∀ x, (f x).req = x.req)
    (hvote : (f x).vote = x.vote) (hdone : (f x).done = false → x.done = false) (net : Net)
    (hnet : net.constants = s.net.constants) :
    ({ s with net := net, calls := s.calls.modify k f } : System).Votes := by
  have hreqs : ({ s with net := net, calls := s.calls.modify k f } : System).requests = s.requests :=
    requests_modify s s.client k hdst hreq
  have hdecided : ∀ t b, ({ s with net := net, calls := s.calls.modify k f } : System).Decided t b →
      s.Decided t b := fun t b hb => (decided_congr hreqs).mp hb
  have hcount : ∀ t v, (s.calls.modify k f).countP (ClientCall.voted t v) =
      s.calls.countP (ClientCall.voted t v) := by
    intro t v
    have heq : (f x).voted t v = x.voted t v := by simp only [ClientCall.voted, hreq, hvote]
    have hmoved := countP_modify (ClientCall.voted t v) f hx
    rw [heq] at hmoved
    omega
  have hmem : ∀ y ∈ s.calls.modify k f, ∃ z ∈ s.calls, y.req = z.req ∧ y.vote = z.vote ∧
      (y.done = false → z.done = false) := by
    intro y hy
    rcases mem_modify hy with hold | ⟨z, hz, rfl⟩
    · exact ⟨y, hold, rfl, rfl, id⟩
    · rw [hx, Option.some.injEq] at hz
      subst hz
      exact ⟨x, List.mem_of_getElem? hx, hreq x, hvote, hdone⟩
  refine ⟨?_, ?_, ?_, ?_, ?_, ?_, ?_, ?_, ?_⟩
  · rw [hreqs]
    exact h.known
  · intro y hy hopen
    obtain ⟨z, hz, -, hv, hd⟩ := hmem y hy
    rw [hv]
    exact h.voteless z hz (hd hopen)
  · rw [hreqs]
    exact h.two
  · intro t entry hentry
    have hold := h.counted t entry hentry
    exact ⟨by rw [hcount]; exact hold.successes, by rw [hcount]; exact hold.failures,
      fun b hb => hold.undecided b (hdecided t b hb), hold.txn⟩
  · intro y hy request hrequest hopen
    obtain ⟨z, hz, hr, -, hd⟩ := hmem y hy
    exact h.opened z hz request (hr ▸ hrequest) (hd hopen)
  · intro t b b' hb hb'
    exact h.agreed t b b' (hdecided t b hb) (hdecided t b' hb')
  · intro t b hb y hy hprep
    obtain ⟨z, hz, hr, hv, -⟩ := hmem y hy
    rw [hv]
    exact h.polled t b (hdecided t b hb) z hz (hr ▸ hprep)
  · intro t b hb
    rw [hreqs]
    show ∃ request ∈ s.submitted, request.tid = t ∧ ∀ i, (i, .tpcDecision t b) ∈ s.requests ↔
      (i, .tpcDecision t b) ∈ audience net.constants request b
    rw [hnet]
    exact h.reaches t b (hdecided t b hb)
  · rw [hreqs]
    exact h.once

/-! ### A new transaction -/

theorem tid_of_prepares {req : ClientReq} {t : Int} (h : req.prepares t = true) : req.tid = t := by
  cases req with
  | tpcPrepare request =>
    show request.tid = t
    simpa [ClientReq.prepares] using h
  | _ => cases h

section Ask

variable {s' : System} {request : TransferReq} {out : List (Int × ClientReq)} (h : s.Votes)
  (hnew : request.tid ∉ s.submitted.map TransferReq.tid)
include h hnew

/-- Nothing was asked under a tid that is new. -/
theorem Votes.tid_ne_new {p : Int × ClientReq} (hp : p ∈ s.requests) : p.2.tid ≠ request.tid :=
  fun heq => hnew (heq ▸ h.known p hp)

theorem Votes.call_tid_ne_new {x : ClientCall} (hx : x ∈ s.calls) : x.req.tid ≠ request.tid :=
  h.tid_ne_new hnew (p := (x.dst, x.req)) (List.mem_map.mpr ⟨x, hx, rfl⟩)

/-- So no transaction has more than two prepares. -/
theorem Votes.two_asked (htid : ∀ p ∈ out, p.2.tid = request.tid) (htwo : out.length ≤ 2) (t : Int) :
    (s.requests ++ out).countP (fun p => p.2.prepares t) ≤ 2 := by
  rw [List.countP_append]
  by_cases ht : t = request.tid
  · have hnone : s.requests.countP (fun p => p.2.prepares t) = 0 := by
      rw [List.countP_eq_zero]
      intro p hp hprep
      exact h.tid_ne_new hnew hp ((tid_of_prepares hprep).trans ht)
    have hle : out.countP (fun p => p.2.prepares t) ≤ out.length := List.countP_le_length
    omega
  · have hnone : out.countP (fun p => p.2.prepares t) = 0 := by
      rw [List.countP_eq_zero]
      intro p hp hprep
      exact ht ((tid_of_prepares hprep).symm.trans (htid p hp))
    have hle := h.two t
    omega

/-- The entry of the new transaction starts with no votes. -/
theorem Votes.counts_asked (hout : s.Starts out s') (hnot : ∀ p ∈ out, p.2.isDecision = false)
    (hmem : request ∈ s'.submitted) :
    s'.Counts request.tid { txn := request.txn, successes := 0, failures := 0 } := by
  have hzero : ∀ v, s.calls.countP (ClientCall.voted request.tid v) = 0 := by
    intro v
    rw [List.countP_eq_zero]
    intro x hx hv
    exact h.call_tid_ne_new hnew hx (tid_of_prepares (ClientCall.voted_prepares hv))
  refine ⟨?_, ?_, ?_, hmem⟩
  · rw [hout.calls, countP_voted_append, hzero]
  · rw [hout.calls, countP_voted_append, hzero]
  · intro b hb
    rcases hout.decided hb with ⟨i, hi⟩ | ⟨i, hi⟩
    · exact h.tid_ne_new hnew hi rfl
    · cases hnot _ hi

/-- The client starts `out` for a transaction whose tid is new. -/
theorem Votes.ask (hout : s.Starts out s') (hsub : s'.submitted = s.submitted ++ [request])
    (htid : ∀ p ∈ out, p.2.tid = request.tid) (hnot : ∀ p ∈ out, p.2.isDecision = false) (htwo : out.length ≤ 2)
    (hother : ∀ t, t ≠ request.tid → s'.client.processing[t]? = s.client.processing[t]?)
    (hself : ∀ entry, s'.client.processing[request.tid]? = some entry →
      entry = { txn := request.txn, successes := 0, failures := 0 })
    (hopen : ∀ p ∈ out, p.2.prepares request.tid = true → s'.client.processing[request.tid]? ≠ none) : s'.Votes := by
  have hmem : request ∈ s'.submitted := by
    rw [hsub]
    exact List.mem_append_right _ (List.mem_singleton_self _)
  have hnone : ∀ {t} i b, (i, ClientReq.tpcDecision t b) ∉ out := fun i b hi => nomatch hnot _ hi
  have hdecided : ∀ t b, s'.Decided t b → s.Decided t b := by
    intro t b hb
    rcases hout.decided hb with hb | ⟨i, hi⟩
    · exact hb
    · exact absurd hi (hnone i b)
  refine ⟨?_, hout.voteless h, ?_, ?_, ?_, ?_, ?_, ?_, ?_⟩
  · rw [hout.requests]
    intro p hp
    rcases List.mem_append.mp hp with hp | hp
    · exact List.map_subset _ hout.submitted (h.known p hp)
    · rw [htid p hp]
      exact List.mem_map_of_mem hmem
  · rw [hout.requests]
    exact h.two_asked hnew htid htwo
  · intro t entry hentry
    by_cases ht : t = request.tid
    · subst ht
      obtain rfl := hself entry hentry
      exact h.counts_asked hnew hout hnot hmem
    · rw [hother t ht] at hentry
      exact hout.counts (h.counted t entry hentry) hnone
  · intro x hx r hr hdone
    rcases hout.mem_calls hx with hx | ⟨p, hp, rfl⟩
    · have hne : r.tid ≠ request.tid := by
        have hold := h.call_tid_ne_new hnew hx
        rwa [hr] at hold
      rw [hother _ hne]
      exact h.opened x hx r hr hdone
    · have hr : p.2 = .tpcPrepare r := hr
      have hrt : r.tid = request.tid := by
        have := htid p hp
        rwa [hr] at this
      rw [hrt]
      apply hopen p hp
      rw [hr, ← hrt]
      simp [ClientReq.prepares]
  · intro t b b' hb hb'
    exact h.agreed t b b' (hdecided t b hb) (hdecided t b' hb')
  · intro t b hb x hx hprep
    rcases hout.mem_calls hx with hx | ⟨p, hp, rfl⟩
    · exact h.polled t b (hdecided t b hb) x hx hprep
    · obtain ⟨i, hi⟩ := hdecided t b hb
      exact absurd ((tid_of_prepares hprep).symm.trans (htid p hp)) (h.tid_ne_new hnew hi)
  · intro t b hb
    exact hout.reaches h (hdecided t b hb) fun i => hnone i b
  · have hempty : out.filter (fun p => p.2.isDecision) = [] := by
      rw [List.filter_eq_nil_iff]
      intro p hp
      rw [hnot p hp]
      simp
    rw [hout.requests, List.filter_append, hempty, List.append_nil]
    exact h.once

end Ask

theorem Votes.submit (h : s.Votes) (leaders : List Int) (t : Transaction) {tid : Int}
    (hnew : tid ∉ s.submitted.map TransferReq.tid) : (s.step (.submit leaders t tid)).Votes := by
  have hnone : s.client.processing[tid]? = none := by
    by_contra hsome
    obtain ⟨entry, hentry⟩ := Option.ne_none_iff_exists'.mp hsome
    exact hnew (List.mem_map.mpr ⟨_, (h.counted tid entry hentry).txn, rfl⟩)
  show ({ s with
    client := (s.client.processTransaction s.net.constants leaders t tid).1
    calls := s.calls ++ (s.client.processTransaction s.net.constants leaders t tid).2.map ClientCall.new
    submitted := s.submitted ++ [{ txn := t, tid := tid }] } : System).Votes
  have hstarts : ∀ client out, s.Starts out { s with
      client := client
      calls := s.calls ++ out.map ClientCall.new
      submitted := s.submitted ++ [{ txn := t, tid := tid }] } :=
    fun client out => ⟨rfl, rfl, List.subset_append_left _ _⟩
  unfold Client.processTransaction
  dsimp only
  split
  · refine h.ask hnew (hstarts _ _) rfl ?_ ?_ (by simp) (fun _ _ => rfl) ?_ ?_
    · intro p hp
      rw [List.mem_singleton.mp hp]
      rfl
    · intro p hp
      rw [List.mem_singleton.mp hp]
      rfl
    · intro entry hentry
      rw [hnone] at hentry
      cases hentry
    · intro p hp hprep
      rw [List.mem_singleton.mp hp] at hprep
      cases hprep
  · refine h.ask hnew (hstarts _ _) rfl ?_ ?_ (by simp) ?_ ?_ ?_
    · intro p hp
      rcases List.mem_pair.mp hp with rfl | rfl <;> rfl
    · intro p hp
      rcases List.mem_pair.mp hp with rfl | rfl <;> rfl
    · intro t' ht'
      rw [WAL.getElem?_insert_tid, if_neg ht']
    · intro entry hentry
      rw [WAL.getElem?_insert_tid, if_pos rfl, Option.some.injEq] at hentry
      exact hentry.symm
    · intro p _ _
      rw [WAL.getElem?_insert_tid, if_pos rfl]
      simp

/-! ### A counted vote -/

/-- The calls once the vote `v` of call `k` is counted. -/
def counting (s : System) (k : Nat) (v : Bool) : List ClientCall :=
  s.calls.modify k fun x => { x with done := true, vote := some v }

/-- A call is voted on one way or the other. -/
theorem countP_voted_add (calls : List ClientCall) (t : Int) :
    calls.countP (ClientCall.voted t true) + calls.countP (ClientCall.voted t false) =
      calls.countP fun x => x.req.prepares t && x.vote.isSome := by
  induction calls with
  | nil => rfl
  | cons x calls ih =>
    rw [List.countP_cons, List.countP_cons, List.countP_cons, ← ih]
    cases hp : x.req.prepares t with
    | false =>
      simp [ClientCall.voted, hp]
    | true =>
      rcases hv : x.vote with _ | _ | _
      all_goals simp [ClientCall.voted, hp, hv]
      all_goals omega

section Poll

variable {k : Nat} {x : ClientCall} {request : TransferReq} {entry : TpcPrepareRes} {v : Bool}

theorem Votes.countP_counting (h : s.Votes) (hx : s.calls[k]? = some x) (hopen : x.done = false)
    (hreq : x.req = .tpcPrepare request) (t : Int) (v' : Bool) :
    (s.counting k v).countP (ClientCall.voted t v') =
      s.calls.countP (ClientCall.voted t v') + if request.tid = t ∧ v = v' then 1 else 0 := by
  have hmoved := countP_modify (ClientCall.voted t v')
    (fun x : ClientCall => { x with done := true, vote := some v }) hx
  have hbefore : x.voted t v' = false := by
    simp [ClientCall.voted, h.voteless x (List.mem_of_getElem? hx) hopen]
  have hafter : ({ x with done := true, vote := some v } : ClientCall).voted t v' = true ↔
      request.tid = t ∧ v = v' := by
    simp [ClientCall.voted, ClientReq.prepares, hreq]
  rw [hbefore] at hmoved
  simp only [hafter] at hmoved
  exact hmoved

/-- The updated entry counts the votes so far. -/
theorem Votes.countVote (h : s.Votes) (hx : s.calls[k]? = some x) (hopen : x.done = false)
    (hreq : x.req = .tpcPrepare request) (hentry : s.client.processing[request.tid]? = some entry) :
    (Client.countVote entry true v).successes = (s.counting k v).countP (ClientCall.voted request.tid true) ∧
      (Client.countVote entry true v).failures =
        (s.counting k v).countP (ClientCall.voted request.tid false) := by
  have hc := h.counted _ entry hentry
  rw [h.countP_counting hx hopen hreq, h.countP_counting hx hopen hreq, ← hc.successes, ← hc.failures]
  cases v with
  | true => simp [Client.countVote]
  | false => simp [Client.countVote]

theorem txn_countVote (entry : TpcPrepareRes) (ok ack : Bool) :
    (Client.countVote entry ok ack).txn = entry.txn := by
  unfold Client.countVote
  split <;> rfl

/-- A transaction with two votes has no call left to vote, and one with two yes votes no other vote. -/
theorem Votes.polled_counting (h : s.Votes) (hx : s.calls[k]? = some x) (hopen : x.done = false)
    (hreq : x.req = .tpcPrepare request) (hentry : s.client.processing[request.tid]? = some entry)
    (htwo : 2 ≤ (Client.countVote entry true v).successes + (Client.countVote entry true v).failures)
    {isCommit : Bool} (hcommit : isCommit = true → (Client.countVote entry true v).successes = 2) :
    ∀ y ∈ s.counting k v, y.req.prepares request.tid = true →
      ∃ v', y.vote = some v' ∧ (isCommit = true → v' = true) := by
  have hle : (s.counting k v).countP (fun y => y.req.prepares request.tid) ≤ 2 := by
    have hmoved := countP_modify (fun y : ClientCall => y.req.prepares request.tid)
      (fun x : ClientCall => { x with done := true, vote := some v }) hx
    have hbound := h.two request.tid
    rw [countP_requests] at hbound
    dsimp only at hmoved
    unfold counting
    omega
  obtain ⟨hsucc, hfail⟩ := h.countVote (v := v) hx hopen hreq hentry
  intro y hy hprep
  by_cases hc : isCommit = true
  · have hall := forall_of_countP_le (p := fun y => y.req.prepares request.tid)
      (q := ClientCall.voted request.tid true) (fun _ => ClientCall.voted_prepares)
      (l := s.counting k v) (by rw [← hsucc, hcommit hc]; exact hle) y hy hprep
    exact ⟨true, ClientCall.vote_of_voted hall, fun _ => rfl⟩
  · have hall := forall_of_countP_le (p := fun y => y.req.prepares request.tid)
      (q := fun y => y.req.prepares request.tid && y.vote.isSome)
      (fun y hq => (Bool.and_eq_true_iff.mp hq).1) (l := s.counting k v)
      (by rw [← countP_voted_add, ← hsucc, ← hfail]; omega) y hy hprep
    obtain ⟨v', hv'⟩ := Option.isSome_iff_exists.mp (Bool.and_eq_true_iff.mp hall).2
    exact ⟨v', hv', fun hc' => absurd hc' hc⟩

theorem mem_counting {y : ClientCall} (hx : s.calls[k]? = some x) (hy : y ∈ s.counting k v) :
    y ∈ s.calls ∨ y = { x with done := true, vote := some v } := by
  rcases mem_modify hy with hold | ⟨z, hz, rfl⟩
  · exact .inl hold
  · rw [hx, Option.some.injEq] at hz
    subst hz
    exact .inr rfl

/-- The first of two votes, or a vote on a transaction that never gets its second. -/
theorem Votes.poll (h : s.Votes) (hx : s.calls[k]? = some x) (hopen : x.done = false)
    (hreq : x.req = .tpcPrepare request) (hentry : s.client.processing[request.tid]? = some entry) :
    ({ s with
      client := { processing := s.client.processing.insert request.tid (Client.countVote entry true v) }
      calls := s.counting k v } : System).Votes := by
  have hreqs : ({ s with
      client := { processing := s.client.processing.insert request.tid (Client.countVote entry true v) }
      calls := s.counting k v } : System).requests = s.requests :=
    requests_modify s _ k (fun _ => rfl) (fun _ => rfl)
  have hc := h.counted _ entry hentry
  refine ⟨?_, ?_, ?_, ?_, ?_, ?_, ?_, ?_, ?_⟩
  · rw [hreqs]
    exact h.known
  · intro y hy hdone
    rcases mem_counting hx hy with hold | rfl
    · exact h.voteless y hold hdone
    · cases hdone
  · rw [hreqs]
    exact h.two
  · intro t entry' hentry'
    rw [WAL.getElem?_insert_tid] at hentry'
    by_cases ht : t = request.tid
    · rw [if_pos ht, Option.some.injEq] at hentry'
      subst hentry'
      subst ht
      obtain ⟨hsucc, hfail⟩ := h.countVote (v := v) hx hopen hreq hentry
      refine ⟨hsucc, hfail, ?_, ?_⟩
      · intro b hb
        rw [decided_congr hreqs] at hb
        exact hc.undecided b hb
      · rw [txn_countVote]
        exact hc.txn
    · rw [if_neg ht] at hentry'
      have hold := h.counted t entry' hentry'
      have hskip : ∀ v', ¬ (request.tid = t ∧ v = v') := fun v' heq => ht heq.1.symm
      refine ⟨?_, ?_, ?_, hold.txn⟩
      · rw [h.countP_counting hx hopen hreq, if_neg (hskip true)]
        exact hold.successes
      · rw [h.countP_counting hx hopen hreq, if_neg (hskip false)]
        exact hold.failures
      · intro b hb
        rw [decided_congr hreqs] at hb
        exact hold.undecided b hb
  · intro y hy r hr hdone
    show (s.client.processing.insert request.tid (Client.countVote entry true v))[r.tid]? ≠ none
    rw [WAL.getElem?_insert_tid]
    split
    · simp
    · rcases mem_counting hx hy with hold | rfl
      · exact h.opened y hold r hr hdone
      · cases hdone
  · intro t b b' hb hb'
    rw [decided_congr hreqs] at hb hb'
    exact h.agreed t b b' hb hb'
  · intro t b hb y hy hprep
    rw [decided_congr hreqs] at hb
    rcases mem_counting hx hy with hold | rfl
    · exact h.polled t b hb y hold hprep
    · -- the call that has just voted is on an undecided transaction
      have ht : request.tid = t := by simpa [hreq, ClientReq.prepares] using hprep
      exact absurd hb (ht ▸ hc.undecided b)
  · intro t b hb
    rw [decided_congr hreqs] at hb
    rw [hreqs]
    exact h.reaches t b hb
  · rw [hreqs]
    exact h.once

theorem mem_broadcast {c : Constants} {t k₁ k₂ : Int} {b : Bool} {p : Int × ClientReq} :
    p ∈ Client.broadcast c t b k₁ k₂ ↔ p.1 ∈ serverIds c ∧
      (getClusterIdFromServerId c p.1 = k₁ ∨ getClusterIdFromServerId c p.1 = k₂) ∧
      p.2 = .tpcDecision t b := by
  simp only [Client.broadcast, List.mem_map, List.mem_filter, Bool.or_eq_true, beq_iff_eq]
  constructor
  · rintro ⟨i, ⟨hi, hk⟩, rfl⟩
    exact ⟨hi, hk, rfl⟩
  · rintro ⟨hi, hk, hreq⟩
    exact ⟨p.1, ⟨hi, hk⟩, by rw [← hreq]⟩

section Announce

variable {s' : System} {t : Int} {isCommit : Bool} {out : List (Int × ClientReq)} (h : s.Votes)
  (hentry : s.client.processing[t]? = some entry) (hout : s.Starts out s')
  (haud : out = audience s.net.constants { txn := entry.txn, tid := t } isCommit)

include haud in
/-- What is sent out is the decision. -/
theorem decision_of_mem {p : Int × ClientReq} (hp : p ∈ out) : p.2 = .tpcDecision t isCommit :=
  (mem_broadcast.mp (haud ▸ hp)).2.2

include hout haud in
theorem decided_announced {t' : Int} {b : Bool} (hb : s'.Decided t' b) :
    s.Decided t' b ∨ (t' = t ∧ b = isCommit) := by
  rcases hout.decided hb with hold | ⟨i, hi⟩
  · exact .inl hold
  · obtain ⟨rfl, rfl⟩ := ClientReq.tpcDecision.inj (decision_of_mem haud hi)
    exact .inr ⟨rfl, rfl⟩

include hout haud in
/-- No call that is started here prepares anything. -/
theorem prepares_announced {y : ClientCall} {t' : Int} (hy : y ∈ s'.calls) (hprep : y.req.prepares t' = true) :
    y ∈ s.calls := by
  rcases hout.mem_calls hy with hold | ⟨p, hp, rfl⟩
  · exact hold
  · rw [show (ClientCall.new p).req = p.2 from rfl, decision_of_mem haud hp] at hprep
    cases hprep

include h hentry hout haud

theorem Votes.agreed_announced {t' : Int} {b b' : Bool} (hb : s'.Decided t' b) (hb' : s'.Decided t' b') : b = b' := by
  have hc := h.counted t entry hentry
  rcases decided_announced hout haud hb with hold | ⟨rfl, rfl⟩
  · rcases decided_announced hout haud hb' with hold' | ⟨rfl, rfl⟩
    · exact h.agreed t' b b' hold hold'
    · exact absurd hold (hc.undecided b)
  · rcases decided_announced hout haud hb' with hold' | ⟨-, rfl⟩
    · exact absurd hold' (hc.undecided b')
    · rfl

/-- The decision goes to its audience, and to nobody else. -/
theorem Votes.reaches_announced {t' : Int} {b : Bool} (hb : s'.Decided t' b) :
    ∃ request ∈ s'.submitted, request.tid = t' ∧ ∀ i, (i, .tpcDecision t' b) ∈ s'.requests ↔
      (i, .tpcDecision t' b) ∈ audience s'.net.constants request b := by
  have hc := h.counted t entry hentry
  rcases decided_announced hout haud hb with hold | ⟨rfl, rfl⟩
  · refine hout.reaches h hold fun i hi => ?_
    obtain ⟨rfl, -⟩ := ClientReq.tpcDecision.inj (decision_of_mem haud hi)
    exact hc.undecided b hold
  · refine ⟨_, hout.submitted hc.txn, rfl, ?_⟩
    intro i
    rw [hout.requests, hout.constants, List.mem_append, ← haud]
    refine ⟨?_, .inr⟩
    rintro (hi | hi)
    · exact absurd ⟨i, hi⟩ (hc.undecided b)
    · exact hi

theorem Votes.once_announced : (s'.requests.filter fun p => p.2.isDecision).Nodup := by
  rw [hout.requests, List.filter_append]
  refine List.nodup_append.mpr ⟨h.once, ?_, ?_⟩
  · rw [haud]
    refine List.Nodup.filter _ (((nodup_serverIds _).filter _).map ?_)
    intro a b hab
    exact (Prod.mk.inj hab).1
  · rintro p hp _ hp' rfl
    obtain ⟨hp, -⟩ := List.mem_filter.mp hp
    obtain ⟨hp', -⟩ := List.mem_filter.mp hp'
    apply (h.counted t entry hentry).undecided isCommit
    exact ⟨p.1, by rw [← decision_of_mem haud hp']; exact hp⟩

/-- A transaction whose calls have all voted is decided: its entry goes, and the decision is sent out. -/
theorem Votes.announce (hproc : s'.client.processing = s.client.processing.erase t)
    (hpolled : ∀ y ∈ s.calls, y.req.prepares t = true → ∃ v', y.vote = some v' ∧ (isCommit = true → v' = true)) :
    s'.Votes := by
  have hc := h.counted t entry hentry
  refine ⟨?_, hout.voteless h, ?_, ?_, ?_, fun t' b b' hb hb' => h.agreed_announced hentry hout haud hb hb', ?_,
    fun t' b hb => h.reaches_announced hentry hout haud hb, h.once_announced hentry hout haud⟩
  · rw [hout.requests]
    intro p hp
    rcases List.mem_append.mp hp with hp | hp
    · exact List.map_subset _ hout.submitted (h.known p hp)
    · rw [decision_of_mem haud hp]
      exact List.mem_map.mpr ⟨_, hout.submitted hc.txn, rfl⟩
  · intro t'
    have hzero : out.countP (fun p => p.2.prepares t') = 0 := by
      rw [List.countP_eq_zero]
      intro p hp hprep
      rw [decision_of_mem haud hp] at hprep
      cases hprep
    rw [hout.requests, List.countP_append, hzero]
    exact h.two t'
  · intro t' entry' hentry'
    rw [hproc, WAL.getElem?_erase_tid] at hentry'
    split at hentry'
    · cases hentry'
    · rename_i ht
      refine hout.counts (h.counted t' entry' hentry') fun i b hi => ht ?_
      exact (ClientReq.tpcDecision.inj (decision_of_mem haud hi)).1
  · intro y hy r hr hdone
    have hprep : y.req.prepares r.tid = true := by simp [hr, ClientReq.prepares]
    have hold := prepares_announced hout haud hy hprep
    rw [hproc, WAL.getElem?_erase_tid]
    by_cases hrt : r.tid = t
    · -- a call on this transaction has voted, so it is not open
      obtain ⟨v', hv', -⟩ := hpolled y hold (hrt ▸ hprep)
      rw [h.voteless y hold hdone] at hv'
      cases hv'
    · rw [if_neg hrt]
      exact h.opened y hold r hr hdone
  · intro t' b hb y hy hprep
    have hold := prepares_announced hout haud hy hprep
    rcases decided_announced hout haud hb with hdecided | ⟨rfl, rfl⟩
    · exact h.polled t' b hdecided y hold hprep
    · exact hpolled y hold hprep

end Announce

/-- The last vote is counted as any other, and the transaction is decided. -/
theorem Votes.decide (h : s.Votes) (hx : s.calls[k]? = some x) (hopen : x.done = false)
    (hreq : x.req = .tpcPrepare request) (hentry : s.client.processing[request.tid]? = some entry)
    (htwo : 2 ≤ (Client.countVote entry true v).successes + (Client.countVote entry true v).failures)
    {isCommit : Bool} (hcommit : isCommit = true → (Client.countVote entry true v).successes = 2)
    {out : List (Int × ClientReq)}
    (hout : out = audience s.net.constants { txn := entry.txn, tid := request.tid } isCommit) :
    ({ s with
      client := { processing := s.client.processing.erase request.tid }
      calls := s.counting k v ++ out.map ClientCall.new } : System).Votes := by
  rw [← txn_countVote entry true v] at hout
  exact (h.poll (v := v) hx hopen hreq hentry).announce (by rw [WAL.getElem?_insert_tid, if_pos rfl])
    ⟨rfl, rfl, List.Subset.refl _⟩ hout (WAL.erase_insert_tid _ _ _).symm
    (h.polled_counting hx hopen hreq hentry htwo hcommit)

end Poll

/-! ### All steps -/

/-- A transaction is handed in under a tid that was not used before. -/
def freshTid (s : System) : SysEvent → Prop
  | .submit _ _ tid => tid ∉ s.submitted.map TransferReq.tid
  | _ => True

instance (s : System) (ev : SysEvent) : Decidable (s.freshTid ev) := by
  unfold freshTid
  split <;> infer_instance

/-- A reply that counts finds the entry of its transaction. -/
theorem Votes.entryOf (h : s.Votes) {k : Nat} {x : ClientCall} {request : TransferReq}
    (hx : s.calls[k]? = some x) (hopen : x.done = false) (hreq : x.req = .tpcPrepare request) :
    s.client.processing[request.tid]? = some (s.client.entryOf request.tid) := by
  obtain ⟨entry, hentry⟩ := Option.ne_none_iff_exists'.mp
    (h.opened x (List.mem_of_getElem? hx) request hreq hopen)
  rw [Client.entryOf, hentry]
  rfl

theorem Votes.vote (h : s.Votes) {k : Nat} {x : ClientCall} {request : TransferReq} {reply : TransferRes}
    (hx : s.calls[k]? = some x) (hopen : x.done = false) (hreq : x.req = .tpcPrepare request)
    (htid : reply.tid = request.tid) (hzero : reply.tid ≠ 0) :
    (s.close k (some reply.ack) (s.client.consumeTpcPrepare s.net.constants true reply)).Votes := by
  have hentry := h.entryOf hx hopen hreq
  rcases Client.consumeTpcPrepare_cases s.net.constants s.client hzero rfl with
    ⟨isCommit, hcommit, htwo, hout⟩ | ⟨-, hout⟩
  · rw [htid] at hcommit htwo hout
    rw [hout]
    refine h.decide hx hopen hreq hentry htwo (fun hc => hcommit.mp hc) ?_
    rw [txn_countVote]
    rfl
  · rw [htid] at hout
    rw [hout]
    have hpoll := h.poll (v := reply.ack) hx hopen hreq hentry
    unfold close
    rw [List.map_nil, List.append_nil]
    exact hpoll

theorem Votes.step (h : s.Votes) (ht : s.Tracked) {ev : SysEvent} (hev : s.freshTid ev) :
    (s.step ev).Votes := by
  have hclose : ∀ {k x}, s.calls[k]? = some x → x.done = false → (s.close k none (s.client, [])).Votes := by
    intro k x hx hopen
    have hvote : none = x.vote := (h.voteless x (List.mem_of_getElem? hx) hopen).symm
    unfold close
    rw [List.map_nil, List.append_nil]
    exact h.mark (f := fun x => { x with done := true, vote := none }) hx (fun _ => rfl) (fun _ => rfl)
      hvote (fun _ => hopen) s.net rfl
  generalize hs' : s.step ev = s'
  cases moves_of_step hs' with
  | idle => exact h
  | submit leaders t tid => exact h.submit leaders t hev
  | deliver k x hx hdel =>
    exact h.mark (f := fun x => { x with delivered := true }) hx (fun _ => rfl) (fun _ => rfl) rfl
      id _ (Net.constants_step _ _)
  | vote k x request reply hx hopen hreq hmem hcall =>
    have htid : reply.tid = request.tid := ht.reply_tid hmem hcall hx hreq
    by_cases hzero : reply.tid = 0
    · -- the client cannot tell which transaction this is about
      rw [if_pos hzero, Client.consumeTpcPrepare_unnamed s.net.constants s.client hzero]
      exact hclose hx hopen
    · rw [if_neg hzero]
      exact h.vote hx hopen hreq htid hzero
  | close k x hx hopen => exact hclose hx hopen
  | server ev hev =>
    refine ⟨h.known, h.voteless, h.two, ?_, h.opened, h.agreed, h.polled, ?_, h.once⟩
    · intro t entry hentry
      have hold := h.counted t entry hentry
      exact ⟨hold.successes, hold.failures, hold.undecided, hold.txn⟩
    · intro t b hb
      show ∃ request ∈ s.submitted, request.tid = t ∧ ∀ i, (i, .tpcDecision t b) ∈ s.requests ↔
        (i, .tpcDecision t b) ∈ audience (s.net.step ev).constants request b
      rw [Net.constants_step]
      exact h.reaches t b hb

theorem votes_reach {c : Constants} {ok : System → SysEvent → Prop}
    (hok : ∀ s ev, ok s ev → s.freshTid ev) (hr : Reach System.step ok (System.fresh c) s) : s.Votes := by
  refine hr.invariant (motive := Votes) (.fresh c) ?_
  intro s ev hr h hev
  exact h.step (tracked_reach hr) (hok s ev hev)

/-- What was asked stays asked. -/
theorem mem_requests_step {ev : SysEvent} {p : Int × ClientReq} (h : p ∈ s.requests) :
    p ∈ (s.step ev).requests := by
  obtain ⟨x, hx, rfl⟩ := List.mem_map.mp h
  obtain ⟨k, hk⟩ := List.mem_iff_getElem?.mp hx
  obtain ⟨x', hk', hlater⟩ := s.later_step ev hk
  exact List.mem_map.mpr ⟨x', List.mem_of_getElem? hk', by rw [hlater.dst, hlater.req]⟩

theorem Decided.step {t : Int} {b : Bool} (h : s.Decided t b) (ev : SysEvent) : (s.step ev).Decided t b := by
  obtain ⟨i, hi⟩ := h
  exact ⟨i, mem_requests_step hi⟩

/-- **When a decision is made**: the last vote of its transaction comes in, and for a commit it is the
second yes. -/
theorem decided_step (h : s.Votes) (ht : s.Tracked) {ev : SysEvent} {t : Int} {b : Bool}
    (hd : (s.step ev).Decided t b) :
    s.Decided t b ∨ ∃ k x request reply, ev = .complete k ∧ s.calls[k]? = some x ∧ x.done = false ∧
      x.req = .tpcPrepare request ∧ request.tid = t ∧ reply ∈ (s.net.servers x.dst).replies ∧
      reply.call = k ∧ reply.tid ≠ 0 ∧
      (b = true → reply.ack = true ∧ (s.client.entryOf t).successes = 1) := by
  have hmark : ∀ {k : Nat} {vote : Option Bool}, (s.close k vote (s.client, [])).requests = s.requests := by
    intro k vote
    rw [requests_close, List.append_nil]
  generalize hs' : s.step ev = s' at hd
  cases moves_of_step hs' with
  | idle => exact .inl hd
  | submit leaders u tid =>
    rw [Decided, requests_append] at hd
    rcases decided_append_iff.mp hd with hold | ⟨i, hi⟩
    · exact .inl hold
    · unfold Client.processTransaction at hi
      dsimp only at hi
      split at hi <;> simp at hi
  | deliver k x hx hdel =>
    have hreqs : ({ s with
        net := s.net.step (.input x.dst (x.req.toInput k))
        calls := s.calls.modify k fun x => { x with delivered := true } } : System).requests = s.requests :=
      requests_modify s s.client k (fun _ => rfl) (fun _ => rfl)
    exact .inl ((decided_congr hreqs).mp hd)
  | close k x hx hopen => exact .inl ((decided_congr hmark).mp hd)
  | server ev hev => exact .inl hd
  | vote k x request reply hx hopen hreq hmem hcall =>
    have htid : reply.tid = request.tid := ht.reply_tid hmem hcall hx hreq
    by_cases hzero : reply.tid = 0
    · rw [Client.consumeTpcPrepare_unnamed s.net.constants s.client hzero] at hd
      exact .inl ((decided_congr hmark).mp hd)
    have hentry := h.entryOf hx hopen hreq
    rw [Decided, requests_close] at hd
    rcases decided_append_iff.mp hd with hold | ⟨i, hi⟩
    · exact .inl hold
    rcases Client.consumeTpcPrepare_cases s.net.constants s.client hzero rfl with
      ⟨isCommit, hcommit, htwo, hout⟩ | ⟨-, hout⟩
    · rw [hout] at hi
      obtain ⟨rfl, rfl⟩ := ClientReq.tpcDecision.inj (mem_broadcast.mp hi).2.2
      refine .inr ⟨k, x, request, reply, rfl, hx, hopen, hreq, htid.symm, hmem, hcall, hzero, ?_⟩
      intro hb
      have hsucc := hcommit.mp hb
      rw [htid] at hsucc htwo ⊢
      -- two yes votes leave no room for another vote, so the one just counted is a yes
      have hall := h.polled_counting hx hopen hreq hentry htwo (fun _ : b = true => hsucc)
      have hself : ({ x with done := true, vote := some reply.ack } : ClientCall) ∈ s.counting k reply.ack := by
        have hk : (s.counting k reply.ack)[k]? = some _ := Net.getElem?_modify_some _ hx
        rw [if_pos rfl] at hk
        exact List.mem_of_getElem? hk
      obtain ⟨v, hv, hyes⟩ := hall _ hself (by simp [hreq, ClientReq.prepares])
      have hack : reply.ack = true := by
        rw [Option.some.inj hv]
        exact hyes hb
      refine ⟨hack, ?_⟩
      have hcount : (Client.countVote (s.client.entryOf request.tid) true reply.ack).successes =
          (s.client.entryOf request.tid).successes + 1 := by
        simp [Client.countVote, hack]
      omega
    · rw [hout] at hi
      exact absurd hi List.not_mem_nil

end System

end MultiPaxosDB
