/-
# MultiPaxosDB.Verdicts — the decisions of the client coordinator, over whole runs.

The client is driven by two kinds of events: it submits a transaction, or an RPC of a `TpcPrepare`
completes with a status and a reply.  The reply of a call that failed on the way is empty and has tid 0.
A run is legal when tids are distinct and non-zero, a `TpcPrepare` completes only if it was sent, twice
per tid at most, and a reply names its own transaction or none.

The table `processing` is a function of the run: for each tid it holds the transaction with the count of
the positive and negative *votes*, the completions whose reply names it, until there are two of them
(`processing_run`).  The verdict falls with the second vote and is the conjunction of the two
(`decidesAt_iff`).  So a decision is never made twice or against a vote (`coordinator_safe`), and it is
made if and only if both replies name the transaction (`coordinator_complete_iff`).
-/
import MultiPaxosDB.Client

namespace MultiPaxosDB

open Lib

/-- What the client's two threads react to. -/
inductive ClientEvent
  | submit (leaders : List Int) (txn : Transaction) (tid : Int)
  /-- One of the two `TpcPrepare` calls of `tid` completes; `ok` is its status. -/
  | complete (tid : Int) (ok : Bool) (reply : TransferRes)
deriving DecidableEq, Repr

namespace Client

/-! ## Runs -/

/-- The handler of an event: the client afterwards and the RPCs it starts. -/
def handle (c : Constants) (client : Client) : ClientEvent → Client × List (Int × ClientReq)
  | .submit leaders txn tid => client.processTransaction c leaders txn tid
  | .complete _ ok reply => client.consumeTpcPrepare c ok reply

/-- The client after a run from its start. -/
def run (c : Constants) (es : List ClientEvent) : Client :=
  es.foldl (fun client e => (client.handle c e).1) { processing := ∅ }

theorem run_snoc (c : Constants) (past : List ClientEvent) (e : ClientEvent) :
    run c (past ++ [e]) = ((run c past).handle c e).1 := by
  rw [run, List.foldl_append]
  rfl

/-- The two accounts are in different clusters. -/
def crossShard (c : Constants) (txn : Transaction) : Bool :=
  decide (getClusterIdFromClientId c txn.sender ≠ getClusterIdFromClientId c txn.receiver)

/-- The cross-shard transaction an event submits under `t`. -/
def submits (c : Constants) (t : Int) : ClientEvent → Option Transaction
  | .submit _ txn tid => if tid = t ∧ crossShard c txn = true then some txn else none
  | .complete _ _ _ => none

/-- The cross-shard transaction submitted under `t`. -/
def submitted (c : Constants) (es : List ClientEvent) (t : Int) : Option Transaction :=
  es.findSome? (submits c t)

/-- The tids of all submissions. -/
def tids (es : List ClientEvent) : List Int :=
  es.filterMap fun
    | .submit _ _ tid => some tid
    | .complete _ _ _ => none

/-- The completions of the calls of `t`, in order: their status and reply. -/
def completions (es : List ClientEvent) (t : Int) : List (Bool × TransferRes) :=
  es.filterMap fun
    | .submit _ _ _ => none
    | .complete tid ok reply => if tid = t then some (ok, reply) else none

/-- Whether a completion says yes. -/
def positive (x : Bool × TransferRes) : Bool := x.1 && x.2.ack

/-- The votes on `t`: its completions whose reply names it. -/
def votes (es : List ClientEvent) (t : Int) : List Bool :=
  ((completions es t).filter fun x => decide (x.2.tid = t)).map positive

/-- What may happen after `past`. -/
def Admissible (c : Constants) (past : List ClientEvent) : ClientEvent → Prop
  | .submit _ _ tid => tid ≠ 0 ∧ tid ∉ tids past
  | .complete tid _ reply => (submitted c past tid).isSome ∧ (completions past tid).length < 2 ∧
      (reply.tid = tid ∨ reply.tid = 0)

instance (c : Constants) (past : List ClientEvent) : (e : ClientEvent) → Decidable (Admissible c past e)
  | .submit _ _ tid => inferInstanceAs (Decidable (tid ≠ 0 ∧ tid ∉ tids past))
  | .complete tid _ reply => inferInstanceAs (Decidable ((submitted c past tid).isSome ∧
      (completions past tid).length < 2 ∧ (reply.tid = tid ∨ reply.tid = 0)))

/-- A run as the client can see it. -/
def Legal (c : Constants) (es : List ClientEvent) : Prop :=
  okRun (fun past e => past ++ [e]) (Admissible c) [] es

instance (c : Constants) (es : List ClientEvent) : Decidable (Legal c es) :=
  inferInstanceAs (Decidable (okRun _ _ _ _))

section Legal

variable {c : Constants} {es past : List ClientEvent} {e : ClientEvent} {t : Int}

theorem foldl_snoc (es past : List ClientEvent) :
    es.foldl (fun past e => past ++ [e]) past = past ++ es := by
  induction es generalizing past with
  | nil => exact (List.append_nil past).symm
  | cons e es ih => rw [List.foldl_cons, ih, List.append_assoc, List.singleton_append]

theorem Legal.take (h : Legal c es) (i : ℕ) : Legal c (es.take i) := by
  rw [← List.take_append_drop i es] at h
  exact (okRun_append.mp h).1

theorem legal_snoc : Legal c (past ++ [e]) ↔ Legal c past ∧ Admissible c past e := by
  unfold Legal
  rw [okRun_append, foldl_snoc, List.nil_append]
  simp only [okRun, and_true]

theorem submitted_snoc (c : Constants) (past : List ClientEvent) (e : ClientEvent) (t : Int) :
    submitted c (past ++ [e]) t = (submitted c past t).or (submits c t e) := by
  rw [submitted, List.findSome?_append, List.findSome?_singleton]
  rfl

theorem completions_snoc (past : List ClientEvent) (e : ClientEvent) (t : Int) :
    completions (past ++ [e]) t = completions past t ++ completions [e] t := by
  rw [completions, List.filterMap_append]
  rfl

theorem votes_snoc (past : List ClientEvent) (e : ClientEvent) (t : Int) :
    votes (past ++ [e]) t = votes past t ++ votes [e] t := by
  rw [votes, completions_snoc, List.filter_append, List.map_append]
  rfl

/-- Only what was submitted completes, twice at most, and each reply names its transaction or none. -/
theorem Legal.completions_spec (h : Legal c es) (t : Int) :
    (completions es t ≠ [] → (submitted c es t).isSome) ∧ (completions es t).length ≤ 2 ∧
      ∀ x ∈ completions es t, x.2.tid = t ∨ x.2.tid = 0 := by
  induction es using List.reverseRecOn with
  | nil => exact ⟨fun h => absurd rfl h, Nat.zero_le _, fun x hx => absurd hx List.not_mem_nil⟩
  | append_singleton past e ih =>
    obtain ⟨hpast, hok⟩ := legal_snoc.mp h
    obtain ⟨hsub, hlen, hreply⟩ := ih hpast
    rw [completions_snoc, submitted_snoc]
    cases e with
    | submit leaders txn tid =>
      rw [show completions [.submit leaders txn tid] t = [] from rfl, List.append_nil]
      refine ⟨fun hne => ?_, hlen, hreply⟩
      rw [Option.isSome_or, hsub hne, Bool.true_or]
    | complete tid ok reply =>
      obtain ⟨hsubmitted, hcount, hname⟩ := hok
      by_cases htid : tid = t
      · subst htid
        have hone : completions [.complete tid ok reply] tid = [(ok, reply)] := by
          simp [completions]
        rw [hone]
        refine ⟨fun _ => by rw [Option.isSome_or, hsubmitted, Bool.true_or], ?_, ?_⟩
        · rw [List.length_append, List.length_singleton]
          omega
        · intro x hx
          rcases List.mem_append.mp hx with hx | hx
          · exact hreply x hx
          · rw [List.mem_singleton.mp hx]
            exact hname
      · have hnone : completions [.complete tid ok reply] t = [] := by
          simp [completions, htid]
        rw [hnone, List.append_nil]
        refine ⟨fun hne => ?_, hlen, hreply⟩
        rw [Option.isSome_or, hsub hne, Bool.true_or]

/-- A submitted transaction is a submission, of a non-zero tid. -/
theorem Legal.submitted_tid (h : Legal c es) {txn : Transaction} (hs : submitted c es t = some txn) :
    t ∈ tids es ∧ t ≠ 0 := by
  induction es using List.reverseRecOn with
  | nil => cases hs
  | append_singleton past e ih =>
    obtain ⟨hpast, hok⟩ := legal_snoc.mp h
    rw [tids, List.filterMap_append, List.mem_append]
    rw [submitted_snoc, Option.or_eq_some_iff] at hs
    rcases hs with hold | ⟨-, hnew⟩
    · obtain ⟨hmem, hne⟩ := ih hpast hold
      exact ⟨.inl hmem, hne⟩
    · cases e with
      | complete tid ok reply => cases hnew
      | submit leaders txn' tid =>
        simp only [submits] at hnew
        split at hnew
        · rename_i hcond
          rw [← hcond.1]
          exact ⟨.inr (List.mem_singleton.mpr rfl), hok.1⟩
        · cases hnew

end Legal

/-! ## The table -/

/-- The entry of a transaction with these votes: gone with the second. -/
def tally (txn : Transaction) (votes : List Bool) : Option TpcPrepareRes :=
  if votes.length < 2 then some { txn := txn, successes := votes.count true, failures := votes.count false }
  else none

/-- What the branch for a completed `TpcPrepare` decides: commit, abort, or nothing yet. -/
def verdict (client : Client) (ok : Bool) (reply : TransferRes) : Option Bool :=
  let entry := countVote (client.entryOf reply.tid) ok reply.ack
  if reply.tid = 0 then none
  else if entry.successes = 2 then some true
  else if entry.failures > 0 ∧ entry.successes + entry.failures = 2 then some false
  else none

/-- The branch, by its verdict. -/
theorem consumeTpcPrepare_eq (c : Constants) (client : Client) (ok : Bool) {reply : TransferRes}
    (h : reply.tid ≠ 0) :
    client.consumeTpcPrepare c ok reply =
      let entry := countVote (client.entryOf reply.tid) ok reply.ack
      match client.verdict ok reply with
      | none => ({ processing := client.processing.insert reply.tid entry }, [])
      | some isCommit => ({ processing := client.processing.erase reply.tid },
          broadcast c reply.tid isCommit (getClusterIdFromClientId c entry.txn.sender)
            (getClusterIdFromClientId c entry.txn.receiver)) := by
  unfold consumeTpcPrepare verdict
  dsimp only
  rw [if_neg h, if_neg h]
  generalize countVote (client.entryOf reply.tid) ok reply.ack = entry
  by_cases hcommit : entry.successes = 2
  · simp [hcommit, tpcCommit]
  · by_cases habort : entry.failures > 0 ∧ entry.successes + entry.failures = 2
    · simp [hcommit, habort, tpcAbort]
    · rw [if_neg hcommit, if_neg habort, if_neg]
      simp only [Bool.or_eq_true, beq_iff_eq, Bool.and_eq_true, decide_eq_true_eq, not_or]
      exact ⟨hcommit, habort⟩

/-- With fewer than two votes before, the verdict falls with the second. -/
theorem verdict_of_tally {client : Client} (ok : Bool) {reply : TransferRes} {txn : Transaction}
    {vs : List Bool} (h0 : reply.tid ≠ 0) (hvs : vs.length < 2)
    (h : client.processing[reply.tid]? = tally txn vs) :
    (countVote (client.entryOf reply.tid) ok reply.ack =
        { txn := txn, successes := (vs ++ [ok && reply.ack]).count true,
          failures := (vs ++ [ok && reply.ack]).count false }) ∧
      client.verdict ok reply = if vs.length = 1 then some ((vs ++ [ok && reply.ack]).all id) else none := by
  rw [tally, if_pos hvs] at h
  have hentry : countVote (client.entryOf reply.tid) ok reply.ack =
      { txn := txn, successes := (vs ++ [ok && reply.ack]).count true,
        failures := (vs ++ [ok && reply.ack]).count false } := by
    rw [entryOf, h, Option.getD_some, countVote]
    cases ok <;> cases reply.ack <;> simp
  refine ⟨hentry, ?_⟩
  unfold verdict
  rw [hentry]
  dsimp only
  rw [if_neg h0]
  match vs, hvs with
  | [], _ => cases ok <;> cases reply.ack <;> simp
  | [v], _ => cases v <;> cases ok <;> cases reply.ack <;> simp

variable {c : Constants} {es past : List ClientEvent} {t tid : Int} {ok : Bool} {reply : TransferRes}

theorem Legal.votes_eq_nil (h : Legal c es) (hs : submitted c es t = none) : votes es t = [] := by
  have hnil : completions es t = [] := by
    by_contra hne
    have hsome := (h.completions_spec t).1 hne
    rw [hs] at hsome
    cases hsome
  rw [votes, hnil]
  rfl

theorem Legal.length_votes (h : Legal c (past ++ [.complete t ok reply])) :
    (votes past t).length < 2 := by
  have hcount := (legal_snoc.mp h).2.2.1
  rw [votes, List.length_map]
  exact lt_of_le_of_lt (List.length_filter_le _ _) hcount

/-- A completion is a vote on the transaction its reply names. -/
theorem votes_complete (t : Int) :
    votes [.complete tid ok reply] t = if tid = t ∧ reply.tid = t then [ok && reply.ack] else [] := by
  by_cases htid : tid = t
  · by_cases hname : reply.tid = t
    · simp [votes, completions, positive, htid, hname]
    · simp [votes, completions, htid, hname]
  · simp [votes, completions, htid]

/-- **The table is a function of the run.** -/
theorem processing_run (h : Legal c es) (t : Int) :
    (run c es).processing[t]? = (submitted c es t).bind fun txn => tally txn (votes es t) := by
  induction es using List.reverseRecOn generalizing t with
  | nil => exact Std.ExtTreeMap.getElem?_empty
  | append_singleton past e ih =>
    obtain ⟨hpast, hok⟩ := legal_snoc.mp h
    replace ih := ih hpast
    rw [run_snoc, submitted_snoc, votes_snoc]
    cases e with
    | submit leaders txn tid =>
      rw [show votes [.submit leaders txn tid] t = [] from rfl, List.append_nil]
      by_cases hcross : getClusterIdFromClientId c txn.sender = getClusterIdFromClientId c txn.receiver
      · -- an intra-shard transfer does not enter the table
        have hnone : submits c t (.submit leaders txn tid) = none := by simp [submits, crossShard, hcross]
        simp only [handle, processTransaction, if_pos hcross]
        rw [hnone, Option.or_none, ih t]
      · simp only [handle, processTransaction, if_neg hcross]
        rw [WAL.getElem?_insert_tid]
        by_cases htid : t = tid
        · subst htid
          have hfresh : submitted c past t = none := by
            by_contra hsome
            obtain ⟨txn', hs⟩ := Option.ne_none_iff_exists'.mp hsome
            exact hok.2 (hpast.submitted_tid hs).1
          have hnew : submits c t (.submit leaders txn t) = some txn := by simp [submits, crossShard, hcross]
          rw [if_pos rfl, hfresh, Option.none_or, hnew, hpast.votes_eq_nil hfresh]
          rfl
        · have hnone : submits c t (.submit leaders txn tid) = none := by
            simp [submits, Ne.symm htid]
          rw [if_neg htid, hnone, Option.or_none, ih t]
    | complete tid ok reply =>
      obtain ⟨hsubmitted, -, hname⟩ := hok
      obtain ⟨txn, hs⟩ := Option.isSome_iff_exists.mp hsubmitted
      have htid0 : tid ≠ 0 := (hpast.submitted_tid hs).2
      rw [show submits c t (.complete tid ok reply) = none from rfl, Option.or_none, votes_complete]
      rcases hname with rfl | hname
      · -- a vote, counted under the tid that the reply names
        have htally : (run c past).processing[reply.tid]? = tally txn (votes past reply.tid) := by
          rw [ih reply.tid, hs]
          rfl
        have hlen := h.length_votes
        obtain ⟨hentry, hverdict⟩ := verdict_of_tally ok htid0 hlen htally
        have hstep : ((run c past).handle c (.complete reply.tid ok reply)).1.processing =
            if (votes past reply.tid).length = 1 then (run c past).processing.erase reply.tid
            else (run c past).processing.insert reply.tid
              { txn := txn, successes := (votes past reply.tid ++ [ok && reply.ack]).count true,
                failures := (votes past reply.tid ++ [ok && reply.ack]).count false } := by
          simp only [handle, consumeTpcPrepare_eq c _ ok htid0, hentry, hverdict]
          by_cases hone : (votes past reply.tid).length = 1
          · rw [if_pos hone, if_pos hone]
          · rw [if_neg hone, if_neg hone]
        rw [hstep]
        by_cases ht : t = reply.tid
        · subst ht
          rw [if_pos (⟨rfl, rfl⟩ : reply.tid = reply.tid ∧ reply.tid = reply.tid), hs, Option.bind_some, tally,
            List.length_append, List.length_singleton]
          split
          · rw [WAL.getElem?_erase_tid, if_pos rfl, if_neg (by omega)]
          · rw [WAL.getElem?_insert_tid, if_pos rfl, if_pos (by omega)]
        · rw [if_neg (fun hand : reply.tid = t ∧ reply.tid = t => ht hand.1.symm), List.append_nil, ← ih t]
          split
          · rw [WAL.getElem?_erase_tid, if_neg ht]
          · rw [WAL.getElem?_insert_tid, if_neg ht]
      · have hskip : ((run c past).handle c (.complete tid ok reply)).1 = run c past := by
          simp only [handle, consumeTpcPrepare_unnamed c _ hname]
        rw [hskip, ih t, if_neg, List.append_nil]
        rintro ⟨rfl, hreply⟩
        exact htid0 (hreply.symm.trans hname)

/-! ## Decisions -/

/-- The client decides `t` with the event at position `i` of the run. -/
def decidesAt (c : Constants) (es : List ClientEvent) (i : ℕ) (t : Int) (isCommit : Bool) : Prop :=
  ∃ tid ok reply, es[i]? = some (.complete tid ok reply) ∧ reply.tid = t ∧
    (run c (es.take i)).verdict ok reply = some isCommit

/-- The RPCs the client starts with the event at position `i`. -/
def sendsAt (c : Constants) (es : List ClientEvent) (i : ℕ) : List (Int × ClientReq) :=
  (es[i]?.map fun e => ((run c (es.take i)).handle c e).2).getD []

section Decisions

variable {i j : ℕ} {e : ClientEvent} {isCommit isCommit' : Bool}

theorem take_succ_of_getElem? (he : es[i]? = some e) : es.take (i + 1) = es.take i ++ [e] := by
  rw [List.take_add_one, he]
  rfl

/-- The verdict falls with the second vote, and is yes if both are. -/
theorem decidesAt_iff (h : Legal c es) :
    decidesAt c es i t isCommit ↔ ∃ ok reply v, es[i]? = some (.complete t ok reply) ∧ reply.tid = t ∧
      votes (es.take i) t = [v] ∧ isCommit = (v && (ok && reply.ack)) := by
  -- a verdict needs a reply that names its transaction, and that is the call's own
  have hvote : ∀ {tid ok reply}, es[i]? = some (.complete tid ok reply) → reply.tid = tid →
      (run c (es.take i)).verdict ok reply = if (votes (es.take i) tid).length = 1 then
        some ((votes (es.take i) tid ++ [ok && reply.ack]).all id) else none := by
    rintro tid ok reply he rfl
    have hlegal := h.take (i + 1)
    rw [take_succ_of_getElem? he] at hlegal
    obtain ⟨hpast, hok⟩ := legal_snoc.mp hlegal
    obtain ⟨txn, hs⟩ := Option.isSome_iff_exists.mp hok.1
    have htally : (run c (es.take i)).processing[reply.tid]? = tally txn (votes (es.take i) reply.tid) := by
      rw [processing_run hpast, hs]
      rfl
    exact (verdict_of_tally ok (hpast.submitted_tid hs).2 hlegal.length_votes htally).2
  constructor
  · rintro ⟨tid, ok, reply, he, rfl, hverdict⟩
    have h0 : reply.tid ≠ 0 := by
      intro h0
      rw [verdict, if_pos h0] at hverdict
      cases hverdict
    have hlegal := h.take (i + 1)
    rw [take_succ_of_getElem? he] at hlegal
    have hname : reply.tid = tid := ((legal_snoc.mp hlegal).2.2.2).resolve_right h0
    subst hname
    rw [hvote he rfl] at hverdict
    split at hverdict
    · rename_i hone
      obtain ⟨v, hv⟩ := List.length_eq_one_iff.mp hone
      refine ⟨ok, reply, v, he, rfl, hv, ?_⟩
      rw [hv] at hverdict
      simpa using (Option.some.inj hverdict).symm
    · cases hverdict
  · rintro ⟨ok, reply, v, he, hname, hv, rfl⟩
    refine ⟨t, ok, reply, he, hname, ?_⟩
    rw [hvote he hname, hv]
    simp

theorem votes_append (es es' : List ClientEvent) (t : Int) : votes (es ++ es') t = votes es t ++ votes es' t := by
  rw [votes, completions, List.filterMap_append, List.filter_append, List.map_append]
  rfl

/-- With a decision there are two votes. -/
theorem votes_of_decidesAt (h : Legal c es) (hd : decidesAt c es i t isCommit) :
    ∃ v w, votes (es.take i) t = [v] ∧ votes (es.take (i + 1)) t = [v, w] ∧ isCommit = (v && w) := by
  obtain ⟨ok, reply, v, he, hname, hv, rfl⟩ := (decidesAt_iff h).mp hd
  refine ⟨v, ok && reply.ack, hv, ?_, rfl⟩
  rw [take_succ_of_getElem? he, votes_snoc, hv, votes_complete, if_pos ⟨rfl, hname⟩]
  rfl

/-- There is no third vote, so there is no second decision. -/
theorem decidesAt_unique (h : Legal c es) (hi : decidesAt c es i t isCommit)
    (hj : decidesAt c es j t isCommit') : i = j ∧ isCommit = isCommit' := by
  have hle : ∀ {i j : ℕ} {b b'}, decidesAt c es i t b → decidesAt c es j t b' → j ≤ i := by
    intro i j b b' hi hj
    by_contra hlt
    obtain ⟨v, w, -, htwo, -⟩ := votes_of_decidesAt h hi
    obtain ⟨v', -, hone, -, -⟩ := votes_of_decidesAt h hj
    have hsplit := List.take_append_drop (i + 1) (es.take j)
    rw [List.take_take, min_eq_left (by omega)] at hsplit
    rw [← hsplit, votes_append, htwo] at hone
    exact absurd (congrArg List.length hone) (by simp)
  obtain rfl : i = j := le_antisymm (hle hj hi) (hle hi hj)
  obtain ⟨ok, reply, v, he, -, hv, rfl⟩ := (decidesAt_iff h).mp hi
  obtain ⟨ok', reply', v', he', -, hv', rfl⟩ := (decidesAt_iff h).mp hj
  rw [he] at he'
  rw [hv] at hv'
  cases he'
  cases hv'
  exact ⟨rfl, rfl⟩

/-- A later event does not change what was decided before it. -/
theorem decidesAt.snoc (hd : decidesAt c past i t isCommit) (e : ClientEvent) :
    decidesAt c (past ++ [e]) i t isCommit := by
  obtain ⟨tid, ok, reply, he, hname, hverdict⟩ := hd
  have hlt : i < past.length := (List.getElem?_eq_some_iff.mp he).1
  refine ⟨tid, ok, reply, ?_, hname, ?_⟩
  · rw [List.getElem?_append_left hlt]
    exact he
  · rw [List.take_append_of_le_length hlt.le]
    exact hverdict

/-- A transaction is decided once it has two votes. -/
theorem decided_iff (h : Legal c es) (t : Int) :
    (∃ i isCommit, decidesAt c es i t isCommit) ↔ 2 ≤ (votes es t).length := by
  constructor
  · rintro ⟨i, b, hd⟩
    obtain ⟨v, w, -, htwo, -⟩ := votes_of_decidesAt h hd
    rw [← List.take_append_drop (i + 1) es, votes_append, htwo, List.length_append]
    exact Nat.le_add_right 2 _
  · intro hvotes
    induction es using List.reverseRecOn with
    | nil => exact absurd hvotes (Nat.not_succ_le_zero 1)
    | append_singleton past e ih =>
      by_cases hold : 2 ≤ (votes past t).length
      · obtain ⟨i, b, hd⟩ := ih (legal_snoc.mp h).1 hold
        exact ⟨i, b, hd.snoc e⟩
      · rw [votes_snoc, List.length_append] at hvotes
        cases e with
        | submit leaders txn tid =>
          exact absurd hvotes hold
        | complete tid ok reply =>
          rw [votes_complete] at hvotes
          split at hvotes
          · rename_i hname
            obtain ⟨rfl, hname⟩ := hname
            rw [List.length_singleton] at hvotes
            obtain ⟨v, hv⟩ := List.length_eq_one_iff.mp (show (votes past tid).length = 1 by omega)
            refine ⟨past.length, v && (ok && reply.ack), (decidesAt_iff h).mpr
              ⟨ok, reply, v, ?_, hname, ?_, rfl⟩⟩
            · rw [List.getElem?_append_right le_rfl, Nat.sub_self]
              rfl
            · rwa [List.take_left' rfl]
          · exact absurd hvotes hold

/-- As many votes as completions: every reply names the transaction. -/
theorem votes_eq_of_length (h : (votes es t).length = (completions es t).length) :
    (∀ x ∈ completions es t, x.2.tid = t) ∧ votes es t = (completions es t).map positive := by
  rw [votes, List.length_map, List.length_filter_eq_length_iff] at h
  have hall : ∀ x ∈ completions es t, x.2.tid = t := fun x hx => of_decide_eq_true (h x hx)
  refine ⟨hall, ?_⟩
  rw [votes, List.filter_eq_self.mpr h]

theorem length_votes_le (es : List ClientEvent) (t : Int) : (votes es t).length ≤ (completions es t).length := by
  rw [votes, List.length_map]
  exact List.length_filter_le _ _

/-- With a decision both calls have completed, their replies name the transaction, and the decision is
the conjunction of what they say. -/
theorem completions_of_decidesAt (h : Legal c es) (hd : decidesAt c es i t isCommit) :
    (completions (es.take (i + 1)) t).length = 2 ∧ (∀ x ∈ completions (es.take (i + 1)) t, x.2.tid = t) ∧
      isCommit = (completions (es.take (i + 1)) t).all positive := by
  obtain ⟨v, w, -, htwo, rfl⟩ := votes_of_decidesAt h hd
  have hlen : (votes (es.take (i + 1)) t).length = (completions (es.take (i + 1)) t).length := by
    have hmany := ((h.take (i + 1)).completions_spec t).2.1
    have hfew := length_votes_le (es.take (i + 1)) t
    rw [htwo, List.length_cons, List.length_singleton] at hfew ⊢
    omega
  obtain ⟨hname, hvotes⟩ := votes_eq_of_length hlen
  refine ⟨by rw [← hlen, htwo]; rfl, hname, ?_⟩
  rw [htwo] at hvotes
  calc (v && w) = [v, w].all id := by simp
    _ = ((completions (es.take (i + 1)) t).map positive).all id := by rw [hvotes]
    _ = (completions (es.take (i + 1)) t).all positive := List.all_map

theorem submitted_take {txn : Transaction} (hs : submitted c (es.take i) t = some txn) :
    submitted c es t = some txn := by
  rw [← List.take_append_drop i es, submitted, List.findSome?_append]
  rw [submitted] at hs
  rw [hs]
  rfl

end Decisions

/-- Coordinator safety, for a run of the client. -/
structure Safe (c : Constants) (es : List ClientEvent) : Prop where
  /-- At most one decision per tid. -/
  once : ∀ {i j t b b'}, decidesAt c es i t b → decidesAt c es j t b' → i = j ∧ b = b'
  /-- A commit comes after two completions, both with OK status and `ack = true`. -/
  commit : ∀ {i t}, decidesAt c es i t true → (completions (es.take (i + 1)) t).length = 2 ∧
    ∀ x ∈ completions (es.take (i + 1)) t, x.1 = true ∧ x.2.ack = true
  /-- An abort comes after two completions whose replies name the transaction, one of them negative. -/
  abort : ∀ {i t}, decidesAt c es i t false → (completions (es.take (i + 1)) t).length = 2 ∧
    (∀ x ∈ completions (es.take (i + 1)) t, x.2.tid = t) ∧
      ∃ x ∈ completions (es.take (i + 1)) t, ¬ (x.1 = true ∧ x.2.ack = true)
  /-- Decisions, and only decisions, are sent out as such: to every server of the two clusters. -/
  recipients : ∀ {i dst t b}, (dst, .tpcDecision t b) ∈ sendsAt c es i ↔
    decidesAt c es i t b ∧ ∃ txn, submitted c es t = some txn ∧ dst ∈ serverIds c ∧
      (getClusterIdFromServerId c dst = getClusterIdFromClientId c txn.sender ∨
        getClusterIdFromServerId c dst = getClusterIdFromClientId c txn.receiver)
  /-- The table holds the cross-shard transactions without a decision. -/
  processing : ∀ t, t ∈ (run c es).processing ↔
    (submitted c es t).isSome ∧ ¬ ∃ i b, decidesAt c es i t b

theorem mem_processing_iff (h : Legal c es) (t : Int) :
    t ∈ (run c es).processing ↔ (submitted c es t).isSome ∧ (votes es t).length < 2 := by
  rw [Std.ExtTreeMap.mem_iff_isSome_getElem?, processing_run h]
  cases submitted c es t with
  | none => simp
  | some txn =>
    simp only [Option.bind_some, tally, Option.isSome_some, true_and]
    split
    · simp_all
    · simp_all

theorem mem_broadcast {dst s r : Int} {b isCommit : Bool} :
    (dst, .tpcDecision t b) ∈ broadcast c tid isCommit s r ↔
      (t = tid ∧ b = isCommit) ∧ dst ∈ serverIds c ∧
        (getClusterIdFromServerId c dst = s ∨ getClusterIdFromServerId c dst = r) := by
  simp only [broadcast, List.mem_map, List.mem_filter, Bool.or_eq_true, beq_iff_eq, Prod.mk.injEq,
    ClientReq.tpcDecision.injEq]
  constructor
  · rintro ⟨id, ⟨hid, hcluster⟩, rfl, rfl, rfl⟩
    exact ⟨⟨rfl, rfl⟩, hid, hcluster⟩
  · rintro ⟨⟨rfl, rfl⟩, hid, hcluster⟩
    exact ⟨dst, ⟨hid, hcluster⟩, rfl, rfl, rfl⟩

/-- What goes out with a completion: the decision, if it brings one. -/
theorem sends_complete (h : Legal c (past ++ [.complete tid ok reply])) {dst t : Int} {b : Bool} :
    (dst, .tpcDecision t b) ∈ ((run c past).handle c (.complete tid ok reply)).2 ↔
      (reply.tid = t ∧ (run c past).verdict ok reply = some b) ∧
        ∃ txn, submitted c past t = some txn ∧ dst ∈ serverIds c ∧
          (getClusterIdFromServerId c dst = getClusterIdFromClientId c txn.sender ∨
            getClusterIdFromServerId c dst = getClusterIdFromClientId c txn.receiver) := by
  obtain ⟨hpast, hsubmitted, -, hname⟩ := legal_snoc.mp h
  by_cases h0 : reply.tid = 0
  · have hskip : ((run c past).handle c (.complete tid ok reply)).2 = [] := by
      simp only [handle, consumeTpcPrepare_unnamed c _ h0]
    have hnone : (run c past).verdict ok reply = none := by rw [verdict, if_pos h0]
    rw [hskip, hnone]
    exact ⟨fun hmem => absurd hmem List.not_mem_nil, fun hd => nomatch hd.1.2⟩
  · obtain rfl : reply.tid = tid := hname.resolve_right h0
    obtain ⟨txn, hs⟩ := Option.isSome_iff_exists.mp hsubmitted
    have htally : (run c past).processing[reply.tid]? = tally txn (votes past reply.tid) := by
      rw [processing_run hpast, hs]
      rfl
    obtain ⟨hentry, -⟩ := verdict_of_tally ok h0 h.length_votes htally
    simp only [handle, consumeTpcPrepare_eq c _ ok h0, hentry]
    cases hverdict : (run c past).verdict ok reply with
    | none => exact ⟨fun hmem => absurd hmem List.not_mem_nil, fun hd => nomatch hd.1.2⟩
    | some isCommit =>
      rw [mem_broadcast]
      constructor
      · rintro ⟨⟨rfl, rfl⟩, hdst⟩
        exact ⟨⟨rfl, rfl⟩, txn, hs, hdst⟩
      · rintro ⟨⟨rfl, hb⟩, txn', hs', hdst⟩
        obtain rfl : txn = txn' := Option.some.inj (hs.symm.trans hs')
        exact ⟨⟨rfl, (Option.some.inj hb).symm⟩, hdst⟩

theorem sendsAt_iff (h : Legal c es) {i : ℕ} {dst t : Int} {b : Bool} :
    (dst, .tpcDecision t b) ∈ sendsAt c es i ↔
      decidesAt c es i t b ∧ ∃ txn, submitted c es t = some txn ∧ dst ∈ serverIds c ∧
        (getClusterIdFromServerId c dst = getClusterIdFromClientId c txn.sender ∨
          getClusterIdFromServerId c dst = getClusterIdFromClientId c txn.receiver) := by
  unfold sendsAt decidesAt
  cases he : es[i]? with
  | none => exact ⟨fun hmem => absurd hmem List.not_mem_nil, fun ⟨⟨_, _, _, hno, _⟩, _⟩ => nomatch hno⟩
  | some e =>
    rw [Option.map_some, Option.getD_some]
    cases e with
    | submit leaders txn tid =>
      refine ⟨fun hmem => ?_, fun ⟨⟨_, _, _, hno, _⟩, _⟩ => nomatch hno⟩
      simp only [handle, processTransaction] at hmem
      split at hmem
      · simp at hmem
      · simp at hmem
    | complete tid ok reply =>
      have hlegal := h.take (i + 1)
      rw [take_succ_of_getElem? he] at hlegal
      rw [sends_complete hlegal]
      constructor
      · rintro ⟨⟨hname, hverdict⟩, txn, hs, hdst⟩
        exact ⟨⟨tid, ok, reply, rfl, hname, hverdict⟩, txn, submitted_take hs, hdst⟩
      · rintro ⟨⟨tid', ok', reply', heq, hname, hverdict⟩, txn, hs, hdst⟩
        cases heq
        refine ⟨⟨hname, hverdict⟩, txn, ?_, hdst⟩
        -- the transaction was submitted before its call completed
        have h0 : reply.tid ≠ 0 := by
          intro h0
          rw [verdict, if_pos h0] at hverdict
          cases hverdict
        obtain ⟨-, hsubmitted, -, hown⟩ := legal_snoc.mp hlegal
        obtain ⟨txn', hs'⟩ := Option.isSome_iff_exists.mp hsubmitted
        rw [← hown.resolve_right h0, hname] at hs'
        rw [hs', ← hs, submitted_take hs']

/-- **Coordinator safety.** -/
theorem coordinator_safe (c : Constants) (es : List ClientEvent) (h : Legal c es) : Safe c es where
  once := decidesAt_unique h
  commit := by
    intro i t hd
    obtain ⟨hlen, -, hall⟩ := completions_of_decidesAt h hd
    refine ⟨hlen, ?_⟩
    intro x hx
    simpa [positive] using List.all_eq_true.mp hall.symm x hx
  abort := by
    intro i t hd
    obtain ⟨hlen, hname, hall⟩ := completions_of_decidesAt h hd
    refine ⟨hlen, hname, ?_⟩
    obtain ⟨x, hx, hno⟩ := List.all_eq_false.mp hall.symm
    exact ⟨x, hx, by simpa [positive] using hno⟩
  recipients := sendsAt_iff h
  processing := by
    intro t
    rw [mem_processing_iff h, decided_iff h, not_le]

/-- A refused transaction among a committed one, with a reply that was lost on the way. -/
def twoTransactions : List ClientEvent :=
  [.submit [1, 4, 7] ⟨1, 1001, 3⟩ 7, .submit [1, 4, 7] ⟨2, 2001, 5⟩ 8, .complete 7 true ⟨0, true, 7⟩,
    .complete 8 true ⟨0, false, 8⟩, .complete 7 true ⟨0, true, 7⟩, .complete 8 false ⟨0, false, 0⟩]

theorem coordinator_safe_twoTransactions : Safe ⟨3, 3⟩ twoTransactions :=
  coordinator_safe _ _ (by decide)

/-! ## Completeness -/

/-- Exactly one decision on `t` has been sent out, commit if both completions were positive and abort
otherwise, and the table has forgotten `t`. -/
def Completed (c : Constants) (es : List ClientEvent) (t : Int) : Prop :=
  (∃ i b, decidesAt c es i t b ∧ (∀ j b', decidesAt c es j t b' → j = i ∧ b' = b) ∧
    (b = true ↔ ∀ x ∈ completions es t, x.1 = true ∧ x.2.ack = true)) ∧ t ∉ (run c es).processing

/-- **Coordinator completeness, where it holds.**  Once both calls of `t` have completed, the client has
decided it if and only if both replies name it. -/
theorem coordinator_complete_iff (c : Constants) (es : List ClientEvent) (t : Int) (h : Legal c es)
    (hboth : (completions es t).length = 2) :
    Completed c es t ↔ ∀ x ∈ completions es t, x.2.tid = t := by
  constructor
  · rintro ⟨⟨i, b, hd, -⟩, -⟩
    have htwo := (decided_iff h t).mp ⟨i, b, hd⟩
    have hle := length_votes_le es t
    exact (votes_eq_of_length (by omega)).1
  · intro hname
    have hvotes : votes es t = (completions es t).map positive := by
      rw [votes, List.filter_eq_self.mpr fun x hx => decide_eq_true (hname x hx)]
    have hlen : (votes es t).length = 2 := by rw [hvotes, List.length_map, hboth]
    obtain ⟨i, b, hd⟩ := (decided_iff h t).mpr hlen.ge
    refine ⟨⟨i, b, hd, fun j b' hj => decidesAt_unique h hj hd, ?_⟩, ?_⟩
    · obtain ⟨v, w, -, htwo, rfl⟩ := votes_of_decidesAt h hd
      have hall : (votes es t).all id = (v && w) := by
        have hsplit := votes_append (es.take (i + 1)) (es.drop (i + 1)) t
        rw [List.take_append_drop, htwo] at hsplit
        have hrest : votes (es.drop (i + 1)) t = [] := by
          rw [hsplit, List.length_append] at hlen
          exact List.length_eq_zero_iff.mp (by simpa using hlen)
        rw [hsplit, hrest]
        simp
      rw [← hall, hvotes, List.all_map, List.all_eq_true]
      simp [positive]
    · rw [mem_processing_iff h, not_and, not_lt]
      exact fun _ => hlen.ge

theorem coordinator_complete_iff_twoTransactions :
    Completed ⟨3, 3⟩ twoTransactions 7 :=
  (coordinator_complete_iff _ _ 7 (by decide) (by decide)).mpr (by decide)

/-- One call of a transaction fails on the way; the other is answered.  The failed call has no tid to be
counted under, so the client never decides. -/
def halfAnswered : List ClientEvent :=
  [.submit [1, 4, 7] ⟨1, 1001, 3⟩ 7, .complete 7 false ⟨0, false, 0⟩, .complete 7 true ⟨0, true, 7⟩]

theorem coordinator_incomplete :
    ¬ ∀ (c : Constants) (es : List ClientEvent) (t : Int), Legal c es → (completions es t).length = 2 →
      Completed c es t := by
  intro hall
  have hstuck : (7 : Int) ∈ (run ⟨3, 3⟩ halfAnswered).processing := by decide +kernel
  exact (hall ⟨3, 3⟩ halfAnswered 7 (by decide) (by decide)).2 hstuck

end Client

end MultiPaxosDB
