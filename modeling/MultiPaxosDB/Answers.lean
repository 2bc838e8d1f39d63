/-
# MultiPaxosDB.Answers — the answer to a `Transfer` is its outcome.

`onAcceptQuorum` commits the intra-shard entries of the batch and answers them in the same loop, and on a stable
leader nothing else commits an intra-shard transaction.  So an answered yes stands for a committed transaction, a
committed transaction for an answered yes (`Tells`), and since a tid is on a leader once, a refused transfer or one
that still waits has not taken effect.  This holds in every reachable state, so a refused transfer never takes effect
later, and with `Serial` the yes of a transfer says that its payment is in the bank's history.
-/
import MultiPaxosDB.Serial

namespace MultiPaxosDB

open Lib

namespace ServerImpl

variable {s t : ServerImpl} {e : Event}

/-- The accept quorum commits every intra-shard entry of the batch. -/
theorem mem_balanceApplied_foldl_commitEntry (ballot : Ballot) : ∀ (batch : List BatchEntry) (l : Ledger) {k : Int},
    (k ∈ l.balanceApplied ∨ ∃ b ∈ batch, b.isCrossShard = false ∧ b.request.tid = k) →
    k ∈ (batch.foldl (commitEntry ballot) l).balanceApplied := by
  intro batch
  induction batch with
  | nil =>
    rintro l k (hold | ⟨b, hb, -⟩)
    · exact hold
    · exact absurd hb List.not_mem_nil
  | cons b batch ih =>
    intro l k hk
    refine ih _ ?_
    have hcommit : ∀ {m : Ledger}, (m.commitTransaction b.request ballot).balanceApplied =
        insert b.request.tid m.balanceApplied := Ledger.balanceApplied_commitTransaction _ b.request ballot
    unfold commitEntry
    rcases hk with hold | ⟨b', hb', hintra, rfl⟩
    · left
      split
      · exact hold
      · rw [hcommit]
        exact Finset.mem_insert_of_mem hold
    · rcases List.mem_cons.mp hb' with rfl | hrest
      · left
        rw [hintra, if_neg (by decide), hcommit]
        exact Finset.mem_insert_self _ _
      · exact .inr ⟨b', hrest, hintra, rfl⟩

/-- What a new yes is: the answer to an entry of the batch, whose intra-shard entries are committed now. -/
theorem Core.yes (h : Core s e t) {x : TransferRes} (hx : x ∈ t.replies) (hack : x.ack = true) :
    x ∈ s.replies ∨ ∃ b ∈ s.current, x.call = b.call ∧
      (b.isCrossShard = false → b.request.tid ∈ t.ledger.balanceApplied) := by
  have hno : ∀ {bs : List BatchEntry}, x ∈ s.replies ++ bs.map (fun b =>
      ({ call := b.call, ack := false, tid := b.request.tid } : TransferRes)) → x ∈ s.replies := by
    intro bs hmem
    rcases List.mem_append.mp hmem with hold | hnew
    · exact hold
    · obtain ⟨b, -, rfl⟩ := List.mem_map.mp hnew
      cases hack
  cases h with
  | refuse b => exact .inl (hno (show x ∈ s.replies ++ [b].map _ from hx))
  | reject | propose | abortPrepare | abortAccept => exact .inl (hno hx)
  | commitRound a b =>
    rcases List.mem_append.mp hx with hold | hnew
    · exact .inl hold
    · obtain ⟨b, hb, rfl⟩ := List.mem_map.mp hnew
      refine .inr ⟨b, hb, rfl, ?_⟩
      intro hintra
      exact mem_balanceApplied_foldl_commitEntry s.acceptNum s.current s.ledger (.inr ⟨b, hb, hintra, rfl⟩)
  | _ => exact .inl hx

theorem handle_yes {x : TransferRes} (hx : x ∈ (s.handle e).replies) (hack : x.ack = true) :
    x ∈ s.replies ∨ ∃ b ∈ s.current, x.call = b.call ∧
      (b.isCrossShard = false → b.request.tid ∈ (s.handle e).ledger.balanceApplied) := by
  generalize hu : s.handle e = u at hx ⊢
  cases moves_of_handle hu with
  | done hcore => exact hcore.yes hx hack
  | start hcore => exact hcore.yes hx hack
  | retry hpre =>
    rw [hpre.frame.replies] at hx
    exact .inl hx

/-- **No silent commit.**  What a stable leader commits it answers with a yes in the same event, decisions apart. -/
theorem handle_committed (hw : s.ledger.wal.Ok) (hown : e.own = true) {k : Int}
    (hk : k ∈ committedTids (s.handle e).ledger.log) :
    k ∈ committedTids s.ledger.log ∨ e = .input (.tpcDecision k true) ∨
      ∃ x ∈ (s.handle e).replies, x.ack = true ∧ x.tid = k := by
  rcases committed_own hw hown hk with hold | hdecision | ⟨⟨status, request, response, rfl⟩, -, b, hb, -, rfl⟩
  · exact .inl hold
  · exact .inr (.inl hdecision)
  -- only an accept reply is left, and of its moves only the quorum touches the log
  · have hcore : ∀ {u : ServerImpl}, Core { s with outbox := [] } (.acceptReply status request response) u →
        b.request.tid ∈ committedTids u.ledger.log → b.request.tid ∈ committedTids s.ledger.log ∨
          ∃ x ∈ u.replies, x.ack = true ∧ x.tid = b.request.tid := by
      intro u hcore hmem
      cases hcore with
      | idle | countAccept => exact .inl hmem
      | abortAccept =>
        have hlog : (s.current.foldl (releaseEntry false) s.ledger).log = s.ledger.log :=
          List.foldlRecOn (motive := fun l : Ledger => l.log = s.ledger.log) s.current _ rfl fun l hl b _ => by
            unfold releaseEntry
            split <;> exact hl
        exact .inl (hlog ▸ hmem)
      | commitRound =>
        refine .inr ⟨_, List.mem_append_right _ (List.mem_map.mpr ⟨b, hb, rfl⟩), rfl, rfl⟩
    generalize hu : s.handle (.acceptReply status request response) = u at hk ⊢
    cases moves_of_handle hu with
    | done hdone => exact (hcore hdone hk).imp_right .inr
    | start hdone => exact (hcore hdone hk).imp_right .inr
    | retry hpre => cases hpre

end ServerImpl

/-! ## The deployment -/

namespace System

variable {s : System} {ev : SysEvent} {leaders : List Int}

/-- Server `i` tells the truth: a `Transfer` it has said yes to is committed, and what it has committed it has said
yes to, or the client has decided it. -/
structure Tells (s : System) (i : Int) : Prop where
  yes : ∀ reply ∈ (s.net.servers i).replies, reply.ack = true → ∀ x r, s.calls[reply.call]? = some x →
    x.req = .transfer r → s.committedOn i r.tid
  committed : ∀ t, s.committedOn i t →
    s.Decided t true ∨ ∃ reply ∈ (s.net.servers i).replies, reply.ack = true ∧ reply.tid = t

theorem Tells.step {i : Int} (h : s.Tells i) (ht : s.Tracked) (hwf : s.net.WellFormed)
    (hi : isLeader s.net.constants leaders i) (hok : leadersStable leaders s ev) : (s.step ev).Tells i := by
  rcases leader_event hok hi with hsame | ⟨e, hserver, hquiet, -, hdecides⟩
  · refine ⟨?_, ?_⟩
    · intro reply hmem hack x' r hx' hreq
      unfold committedOn
      rw [hsame] at hmem ⊢
      obtain ⟨x, hx, heq⟩ := Honors.old_call ht hmem hx'
      exact h.yes reply hmem hack x r hx (heq ▸ hreq)
    · intro t hcommitted
      unfold committedOn at hcommitted
      rw [hsame] at hcommitted ⊢
      exact (h.committed t hcommitted).imp_left fun hd => hd.step ev
  · have hsound := (hwf.sound i)
    refine ⟨?_, ?_⟩
    · intro reply hmem hack x' r hx' hreq
      unfold committedOn
      rw [hserver] at hmem ⊢
      rcases ServerImpl.handle_yes hmem hack with hold | ⟨b, hb, hcall, happlied⟩
      · obtain ⟨x, hx, heq⟩ := Honors.old_call ht hold hx'
        exact committedTids_mono ((s.net.servers i).log_prefix_handle e).subset
          (h.yes reply hold hack x r hx (heq ▸ hreq))
      · -- the call of a batch entry asks for just this entry
        obtain ⟨y, hy, -, -, hentry⟩ := ht.parked i b (List.mem_append_left _ hb)
        obtain ⟨y', hy', hlater⟩ := s.later_step ev hy
        have heq : y' = x' := Option.some.inj (hy'.symm.trans (hcall ▸ hx'))
        have hof : ClientReq.transfer r = .ofEntry b := by
          rw [← (ClientReq.eq_of_entry hentry).2, ← hlater.req, heq, hreq]
        unfold ClientReq.ofEntry at hof
        split at hof
        · cases hof
        · rename_i hintra
          cases hof
          rw [← (ServerImpl.handle_sound hsound e).applied]
          exact happlied (by simpa using hintra)
    · intro t hcommitted
      unfold committedOn at hcommitted
      rw [hserver] at hcommitted ⊢
      rcases ServerImpl.handle_committed hsound.wal (ServerImpl.quiet.own hquiet) hcommitted with
        hold | hdecision | hyes
      · rcases h.committed t hold with hd | ⟨reply, hmem, hyes⟩
        · exact .inl (hd.step ev)
        · exact .inr ⟨reply, (ServerImpl.handle_takes (ht.running i) e).replies hmem, hyes⟩
      · exact .inl ((hdecides t true hdecision).step ev)
      · exact .inr hyes

theorem tells_reach {c : Constants} (hr : Reach System.step (leadersStable leaders) (System.fresh c) s) {i : Int}
    (hi : isLeader c leaders i) : s.Tells i := by
  refine hr.invariant (motive := fun s => s.Tells i) ?_ ?_
  · refine ⟨fun _ hmem => absurd hmem List.not_mem_nil, ?_⟩
    intro t hcommitted
    obtain ⟨x, hx, -⟩ := mem_committedTids.mp hcommitted
    exact absurd hx List.not_mem_nil
  · intro s ev hr h hok
    have hnet := net_reach hr
    refine h.step (tracked_reach hr) (.reach hnet) ?_ hok
    rwa [Net.constants_reach hnet]

end System

/-- **The answer is the outcome.**  In every state of a deployment with stable leaders, a `Transfer` that has been
answered was answered yes iff it has taken effect, and one that has not been answered has not taken effect. -/
theorem transfer_answer_is_outcome (c : Constants) (leaders : List Int) (hleaders : LeaderPerCluster c leaders)
    (s : System) (hr : Reach System.step (System.leadersStable leaders) (System.fresh c) s) (k : Nat) (x : ClientCall)
    (hx : s.calls[k]? = some x) (r : TransferReq) (hreq : x.req = .transfer r) :
    (∀ reply, s.replyTo x.dst k = some reply → (reply.ack = true ↔ s.Settled leaders r)) ∧
      (s.replyTo x.dst k = none → ¬ s.Settled leaders r) := by
  have hconst := Net.constants_reach (System.net_reach hr)
  have hrouted := System.routed_stable hr
  have ht := System.tracked_reach hr
  have hasked : (x.dst, ClientReq.transfer r) ∈ s.requests :=
    List.mem_map.mpr ⟨x, List.mem_of_getElem? hx, by rw [hreq]⟩
  obtain ⟨hsub, hone⟩ := hrouted.transfers _ _ hasked
  have haddressed := System.addressed_reach hleaders hr
  have hdst := haddressed.transfers _ _ hasked
  have hsettled : s.Settled leaders r ↔ s.committedOn x.dst r.tid := by
    rw [System.Settled, if_pos hone, hdst]
  rw [hconst] at hone hdst
  have hleader := (System.account_led hleaders hr hsub (.inl rfl : r.txn.payment.Touches r.txn.sender)).2.1
  rw [← hdst] at hleader
  have htells := System.tells_reach hr hleader
  -- the client decides on transactions between shards only
  have hundecided : ∀ b, ¬ s.Decided r.tid b := by
    intro b hd
    obtain ⟨i, r', hprepare, htid⟩ := hrouted.backed r.tid b hd
    obtain ⟨hsub', htwo⟩ := hrouted.prepares i r' hprepare
    obtain rfl := hrouted.eq_of_tid hsub' hsub htid
    exact absurd hone (hconst ▸ htwo)
  -- a committed transfer was answered yes, as this very call
  have hyes : s.committedOn x.dst r.tid → ∃ reply ∈ (s.net.servers x.dst).replies, reply.ack = true ∧ reply.call = k := by
    intro hcommitted
    rcases htells.committed r.tid hcommitted with hd | ⟨reply, hmem, hack, htid⟩
    · exact absurd hd (hundecided true)
    · have hkey : reply.key ∈ (s.net.servers x.dst).callKeys :=
        List.mem_append_left _ (List.mem_map.mpr ⟨reply, hmem, rfl⟩)
      obtain ⟨y, hy, hydst, -, hytid⟩ := ht.keys x.dst _ hkey
      refine ⟨reply, hmem, hack, ?_⟩
      have hydec : y.req.isDecision = false := by
        cases hyreq : y.req with
        | tpcDecision t b =>
          rw [hyreq] at hytid
          have heq : t = r.tid := hytid.trans htid
          have hd : s.Decided r.tid b :=
            ⟨y.dst, List.mem_map.mpr ⟨y, List.mem_of_getElem? hy, by rw [hyreq, heq]⟩⟩
          exact absurd hd (hundecided b)
        | _ => rfl
      exact haddressed.call_unique hy hx hydec (by rw [hreq]; rfl) hydst (by rw [hytid, hreq]; exact htid)
  refine ⟨?_, ?_⟩
  · intro reply hreply
    obtain ⟨hmem, hcall⟩ := System.replyTo_some hreply
    rw [hsettled]
    constructor
    · intro hack
      exact htells.yes reply hmem hack x r (hcall ▸ hx) hreq
    · intro hcommitted
      obtain ⟨reply', hmem', hack', hcall'⟩ := hyes hcommitted
      have honce := ht.once x.dst
      rw [ServerImpl.callKeys, List.map_append, List.map_map] at honce
      rw [List.inj_on_of_nodup_map (List.nodup_append.mp honce).1 hmem hmem' (hcall.trans hcall'.symm)]
      exact hack'
  · intro hnone
    rw [hsettled]
    intro hcommitted
    obtain ⟨reply, hmem, -, hcall⟩ := hyes hcommitted
    have hno := List.find?_eq_none.mp hnone reply hmem
    simp [hcall] at hno

/-- Two transfers from account 1 reach server 1, which commits the first.  The second is in the next batch, finds
too little left, and is refused. -/
def oneOfTwo : List SysEvent :=
  [.submit [1, 4] ⟨1, 2, 7⟩ 5, .submit [1, 4] ⟨1, 3, 5⟩ 6, .deliver 0, .deliver 1,
   .server (.deliver 0), .server (.complete 0), .server (.deliver 2), .server (.complete 2),
   .server (.deliver 4), .server (.deliver 6), .server (.complete 6)]

theorem transfer_answer_is_outcome_oneOfTwo :
    ((System.run ⟨2, 3⟩ oneOfTwo).replyTo 1 0 = some ⟨0, true, 5⟩ ∧
      (System.run ⟨2, 3⟩ oneOfTwo).Settled [1, 4] ⟨⟨1, 2, 7⟩, 5⟩) ∧
    ((System.run ⟨2, 3⟩ oneOfTwo).replyTo 1 1 = some ⟨1, false, 6⟩ ∧
      ¬ (System.run ⟨2, 3⟩ oneOfTwo).Settled [1, 4] ⟨⟨1, 3, 5⟩, 6⟩) := by
  have hr : Reach System.step (System.leadersStable [1, 4]) (System.fresh ⟨2, 3⟩) (System.run ⟨2, 3⟩ oneOfTwo) :=
    System.reach_run ⟨2, 3⟩ (by decide +kernel)
  have hfirst : (System.run ⟨2, 3⟩ oneOfTwo).replyTo 1 0 = some ⟨0, true, 5⟩ := by decide +kernel
  have hsecond : (System.run ⟨2, 3⟩ oneOfTwo).replyTo 1 1 = some ⟨1, false, 6⟩ := by decide +kernel
  have htold := transfer_answer_is_outcome ⟨2, 3⟩ [1, 4] leaderPerCluster_pair _ hr
  refine ⟨⟨hfirst, ?_⟩, hsecond, ?_⟩
  · have hcall : (System.run ⟨2, 3⟩ oneOfTwo).calls[0]? =
        some ⟨1, .transfer ⟨⟨1, 2, 7⟩, 5⟩, true, false, none⟩ := by decide +kernel
    exact ((htold 0 _ hcall _ rfl).1 _ hfirst).mp rfl
  · have hcall : (System.run ⟨2, 3⟩ oneOfTwo).calls[1]? =
        some ⟨1, .transfer ⟨⟨1, 3, 5⟩, 6⟩, true, false, none⟩ := by decide +kernel
    intro hsettled
    cases ((htold 1 _ hcall _ rfl).1 _ hsecond).mpr hsettled

end MultiPaxosDB
