/-
# MultiPaxosDB.Rounds — what a server knows when it passes a quorum.

The invariant behind `prepare_quorum_integrity` and `ballot_identifies_batch`.  Replies are matched by
ballot number, so everything rests on the numbers: a proposal was won, and no other server can have
won its number; a server that awaits a prepare quorum has proposed nothing under its present number;
and as long as its promise is its own, the prepares it sent under that number carry its present
`paxos_index` — or another server has already won the number, and then no quorum can come.
-/
import MultiPaxosDB.Votes

namespace MultiPaxosDB

open Lib

namespace Net

variable {n : Net} {ev : NetEvent} {i : Int}

theorem Sends.proposal {a : AcceptReq} (h : n.Sends ev i (.accept a)) :
    a = (n.servers i).proposal ∧ ∃ status request response x y,
      n.actor ev = some (i, .prepareReply status request response) ∧
        (n.servers i).awaitPrepareDecision = true ∧
        ServerImpl.CountsPrepare { n.servers i with outbox := [] } status request response x y ∧
        majority ≤ x := by
  obtain ⟨e, dst, hactor, hc⟩ := h.outbox
  obtain ⟨t, hcore, hmem, -⟩ := ((n.servers i).handle_moves e).core_of_sent rfl hc (by simp)
  cases hcore.sent rfl hmem with
  | accept dst x y _ hawait hcount hmaj _ => exact ⟨rfl, _, _, _, x, y, hactor, hawait, hcount, hmaj⟩

theorem Sends.announcement {m : CommitReq} (h : n.Sends ev i (.commit m)) :
    m.ballot = (n.servers i).acceptNum ∧ ∃ status request response x y,
      n.actor ev = some (i, .acceptReply status request response) ∧
        (n.servers i).awaitAcceptDecision = true ∧
        ServerImpl.CountsAccept { n.servers i with outbox := [] } status request response x y ∧
        majority ≤ x := by
  obtain ⟨e, dst, hactor, hc⟩ := h.outbox
  obtain ⟨t, hcore, hmem, -⟩ := ((n.servers i).handle_moves e).core_of_sent rfl hc (by simp)
  cases hcore.sent rfl hmem with
  | commit dst x y _ hawait hcount hmaj => exact ⟨rfl, _, _, _, x, y, hactor, hawait, hcount, hmaj⟩

/-! ## Counted replies -/

/-- The reply that completes a prepare quorum is an acknowledgement of another server. -/
theorem won_of_counts (hwf : n.WellFormed) (hphase : (n.servers i).Phase) {status : Status}
    {request : PrepareReq} {response : PrepareRes} {x y : Nat}
    (hjust : Justified n i (.prepareReply status request response))
    (hawait : (n.servers i).awaitPrepareDecision = true)
    (hcount : ServerImpl.CountsPrepare { n.servers i with outbox := [] } status request response x y)
    (hmaj : majority ≤ x) :
    n.Won i request ∧ request.ballot.num = (n.servers i).promisedNum.num := by
  have hone : (n.servers i).prepareSuccesses = 1 := (hphase.prepare hawait).2.2.1
  obtain ⟨rfl, hans, hack⟩ := hcount.of_majority hone hmaj
  have hnum : response.ballot.num = (n.servers i).promisedNum.num := by
    simp only [ServerImpl.answersPrepare, Bool.and_eq_true, decide_eq_true_eq] at hans
    exact hans.1
  obtain ⟨r, hr, rfl, hreq, hres⟩ := hjust
  have hwfr := hwf.rpcs r hr
  have hans := hwfr.reply _ (hres rfl)
  rw [hreq] at hans
  cases hans with
  | prepare hballot _ _ =>
    rw [hballot] at hnum
    exact ⟨⟨r, hr, rfl, (mem_stubsOf.mp hwfr.dst).2.2, hreq, response, hres rfl, hack⟩, hnum⟩

/-! ## The invariant -/

/-- What the modules below have established for a run with rising ballots. -/
structure Lawful (n : Net) : Prop where
  wf : n.WellFormed
  phase : ∀ i, (n.servers i).Phase
  bound : n.BallotsBound
  once : VotesOnce n.Voted Ballot.num

theorem lawful_reach {c : Constants}
    (hr : Reach Net.step (fun n ev => n.syncRaises ev = true) (Net.fresh c) n) : n.Lawful where
  wf := .reach hr
  phase := phase_reach hr
  bound := ballotsBound_reach hr
  once := votesOnce_reach hr

/-- Server `i`, in state `s`, awaits a prepare quorum: its promise is its own or one it gave to
another server; it has proposed nothing under its present number; and if the promise is its own, the
prepares it sent under it carry its present index, or another server has won the number. -/
structure Awaits (n : Net) (i : Int) (s : ServerImpl) : Prop where
  positive : 0 < s.promisedNum.num
  promise : s.promisedNum.serverId = i ∨ ∃ q, n.Acked i q ∧ q.ballot = s.promisedNum
  fresh : ∀ a, n.Proposed i a → a.ballot.num < s.ballotNum
  index : s.promisedNum.serverId = i →
    (∀ q, n.Issued i q → q.ballot = s.promisedNum → q.paxosIndex = s.ledger.paxosIndex) ∨
      ∃ p a, p ∈ stubsOf n.constants i ∧ n.Proposed p a ∧ a.ballot.num = s.promisedNum.num

/-- What server `j` last accepted was proposed, by itself or by another server of its cluster. -/
def AcceptedFrom (n : Net) (j : Int) (s : ServerImpl) : Prop :=
  s.acceptNum = .zero ∨ ∃ p a, (p = j ∨ p ∈ stubsOf n.constants j) ∧ n.Proposed p a ∧
    a.ballot = s.acceptNum

structure Rounds (n : Net) : Prop where
  nonneg : ∀ i, 0 ≤ (n.servers i).ballotNum
  proposer : ∀ i a, n.Proposed i a → a.ballot.num ≤ (n.servers i).ballotNum ∧
    ∃ q, n.Won i q ∧ q.ballot = a.ballot
  batch : ∀ i a a', n.Proposed i a → n.Proposed i a' → a.ballot.num = a'.ballot.num → a = a'
  accepted : ∀ j, n.AcceptedFrom j (n.servers j)
  quorums : ∀ i, ∀ q ∈ (n.servers i).quorums, n.Won i q
  awaits : ∀ i, (n.servers i).awaitPrepareDecision = true → n.Awaits i (n.servers i)

/-- No two servers of a cluster have proposed under one number. -/
theorem Rounds.proposer_unique (h : n.Rounds) (hl : n.Lawful) (hc : n.constants.clusterSize = 3)
    {i i' : Int} (hi : getClusterIdFromServerId n.constants i = getClusterIdFromServerId n.constants i')
    {a a' : AcceptReq} (ha : n.Proposed i a) (ha' : n.Proposed i' a')
    (hnum : a.ballot.num = a'.ballot.num) : a = a' ∧ i = i' := by
  obtain ⟨-, q, hq, hqa⟩ := h.proposer i a ha
  obtain ⟨-, q', hq', hqa'⟩ := h.proposer i' a' ha'
  have hwin := Won.unique hl.wf hc hl.once hi hq hq' (by rw [hqa, hqa']; exact hnum)
  obtain rfl := hwin.2
  exact ⟨h.batch i a a' ha ha' hnum, rfl⟩

/-- **What a prepare quorum stands for**: the promise is the server's own, and another server has
acknowledged the very prepare it would send now. -/
theorem Rounds.quorum (h : n.Rounds) (hl : n.Lawful) (hc : n.constants.clusterSize = 3)
    (hawait : (n.servers i).awaitPrepareDecision = true) {q : PrepareReq} (hwon : n.Won i q)
    (hnum : q.ballot.num = (n.servers i).promisedNum.num) :
    n.Won i { ballot := (n.servers i).promisedNum, paxosIndex := (n.servers i).ledger.paxosIndex } ∧
      (n.servers i).promisedNum.serverId = i := by
  have haw := h.awaits i hawait
  obtain ⟨hvote, hown, -⟩ := hwon.votes hl.wf
  have hballot : q.ballot = (n.servers i).promisedNum := by
    rcases haw.promise with hself | ⟨q₀, hq₀, hq₀b⟩
    · exact Ballot.ext hnum (hown.trans hself.symm)
    · exact hl.once i _ _ hvote (.inr ⟨q₀, hq₀, hq₀b⟩) hnum
  have hself : (n.servers i).promisedNum.serverId = i := hballot ▸ hown
  refine ⟨?_, hself⟩
  rcases haw.index hself with hidx | ⟨p, a, hp, ha, hanum⟩
  · have hq : q = { ballot := (n.servers i).promisedNum,
                    paxosIndex := (n.servers i).ledger.paxosIndex } := by
      rw [← hballot, ← hidx q hwon.issued hballot]
    rw [← hq]
    exact hwon
  · -- another server won the number, so this one cannot have
    obtain ⟨-, q', hq', hqa'⟩ := h.proposer p a ha
    have hp := mem_stubsOf.mp hp
    have hwin := Won.unique hl.wf hc hl.once hp.2.1 hq' hwon (by rw [hqa', hanum, hnum])
    exact absurd hwin.2 hp.2.2

/-- The quorum that is completed by a counted reply. -/
theorem Rounds.quorum_of_counts (h : n.Rounds) (hl : n.Lawful) (hc : n.constants.clusterSize = 3)
    {status : Status} {request : PrepareReq} {response : PrepareRes} {x y : Nat}
    (hactor : n.actor ev = some (i, .prepareReply status request response))
    (hawait : (n.servers i).awaitPrepareDecision = true)
    (hcount : ServerImpl.CountsPrepare { n.servers i with outbox := [] } status request response x y)
    (hmaj : majority ≤ x) :
    n.Won i { ballot := (n.servers i).promisedNum, paxosIndex := (n.servers i).ledger.paxosIndex } ∧
      (n.servers i).promisedNum.serverId = i := by
  obtain ⟨hwon, hnum⟩ := won_of_counts hl.wf (hl.phase i) (justified hactor) hawait hcount hmaj
  exact h.quorum hl hc hawait hwon hnum

/-! ### One step -/

theorem AcceptedFrom.mono {n' : Net} (hext : n.Extends n') (hconst : n'.constants = n.constants)
    {j : Int} {s t : ServerImpl} (h : n.AcceptedFrom j s) (hsame : t.acceptNum = s.acceptNum) :
    n'.AcceptedFrom j t := by
  rcases h with hzero | ⟨p, a, hp, ha, hab⟩
  · exact .inl (hsame.trans hzero)
  · exact .inr ⟨p, a, hconst ▸ hp, HasSent.mono hext ha, hab.trans hsame.symm⟩

/-- Awaiting survives a change of the history in which the server itself neither issues nor proposes,
as long as its index stands or another server turns out to have won its number. -/
theorem Awaits.mono {n' : Net} (hext : n.Extends n') (hconst : n'.constants = n.constants)
    (hissued : ∀ q, n'.Issued i q → n.Issued i q) (hproposed : ∀ a, n'.Proposed i a → n.Proposed i a)
    {s t : ServerImpl} (h : n.Awaits i s) (hprom : t.promisedNum = s.promisedNum)
    (hnum : t.ballotNum = s.ballotNum)
    (hindex : t.ledger.paxosIndex = s.ledger.paxosIndex ∨
      ∃ p a, p ∈ stubsOf n.constants i ∧ n.Proposed p a ∧ a.ballot.num = s.promisedNum.num) :
    n'.Awaits i t where
  positive := by rw [hprom]; exact h.positive
  promise := by
    rw [hprom]
    rcases h.promise with hself | ⟨q, hq, hqb⟩
    · exact .inl hself
    · exact .inr ⟨q, hq.mono hext, hqb⟩
  fresh := by
    intro a ha
    rw [hnum]
    exact h.fresh a (hproposed a ha)
  index := by
    rw [hprom]
    intro hself
    have hlost : (∃ p a, p ∈ stubsOf n.constants i ∧ n.Proposed p a ∧
        a.ballot.num = s.promisedNum.num) → ∃ p a, p ∈ stubsOf n'.constants i ∧ n'.Proposed p a ∧
        a.ballot.num = s.promisedNum.num := by
      rintro ⟨p, a, hp, ha, hanum⟩
      exact ⟨p, a, hconst ▸ hp, HasSent.mono hext ha, hanum⟩
    rcases h.index hself with hidx | hwon
    · rcases hindex with hsame | hwon
      · refine .inl ?_
        intro q hq hqb
        rw [hsame]
        exact hidx q (hissued q hq) hqb
      · exact .inr (hlost hwon)
    · exact .inr (hlost hwon)

section Step

variable (h : n.Rounds) (hl : n.Lawful) (hc : n.constants.clusterSize = 3)
include h hl hc

/-- A proposal after a step was made before it, or is the present one of a server that has won. -/
theorem Rounds.proposed_step {k : Int} {a : AcceptReq} (ha : (n.step ev).Proposed k a) :
    n.Proposed k a ∨ (a = (n.servers k).proposal ∧ (n.servers k).awaitPrepareDecision = true ∧
      n.Won k { ballot := (n.servers k).promisedNum, paxosIndex := (n.servers k).ledger.paxosIndex }) := by
  rcases hasSent_step ha with hold | hnew
  · exact .inl hold
  · obtain ⟨rfl, status, request, response, x, y, hactor, hawait, hcount, hmaj⟩ := hnew.proposal
    exact .inr ⟨rfl, hawait, (h.quorum_of_counts hl hc hactor hawait hcount hmaj).1⟩

/-- The number of a proposal is not above the number its sender had before the step. -/
theorem Rounds.proposed_le {k : Int} {a : AcceptReq} (ha : (n.step ev).Proposed k a) :
    a.ballot.num ≤ (n.servers k).ballotNum := by
  rcases h.proposed_step hl hc ha with hold | ⟨rfl, hawait, -⟩
  · exact (h.proposer k a hold).1
  · exact ((hl.phase k).prepare hawait).1.ge

omit h hc in
/-- A server that passes its prepare quorum sends its proposal, for it has stubs. -/
theorem Lawful.proposes {e : Event} {t : ServerImpl} (hactor : n.actor ev = some (i, e))
    (hsub : ∀ c ∈ t.outbox, c ∈ ((n.servers i).handle e).outbox)
    (ht : t.outbox = [] ++ (n.servers i).stubs.map fun dst =>
      { dst := dst, req := .accept (n.servers i).proposal }) {q : PrepareReq} (hq : n.Issued i q) :
    (n.step ev).Proposed i (n.servers i).proposal := by
  obtain ⟨r, hr, hsrc, -⟩ := hq
  have hdst : r.dst ∈ (n.servers i).stubs := by
    rw [hl.wf.stubs i, ← hsrc]
    exact (hl.wf.rpcs r hr).dst
  have hcall : ({ dst := r.dst, req := .accept (n.servers i).proposal } : OutCall) ∈ t.outbox := by
    rw [ht]
    exact List.mem_append_right _ (List.mem_map.mpr ⟨r.dst, hdst, rfl⟩)
  exact .of_sends (sends_of_outbox hactor (hsub _ hcall))

theorem Rounds.acceptedFrom_core {e : Event} {t : ServerImpl} (hactor : n.actor ev = some (i, e))
    (hcore : ServerImpl.Core { n.servers i with outbox := [] } e t)
    (hsub : ∀ c ∈ t.outbox, c ∈ ((n.servers i).handle e).outbox) : (n.step ev).AcceptedFrom i t := by
  have hmono : t.acceptNum = (n.servers i).acceptNum → (n.step ev).AcceptedFrom i t := fun hsame =>
    (h.accepted i).mono (n.extends_step ev) (n.constants_step ev) hsame
  cases hcore with
  | accept request =>
    obtain ⟨r, hr, rfl, hreq, -⟩ := justified hactor
    have hwf := hl.wf.rpcs r hr
    refine .inr ⟨r.src, request, .inr ?_, HasSent.mono (n.extends_step ev) ⟨r, hr, rfl, hreq⟩, rfl⟩
    rw [constants_step]
    exact stubsOf_symm hwf.src hwf.dst
  | propose x y hawait hcount hmaj hkept =>
    have hissued := (h.quorum_of_counts hl hc hactor hawait hcount hmaj).1.issued
    exact .inr ⟨i, _, .inl rfl, hl.proposes hactor hsub rfl hissued, rfl⟩
  | _ => exact hmono rfl

theorem Rounds.quorums_core {e : Event} {t : ServerImpl} (hactor : n.actor ev = some (i, e))
    (hcore : ServerImpl.Core { n.servers i with outbox := [] } e t) :
    ∀ q ∈ t.quorums, (n.step ev).Won i q := by
  have hold : ∀ q ∈ (n.servers i).quorums, (n.step ev).Won i q := fun q hq =>
    (h.quorums i q hq).mono (n.extends_step ev)
  cases hcore with
  | reject x y hawait hcount hmaj =>
    intro q hq
    rcases List.mem_append.mp hq with hq | hq
    · exact hold q hq
    · rw [List.mem_singleton.mp hq]
      exact (h.quorum_of_counts hl hc hactor hawait hcount hmaj).1.mono (n.extends_step ev)
  | propose x y hawait hcount hmaj =>
    intro q hq
    rcases List.mem_append.mp hq with hq | hq
    · exact hold q hq
    · rw [List.mem_singleton.mp hq]
      exact (h.quorum_of_counts hl hc hactor hawait hcount hmaj).1.mono (n.extends_step ev)
  | _ => exact hold

/-- A new prepare phase awaits its quorum. -/
theorem Rounds.awaits_reissue {e : Event} {t : ServerImpl} (hactor : n.actor ev = some (i, e))
    (hhandle : (n.servers i).handle e = t.reissuePrepareForCurrent)
    (hid : t.serverId = (n.servers i).serverId) (hle : (n.servers i).ballotNum ≤ t.ballotNum)
    (hno : ∀ c ∈ t.outbox, ∀ request, c.req ≠ .prepare request) :
    (n.step ev).Awaits i t.reissuePrepareForCurrent where
  positive := Int.lt_add_one_of_le ((h.nonneg i).trans hle)
  promise := .inl (hid.trans (hl.wf.serverId i))
  fresh := by
    intro a ha
    exact Int.lt_add_one_of_le ((h.proposed_le hl hc ha).trans hle)
  index := by
    refine fun _ => .inl ?_
    intro q hq hballot
    rcases hasSent_step hq with hold | hnew
    · -- an older prepare has a smaller number
      have hnum : q.ballot.num ≤ (n.servers i).ballotNum := hl.bound.issued i q hold
      have hnext : q.ballot.num = t.ballotNum + 1 := by rw [hballot]; rfl
      omega
    · obtain ⟨e', dst, hactor', hcall⟩ := hnew.outbox
      rw [hactor, Option.some.injEq, Prod.mk.injEq] at hactor'
      obtain ⟨-, rfl⟩ := hactor'
      rw [hhandle] at hcall
      rcases ServerImpl.mem_outbox_reissue hcall with hold | ⟨-, hreq⟩
      · exact absurd rfl (hno _ hold q)
      · obtain rfl := RpcReq.prepare.inj hreq
        rfl

/-- A move that leaves a server awaiting its prepare quorum. -/
theorem Rounds.awaits_core {e : Event} {t : ServerImpl} (hactor : n.actor ev = some (i, e))
    (hhandle : (n.servers i).handle e = t)
    (hcore : ServerImpl.Core { n.servers i with outbox := [] } e t)
    (hawait : t.awaitPrepareDecision = true) : (n.step ev).Awaits i t := by
  have hext := n.extends_step ev
  have hconst := n.constants_step ev
  -- such a move sends neither a prepare nor a proposal
  have hcall : ∀ req, n.Sends ev i req → ∃ c, c.req = req ∧
      ServerImpl.CoreSent { n.servers i with outbox := [] } t e c := by
    intro req hs
    obtain ⟨e', dst, hactor', hmem⟩ := hs.outbox
    rw [hactor, Option.some.injEq, Prod.mk.injEq] at hactor'
    obtain ⟨-, rfl⟩ := hactor'
    rw [hhandle] at hmem
    exact ⟨_, rfl, hcore.sent rfl hmem⟩
  have hissued : ∀ q, (n.step ev).Issued i q → n.Issued i q := by
    intro q hq
    rcases hasSent_step hq with hold | hnew
    · exact hold
    · obtain ⟨c, hreq, hs⟩ := hcall _ hnew
      exact absurd hreq (hs.not_prepare q)
  have hproposed : ∀ a, (n.step ev).Proposed i a → n.Proposed i a := by
    intro a ha
    rcases hasSent_step ha with hold | hnew
    · exact hold
    · obtain ⟨c, hreq, hs⟩ := hcall _ hnew
      cases hs with
      | accept _ _ _ _ _ _ _ hnot => rw [hawait] at hnot; cases hnot
      | _ => cases hreq
  have hkeep : (n.servers i).awaitPrepareDecision = true →
      t.promisedNum = (n.servers i).promisedNum → t.ballotNum = (n.servers i).ballotNum →
      (t.ledger.paxosIndex = (n.servers i).ledger.paxosIndex ∨
        ∃ p a, p ∈ stubsOf n.constants i ∧ n.Proposed p a ∧
          a.ballot.num = (n.servers i).promisedNum.num) → (n.step ev).Awaits i t :=
    fun ha hprom hnum hindex =>
      (h.awaits i ha).mono hext hconst hissued hproposed hprom hnum hindex
  cases hcore with
  | promise request hconn hlt hidx =>
    obtain ⟨r, hr, rfl, hreq, -⟩ := justified hactor
    have hwf := hl.wf.rpcs r hr
    refine ⟨lt_of_le_of_lt (h.nonneg r.dst) hlt, .inr ⟨request, ?_, rfl⟩, ?_, ?_⟩
    · have hcalled : n.actor ev = some (r.dst, callEvent (.prepare request)) := hactor
      obtain ⟨r', hr', hdst', hreq', hres'⟩ := answered_step hcalled
      exact ⟨r', hr', hdst', hreq', _, hres', ServerImpl.processPrepareCall_acks hconn hlt hidx⟩
    · intro a ha
      exact (h.proposed_le hl hc ha).trans_lt hlt
    · intro hself
      exact absurd (hself.symm.trans (hwf.proposer request hreq)) (mem_stubsOf.mp hwf.dst).2.2
  | accept request hconn hacc =>
    obtain ⟨r, hr, rfl, hreq, -⟩ := justified hactor
    have hwf := hl.wf.rpcs r hr
    simp only [ServerImpl.accepts, Bool.and_eq_true, decide_eq_true_eq] at hacc
    exact hkeep hawait rfl rfl
      (.inr ⟨r.src, request, stubsOf_symm hwf.src hwf.dst, ⟨r, hr, rfl, hreq⟩, hacc.2⟩)
  | commit request hconn hcom =>
    simp only [ServerImpl.commits, Bool.and_eq_true, decide_eq_true_eq] at hcom
    obtain ⟨hprom, haccept⟩ := hcom
    refine hkeep hawait rfl rfl (.inr ?_)
    have haw := h.awaits i hawait
    rcases h.accepted i with hzero | ⟨p, a, hp, ha, hab⟩
    · have hpos := haw.positive
      rw [hprom, ← haccept, hzero] at hpos
      exact absurd hpos (by decide)
    · have hanum : a.ballot.num = (n.servers i).promisedNum.num := by
        rw [hab, haccept, hprom]
      rcases hp with rfl | hp
      · -- it has proposed nothing under its present number
        have hlt := haw.fresh a ha
        rw [((hl.phase p).prepare hawait).1, hanum] at hlt
        exact absurd hlt (lt_irrefl _)
      · exact ⟨p, a, hp, ha, hanum⟩
  | decision tid isCommit => exact hkeep hawait rfl rfl (.inl (by simp))
  | sweep => exact hkeep hawait rfl rfl (.inl (by simp))
  | synced response hack hcur => exact absurd hcur ((hl.phase i).prepare hawait).2.1
  | staleLog | reject | propose | abortPrepare | commitRound | abortAccept => cases hawait
  | _ => exact hkeep hawait rfl rfl (.inl rfl)

theorem Rounds.step (hok : n.syncRaises ev = true) : (n.step ev).Rounds := by
  have hext := n.extends_step ev
  have hconst := n.constants_step ev
  have hnum := ballotNum_step hl.wf hl.phase hok
  -- the per-server fields, by cases on who moved and how
  have hlocal : ∀ j, (n.step ev).AcceptedFrom j ((n.step ev).servers j) ∧
      (∀ q ∈ ((n.step ev).servers j).quorums, (n.step ev).Won j q) ∧
      (((n.step ev).servers j).awaitPrepareDecision = true →
        (n.step ev).Awaits j ((n.step ev).servers j)) := by
    have hidle : ∀ j, (∀ e, n.actor ev ≠ some (j, e)) →
        (n.step ev).AcceptedFrom j (n.servers j) ∧
        (∀ q ∈ (n.servers j).quorums, (n.step ev).Won j q) ∧
        ((n.servers j).awaitPrepareDecision = true → (n.step ev).Awaits j (n.servers j)) := by
      intro j hj
      have hsent : ∀ req, (n.step ev).HasSent j req → n.HasSent j req := by
        intro req hreq
        rcases hasSent_step hreq with hold | hnew
        · exact hold
        · obtain ⟨e, dst, hactor, -⟩ := hnew.outbox
          exact absurd hactor (hj e)
      exact ⟨(h.accepted j).mono hext hconst rfl, fun q hq => (h.quorums j q hq).mono hext,
        fun ha => (h.awaits j ha).mono hext hconst (fun q => hsent _) (fun a => hsent _) rfl rfl (.inl rfl)⟩
    intro j
    rcases n.step_cases ev with ⟨hnone, hservers⟩ | ⟨i, e, u, hactor, hmoves, hu, hstep⟩
    · rw [hservers]
      exact hidle j (by simp [hnone])
    · by_cases hj : j = i
      · subst hj
        rw [hstep, servers_after_self, ← hstep]
        have hup := raises hl.wf (hl.phase j) hactor hok
        have hup' : ServerImpl.Raises { n.servers j with outbox := [] } e := ⟨hup.hint, hup.sync⟩
        cases hmoves with
        | done hcore =>
          exact ⟨h.acceptedFrom_core hl hc hactor hcore (by rw [hu]; exact fun c hmem => hmem),
            h.quorums_core hl hc hactor hcore, h.awaits_core hl hc hactor hu hcore⟩
        | @start t hcore =>
          have hsub : ∀ c ∈ t.outbox, c ∈ ((n.servers j).handle e).outbox := by
            rw [hu]
            exact fun c hmem => List.mem_append_left _ hmem
          have hacc : (n.step ev).AcceptedFrom j t := h.acceptedFrom_core hl hc hactor hcore hsub
          have hquo : ∀ q ∈ t.quorums, (n.step ev).Won j q := h.quorums_core hl hc hactor hcore
          refine ⟨hacc, hquo, ?_⟩
          · intro _
            refine h.awaits_reissue hl hc hactor hu hcore.identity.1 (hcore.ballotNum_le hup') ?_
            intro c hmem
            exact (hcore.sent rfl hmem).not_prepare
        | @retry t hpre =>
          have hacc : t.acceptNum = (n.servers j).acceptNum := by cases hpre <;> rfl
          have hquo : t.quorums = (n.servers j).quorums := by cases hpre <;> rfl
          refine ⟨(h.accepted j).mono hext hconst hacc, ?_, ?_⟩
          · intro q hq
            have hq : q ∈ t.quorums := hq
            rw [hquo] at hq
            exact (h.quorums j q hq).mono hext
          · intro _
            refine h.awaits_reissue hl hc hactor hu hpre.identity.1 (hpre.ballotNum_le hup') ?_
            intro c hmem
            rw [hpre.outbox] at hmem
            exact absurd hmem (by simp)
      · rw [hstep, servers_after_ne n ev u hj, ← hstep]
        refine hidle j ?_
        intro e' hactor'
        rw [hactor, Option.some.injEq, Prod.mk.injEq] at hactor'
        exact hj hactor'.1.symm
  refine ⟨?_, ?_, ?_, fun j => (hlocal j).1, fun j => (hlocal j).2.1, fun j => (hlocal j).2.2⟩
  · intro i
    exact (h.nonneg i).trans (hnum i)
  · intro i a ha
    refine ⟨(h.proposed_le hl hc ha).trans (hnum i), ?_⟩
    rcases h.proposed_step hl hc ha with hold | ⟨rfl, -, hwon⟩
    · obtain ⟨-, q, hq, hqa⟩ := h.proposer i a hold
      exact ⟨q, hq.mono hext, hqa⟩
    · exact ⟨_, hwon.mono hext, rfl⟩
  · intro i a a' ha ha' heq
    -- an older proposal has a smaller number than the present one
    have hless : ∀ b, n.Proposed i b → (n.servers i).awaitPrepareDecision = true →
        b.ballot.num < (n.servers i).proposal.ballot.num := by
      intro b hb hawait
      have hlt := (h.awaits i hawait).fresh b hb
      rwa [((hl.phase i).prepare hawait).1] at hlt
    rcases h.proposed_step hl hc ha with hold | ⟨rfl, hawait, -⟩
    · rcases h.proposed_step hl hc ha' with hold' | ⟨rfl, hawait, -⟩
      · exact h.batch i a a' hold hold' heq
      · have := hless a hold hawait
        omega
    · rcases h.proposed_step hl hc ha' with hold' | ⟨rfl, -, -⟩
      · have := hless a' hold' hawait
        omega
      · rfl

end Step

theorem Rounds.fresh (c : Constants) : (Net.fresh c).Rounds where
  nonneg := fun _ => le_rfl
  proposer := by
    rintro i a ⟨r, hr, -⟩
    exact absurd hr List.not_mem_nil
  batch := by
    rintro i a a' ⟨r, hr, -⟩
    exact absurd hr List.not_mem_nil
  accepted := fun _ => .inl rfl
  quorums := by
    intro i q hq
    exact absurd hq List.not_mem_nil
  awaits := by
    intro i h
    cases h

theorem rounds_reach {c : Constants} (hc : c.clusterSize = 3)
    (hr : Reach Net.step (fun n ev => n.syncRaises ev = true) (Net.fresh c) n) : n.Rounds := by
  refine hr.invariant (motive := Rounds) (.fresh c) ?_
  intro n ev hr h hok
  exact h.step (lawful_reach hr) (by rw [constants_reach hr]; exact hc) hok

end Net

/-- **Prepare-quorum integrity.**  In a deployment of clusters of three, in every run in which no
acknowledged sync reply is handled by a server already past its ballot: whenever a server has run
`onPrepareQuorum`, another server has acknowledged a prepare of it with the promised ballot and the
`paxos_index` it had then. -/
theorem prepare_quorum_integrity (c : Constants) (hc : c.clusterSize = 3) (n : Net)
    (hr : Reach Net.step (fun n ev => n.syncRaises ev = true) (Net.fresh c) n) (i : Int) :
    ∀ q ∈ (n.servers i).quorums, n.Won i q :=
  (Net.rounds_reach hc hr).quorums i

/-- Server 1 has passed one prepare quorum in this run, and server 2 had acknowledged its prepare. -/
theorem prepare_quorum_integrity_promiseWhileSyncing :
    ((Net.run ⟨3, 3⟩ promiseWhileSyncing).servers 1).quorums = [⟨⟨1, 1⟩, -1⟩] ∧
      ∀ q ∈ ((Net.run ⟨3, 3⟩ promiseWhileSyncing).servers 1).quorums,
        (Net.run ⟨3, 3⟩ promiseWhileSyncing).Won 1 q :=
  ⟨by decide +kernel, prepare_quorum_integrity ⟨3, 3⟩ rfl (Net.run ⟨3, 3⟩ promiseWhileSyncing)
    (Net.reach_run ⟨3, 3⟩ (by decide +kernel)) 1⟩

/-- Server 3 promises ballot 1 but misses the commit it stands for.  It then asks with ballot 2 at its
old index; server 2, which misses the commit too, acknowledges, while server 1 reports a longer log.
The sync sets server 3 back to ballot 1, so that it asks with ballot 2 again, at its new index — and
now counts the old acknowledgement. -/
def laggingLeader : List NetEvent :=
  [.input 1 (.transfer 0 ⟨⟨1, 2, 5⟩, 1⟩), .deliver 0, .deliver 1, .complete 0, .deliver 2, .complete 2,
   .input 3 (.transfer 1 ⟨⟨3, 4, 5⟩, 2⟩), .deliver 6, .deliver 7, .complete 6, .deliver 8, .complete 8,
   .complete 7]

/-- Server 3 passes its quorum at index 0, and nobody has even answered its prepare at that index. -/
theorem prepare_quorum_of_stale_ack :
    ¬ ∀ (es : List NetEvent) (i : Int),
      ∀ q ∈ ((Net.run ⟨3, 3⟩ es).servers i).quorums, (Net.run ⟨3, 3⟩ es).Won i q := by
  intro h
  have hquorum : (⟨⟨2, 3⟩, 0⟩ : PrepareReq) ∈ ((Net.run ⟨3, 3⟩ laggingLeader).servers 3).quorums := by
    decide +kernel
  have hunanswered : ∀ r ∈ (Net.run ⟨3, 3⟩ laggingLeader).rpcs,
      r.req = .prepare ⟨⟨2, 3⟩, 0⟩ → r.res = none := by
    decide +kernel
  obtain ⟨r, hr, -, -, hreq, p, hres, -⟩ := h laggingLeader 3 _ hquorum
  rw [hunanswered r hr hreq] at hres
  cases hres

end MultiPaxosDB
