/-
# MultiPaxosDB.Agreement — when the replicas of a cluster agree.

The agreed entries of two replicas are compared position by position.  They are the same as long as the
sequences are prefixes of one another, and each handler that extends one keeps that in one of two ways: a
replica that accepts, commits or syncs copies what another server already has (the follower's rule), and
a server that passes a quorum goes beyond everybody (the leader's rule).

Neither is enforced by the code.  A promise does not carry over what was accepted before, so a new leader
may pass its quorum while another server has more entries; a leader that has promised a later ballot to
another server still commits its own round; and a sync reply is cut by raw index and applied whatever
happened since it was asked for.  `keepsAgreement` excludes these steps, and `replicas_agree` proves that
nothing else goes wrong; `competing_leaders_disagree` is a run of six steps that meets the first.  The
proof is for a condition that also lets a promised server sync, if it then accepts nothing under that
promise (`ordered`).
-/
import MultiPaxosDB.History
import MultiPaxosDB.Lib.PrefixChain
import MultiPaxosDB.Sequences

namespace MultiPaxosDB

open Lib

/-- The accounts of the shard of a cluster. -/
def accountsOf (c : Constants) (clusterId : Int) : Int → Bool := fun a => isClientInCluster c a clusterId

namespace Net

variable {n : Net} {ev : NetEvent} {i j : Int}

/-! ## Sequences and shards -/

/-- The agreed entries of a server, in order. -/
def seq (n : Net) (i : Int) : List WALEntry := agreed (n.servers i).ledger.log

/-- The accounts of a server's shard. -/
def shard (n : Net) (i : Int) : Int → Bool := accountsOf n.constants (getClusterIdFromServerId n.constants i)

theorem shard_step (n : Net) (ev : NetEvent) (i : Int) : (n.step ev).shard i = n.shard i := by
  rw [shard, shard, constants_step]

theorem shard_of_stub (h : j ∈ stubsOf n.constants i) : n.shard j = n.shard i := by
  rw [shard, shard, (mem_stubsOf.mp h).2.1]

theorem WellFormed.inShard (h : n.WellFormed) (i : Int) :
    (n.servers i).ledger.isClientInCluster = n.shard i := by
  funext a
  rw [Ledger.isClientInCluster, (h.shard i).1, (h.shard i).2]
  rfl

theorem WellFormed.length_seq (h : n.WellFormed) (i : Int) :
    ((n.seq i).length : Int) = (n.servers i).ledger.paxosIndex + 1 := ((h.sound i).index).symm

theorem agreed_prefix {log log' : List WALEntry} (h : log <+: log') : agreed log <+: agreed log' :=
  h.filter isPaxosEntry

theorem seq_prefix_step (n : Net) (ev : NetEvent) (j : Int) : n.seq j <+: (n.step ev).seq j :=
  agreed_prefix (n.log_prefix_step ev j)

theorem seq_after (n : Net) (ev : NetEvent) (i : Int) (t : ServerImpl) :
    (n.after ev i t).seq = Function.update n.seq i (agreed t.ledger.log) := by
  funext j
  by_cases hj : j = i
  · subst hj
    rw [seq, servers_after_self, Function.update_self]
  · rw [seq, servers_after_ne n ev t hj, Function.update_of_ne hj]
    rfl

/-- The sequences of each cluster are prefixes of one another. -/
def Chained (n : Net) : Prop :=
  ∀ k, PrefixChain (fun j => j ∈ getServersInCluster n.constants k) n.seq

/-- They still are if the sequence of server `i` becomes `xs`. -/
def MayBecome (n : Net) (i : Int) (xs : List WALEntry) : Prop :=
  ∀ k, PrefixChain (fun j => j ∈ getServersInCluster n.constants k) (Function.update n.seq i xs)

/-- What server `i` has by copying: its own sequence, or the beginning of another server's. -/
def Copied (n : Net) (i : Int) (xs : List WALEntry) : Prop :=
  xs = n.seq i ∨ ∃ p ∈ stubsOf n.constants i, xs <+: n.seq p

/-- No other server of the cluster has more agreed entries. -/
def leads (n : Net) (i : Int) : Bool :=
  (stubsOf n.constants i).all fun j =>
    decide ((n.servers j).ledger.paxosIndex ≤ (n.servers i).ledger.paxosIndex)

namespace Chained

variable (h : n.Chained)
include h

theorem same {xs : List WALEntry} (hxs : xs = n.seq i) : n.MayBecome i xs := by
  intro k
  rw [hxs, Function.update_eq_self]
  exact h k

theorem follower (hj : j ∈ stubsOf n.constants i) {xs : List WALEntry} (hxs : xs <+: n.seq j) :
    n.MayBecome i xs := by
  intro k
  refine (h k).update_follower ?_ hxs
  intro hi
  rw [mem_getServersInCluster] at hi ⊢
  have hj := mem_stubsOf.mp hj
  exact ⟨hj.1, hj.2.1.trans hi.2⟩

theorem copied {xs : List WALEntry} (hxs : n.Copied i xs) : n.MayBecome i xs := by
  rcases hxs with hsame | ⟨p, hp, hpre⟩
  · exact h.same hsame
  · exact h.follower hp hpre

theorem leader (hwf : n.WellFormed) (hlead : n.leads i = true) {xs : List WALEntry}
    (hxs : n.seq i <+: xs) : n.MayBecome i xs := by
  intro k
  refine (h k).update_leader ?_ hxs
  intro hi j hj hji
  rw [mem_getServersInCluster] at hi hj
  have hstub : j ∈ stubsOf n.constants i := mem_stubsOf.mpr ⟨hj.1, hj.2.trans hi.2.symm, hji⟩
  have hle : (n.servers j).ledger.paxosIndex ≤ (n.servers i).ledger.paxosIndex := by
    simpa using List.all_eq_true.mp hlead j hstub
  have hleni := hwf.length_seq i
  have hlenj := hwf.length_seq j
  omega

/-- A server that has as many entries as a prefix of another server's has those entries. -/
theorem eq_of_length (hi : i ∈ serverIds n.constants) (hj : j ∈ stubsOf n.constants i)
    {xs : List WALEntry} (hxs : xs <+: n.seq j) (hlen : (n.seq i).length = xs.length) : n.seq i = xs := by
  have hj := mem_stubsOf.mp hj
  have hpre : n.seq i <+: n.seq j := by
    refine (h (getClusterIdFromServerId n.constants i)).le_of_length
      (mem_getServersInCluster.mpr ⟨hi, rfl⟩) (mem_getServersInCluster.mpr ⟨hj.1, hj.2.1⟩) ?_
    rw [hlen]
    exact hxs.length_le
  exact agreed_eq_of_length hpre hxs hlen

/-- A server that has what a batch was proposed after, and its prepares, copies its commits. -/
theorem commits (hi : i ∈ serverIds n.constants) (hj : j ∈ stubsOf n.constants i) {inShard : Int → Bool}
    {a : AcceptReq} {xs : List WALEntry} (hpre : a.commits inShard xs <+: n.seq j)
    (hlen : xs.length ≤ (n.seq i).length) : n.Copied i (a.commits inShard (n.seq i)) := by
  have hcluster := mem_stubsOf.mp hj
  rcases h (getClusterIdFromServerId n.constants i) i j (mem_getServersInCluster.mpr ⟨hi, rfl⟩)
    (mem_getServersInCluster.mpr ⟨hcluster.1, hcluster.2.1⟩) with hle | hge
  · have hstart : xs <+: n.seq i :=
      List.prefix_of_prefix_length_le ((a.prefix_commits inShard xs).trans hpre) hle hlen
    rcases List.prefix_or_prefix_of_prefix hle hpre with hpart | hall
    · refine .inr ⟨j, hj, ?_⟩
      rw [AcceptReq.commits_between hstart hpart]
      exact hpre
    · exact .inl (AcceptReq.commits_of_prefix hall)
  · exact .inl (AcceptReq.commits_of_prefix (hpre.trans hge))

end Chained

/-! ## The condition on a step -/

/-- A server passes a quorum only while no server of its cluster is ahead of it, and an accept quorum
only while it has not promised to another server. -/
def quorumAtFront (n : Net) (ev : NetEvent) : Bool :=
  match n.actor ev with
  | some (i, .prepareReply .ok _ response) =>
    !((n.servers i).awaitPrepareDecision && (n.servers i).answersPrepare response.ballot && response.ack) ||
      n.leads i
  | some (i, .acceptReply .ok _ response) =>
    !((n.servers i).awaitAcceptDecision && (n.servers i).answersAccept response.ballot && response.ack) ||
      (n.leads i && decide ((n.servers i).promisedNum.serverId = i))
  | _ => true

/-- A server handles an acknowledged sync reply only while it is not promised to another server and the
cut falls where its own agreed entries end. -/
def syncAligned (n : Net) (ev : NetEvent) : Bool :=
  match ev with
  | .complete k =>
    match n.rpcs[k]? with
    | some r =>
      match r.req, r.res with
      | .sync q, some (.sync response) =>
        r.done || !response.ack ||
          ((!(n.servers r.src).promised || decide ((n.servers r.src).promisedNum.serverId = r.src)) &&
            decide ((agreed ((n.servers r.dst).ledger.log.take (q.lastInserted + 1).toNat)).length =
              (n.seq r.src).length))
      | _, _ => true
    | none => true
  | _ => true

/-- The conditions on a step under which the replicas keep agreeing. -/
def keepsAgreement (n : Net) (ev : NetEvent) : Prop :=
  ev.Carries (fun k => byShard (accountsOf n.constants k)) n.constants ∧
    n.oneBatchPerNumber ev = true ∧ n.quorumAtFront ev = true ∧ n.syncAligned ev = true

instance (n : Net) (ev : NetEvent) : Decidable (n.keepsAgreement ev) :=
  inferInstanceAs (Decidable (_ ∧ _))

/-- The cut of an acknowledged sync reply falls where the agreed entries of the requester end. -/
def syncCut (n : Net) (ev : NetEvent) : Bool :=
  match ev with
  | .complete k =>
    match n.rpcs[k]? with
    | some r =>
      match r.req, r.res with
      | .sync q, some (.sync response) =>
        r.done || !response.ack ||
          decide ((agreed ((n.servers r.dst).ledger.log.take (q.lastInserted + 1).toNat)).length = (n.seq r.src).length)
      | _, _ => true
    | none => true
  | _ => true

/-- A batch is only accepted by a server that still has the index that the ballot was asked for with: it has not taken
over a log since it promised. -/
def acceptsInPlace (n : Net) (ev : NetEvent) : Bool :=
  match n.actor ev with
  | some (i, .acceptCall request) =>
    (n.servers i).iAmDisconnected || !(n.servers i).accepts request ||
      decide (∃ r ∈ n.rpcs, r.req = .prepare
        { ballot := request.ballot, paxosIndex := (n.servers i).ledger.paxosIndex })
  | _ => true

/-- What a step has to keep to.  That no server takes over a log while it is promised to another one (`free`) is one way
to have every batch accepted in place, and the cuts are what remains to be asked of the syncs otherwise. -/
def ordered (free : Bool) (n : Net) (ev : NetEvent) : Prop :=
  match free with
  | true => n.keepsAgreement ev
  | false => ev.Carries (fun k => byShard (accountsOf n.constants k)) n.constants ∧
      n.oneBatchPerNumber ev = true ∧ n.quorumAtFront ev = true ∧ n.syncCut ev = true ∧ n.acceptsInPlace ev = true

variable {free : Bool}

theorem ordered.carries (h : n.ordered free ev) :
    ev.Carries (fun k => byShard (accountsOf n.constants k)) n.constants := by
  cases free <;> exact h.1

theorem ordered.oneBatch (h : n.ordered free ev) : n.oneBatchPerNumber ev = true := by
  cases free <;> exact h.2.1

theorem ordered.front (h : n.ordered free ev) : n.quorumAtFront ev = true := by
  cases free <;> exact h.2.2.1

theorem ordered.raises (h : n.ordered free ev) : n.syncRaises ev = true := (Bool.and_eq_true _ _ ▸ h.oneBatch).1

theorem ordered.acceptsPromised (h : n.ordered free ev) : n.acceptsPromised ev = true :=
  (Bool.and_eq_true _ _ ▸ h.oneBatch).2

/-! ## What the modules below establish -/

structure Orderly (txnOf : Int → Int → Transaction) (n : Net) : Prop where
  size : n.constants.clusterSize = 3
  lawful : n.Lawful
  rounds : n.Rounds
  batches : n.Batches
  carries : n.Carries fun k => routed (txnOf k) (accountsOf n.constants k)
  entries : n.Entries fun k => routedEntry (txnOf k) (accountsOf n.constants k)
  served : ∀ r ∈ n.rpcs, ∀ q p, r.req = .sync q → r.res = some (.sync p) →
    Served (n.servers r.dst).ledger.log q p
  issuedOnce : ∀ i q q', n.Issued i q → n.Issued i q' → q.ballot.num = q'.ballot.num → q = q'
  acceptsOnce : (acceptsAmong n.calls).Nodup

theorem Orderly.routed {txnOf : Int → Int → Transaction} (h : n.Orderly txnOf) (i : Int) :
    (n.servers i).ledger.Routed (txnOf (getClusterIdFromServerId n.constants i)) (n.shard i) where
  shard := h.lawful.wf.inShard i
  sound := h.lawful.wf.sound i
  entries := h.entries.ledgers i

/-! ## The invariant -/

/-- Server `r` has answered an accept with the ballot `b`. -/
def HasAnswered (n : Net) (r : Int) (b : Ballot) : Prop :=
  ∃ x ∈ n.rpcs, x.dst = r ∧ x.res ≠ none ∧ ∃ a, x.req = .accept a ∧ a.ballot = b

theorem HasAnswered.mono {n' : Net} (hext : n.Extends n') {r : Int} {b : Ballot} (h : n.HasAnswered r b) :
    n'.HasAnswered r b := by
  obtain ⟨x, hx, hdst, hres, a, ha, hballot⟩ := h
  obtain ⟨x', hx', hlater⟩ := hext x hx
  refine ⟨x', hx', hlater.dst.trans hdst, ?_, a, hlater.req.trans ha, hballot⟩
  obtain ⟨res, hres⟩ := Option.ne_none_iff_exists'.mp hres
  rw [hlater.res res hres]
  exact Option.some_ne_none res

/-- Server `r`, in state `s`: as long as its promise to another server stands it has the entries that
server asked with, and those of the batch it has accepted, and has no others before it accepts if syncs
are free of promises; afterwards it has applied that batch.  What it has accepted from another server
came with an RPC that is answered.  And as long as its promise is its own, its open round is at the end
of its sequence. -/
structure Follows (free : Bool) (n : Net) (r : Int) (s : ServerImpl) : Prop where
  promise : s.promised = true → s.promisedNum.serverId ≠ r → ∃ q, n.Acked r q ∧ q.ballot = s.promisedNum ∧
    (q.paxosIndex + 1 + if s.acceptNum.num = s.promisedNum.num then
      ((AcceptReq.prepares (n.shard r) ⟨s.acceptNum, s.acceptBatch⟩).length : Int) else 0) ≤
        (agreed s.ledger.log).length ∧
    (free = true → s.acceptNum.num ≠ s.promisedNum.num → ((agreed s.ledger.log).length : Int) = q.paxosIndex + 1)
  applied : s.promised = false → s.promisedNum.serverId ≠ r → s.acceptNum.num = s.promisedNum.num →
    ∀ x ∈ s.acceptBatch, x.txn.within (n.shard r) = true → x.tid ∈ s.ledger.balanceApplied
  answered : s.promisedNum.serverId ≠ r → s.acceptNum.num = s.promisedNum.num → 0 < s.acceptNum.num →
    n.HasAnswered r s.acceptNum
  round : s.awaitAcceptDecision = true → s.promisedNum.serverId = r → s.acceptNum = s.promisedNum ∧
    s.current ≠ [] ∧ n.Proposed r ⟨s.acceptNum, s.current.map BatchEntry.request⟩ ∧
    ∃ q, n.Issued r q ∧ q.ballot = s.promisedNum ∧ ((agreed s.ledger.log).length : Int) =
      q.paxosIndex + 1 +
        (AcceptReq.prepares (n.shard r) ⟨s.acceptNum, s.current.map BatchEntry.request⟩).length

structure Agreeing (free : Bool) (n : Net) : Prop where
  chained : n.Chained
  proposed : ∀ p a q, n.Proposed p a → n.Issued p q → q.ballot = a.ballot →
    ∃ base : List WALEntry, (base.length : Int) = q.paxosIndex + 1 ∧ base ++ a.prepares (n.shard p) <+: n.seq p
  announced : ∀ p m a q, n.HasSent p (.commit m) → n.Proposed p a → a.ballot.num = m.ballot.num →
    n.Issued p q → q.ballot = a.ballot → ∃ base : List WALEntry, (base.length : Int) = q.paxosIndex + 1 ∧
      a.commits (n.shard p) (base ++ a.prepares (n.shard p)) <+: n.seq p
  follows : ∀ r, n.Follows free r (n.servers r)

/-! ### The state of one server -/

/-- A change that touches neither promise nor round, and leaves the agreed entries alone. -/
theorem Follows.mono {r : Int} {s t : ServerImpl} (h : n.Follows free r s)
    (hprom : t.promised = s.promised) (hpnum : t.promisedNum = s.promisedNum)
    (hacc : t.acceptNum = s.acceptNum) (hbatch : t.acceptBatch = s.acceptBatch)
    (hawait : t.awaitAcceptDecision = s.awaitAcceptDecision) (hcur : t.current = s.current)
    (hseq : agreed t.ledger.log = agreed s.ledger.log)
    (happ : s.ledger.balanceApplied ⊆ t.ledger.balanceApplied) : (n.step ev).Follows free r t where
  promise := by
    rw [hprom, hpnum, hacc, hbatch, hseq, shard_step]
    intro htrue hother
    obtain ⟨q, hq, hrest⟩ := h.promise htrue hother
    exact ⟨q, hq.mono (n.extends_step ev), hrest⟩
  applied := by
    rw [hprom, hpnum, hacc, hbatch, shard_step]
    intro hfalse hother hsame x hx hin
    exact happ (h.applied hfalse hother hsame x hx hin)
  answered := by
    rw [hpnum, hacc]
    intro hother hsame hpos
    exact (h.answered hother hsame hpos).mono (n.extends_step ev)
  round := by
    rw [hpnum, hacc, hawait, hcur, hseq, shard_step]
    intro htrue hself
    obtain ⟨hown, hne, hprop, q, hq, hrest⟩ := h.round htrue hself
    exact ⟨hown, hne, HasSent.mono (n.extends_step ev) hprop, q, HasSent.mono (n.extends_step ev) hq, hrest⟩

/-- The end of a round drops the promise, the batch and the round. -/
theorem Follows.clear {r : Int} {s t : ServerImpl} (h : n.Follows free r s)
    (hprom : t.promised = false) (hpnum : t.promisedNum = s.promisedNum)
    (hacc : t.acceptNum = s.acceptNum) (hbatch : t.acceptBatch = [])
    (hawait : t.awaitAcceptDecision = false) : (n.step ev).Follows free r t where
  promise := by
    rw [hprom]
    intro hfalse
    cases hfalse
  applied := by
    rw [hbatch]
    intro _ _ _ x hx
    exact absurd hx List.not_mem_nil
  answered := by
    rw [hpnum, hacc]
    intro hother hsame hpos
    exact (h.answered hother hsame hpos).mono (n.extends_step ev)
  round := by
    rw [hawait]
    intro hfalse
    cases hfalse

/-- A server that asks for a ballot of its own has no round open and follows nobody. -/
theorem Follows.own {r : Int} {t : ServerImpl} (hown : t.promisedNum.serverId = r)
    (hawait : t.awaitAcceptDecision = false) : n.Follows free r t where
  promise := fun _ hother => absurd hown hother
  applied := fun _ hother => absurd hown hother
  answered := fun hother => absurd hown hother
  round := by
    rw [hawait]
    intro hfalse
    cases hfalse

/-- A replica that has committed has applied the batch. -/
theorem Follows.committed {r : Int} {s t : ServerImpl} (h : n.Follows free r s) {a : AcceptReq}
    (hbatch : a.batch = s.acceptBatch) (hother : s.promisedNum.serverId ≠ r) (hprom : t.promised = false)
    (hpnum : t.promisedNum = s.promisedNum) (hacc : t.acceptNum = s.acceptNum)
    (hkept : t.acceptBatch = s.acceptBatch) (happ : t.ledger.balanceApplied = committedTids t.ledger.log)
    {xs : List WALEntry} (hseq : agreed t.ledger.log = a.commits (n.shard r) xs) : (n.step ev).Follows free r t where
  promise := by
    rw [hprom]
    intro hfalse
    cases hfalse
  applied := by
    rw [hkept, shard_step, happ]
    intro _ _ _ x hx hin
    have hcommitted := AcceptReq.mem_commits xs (hbatch ▸ hx) hin
    rw [← hseq] at hcommitted
    exact committedTids_mono (List.filter_subset_self _) hcommitted
  answered := by
    rw [hpnum, hacc]
    intro _ hsame hpos
    exact (h.answered hother hsame hpos).mono (n.extends_step ev)
  round := by
    rw [hpnum]
    exact fun _ hself => absurd hself hother

/-- A server that takes over a log keeps its promises, and has no round of its own. -/
theorem Follows.synced {r : Int} {s t : ServerImpl} (h : n.Follows free r s) (hcur : s.current = [])
    (hfree : free = true → s.promised = true → s.promisedNum.serverId = r) (hprom : t.promised = s.promised)
    (hpnum : t.promisedNum = s.promisedNum) (hacc : t.acceptNum = s.acceptNum)
    (hbatch : t.acceptBatch = s.acceptBatch) (hawait : t.awaitAcceptDecision = s.awaitAcceptDecision)
    (hlen : (agreed s.ledger.log).length ≤ (agreed t.ledger.log).length)
    (happ : s.ledger.balanceApplied ⊆ t.ledger.balanceApplied) : (n.step ev).Follows free r t where
  promise := by
    rw [hprom, hpnum, hacc, hbatch, shard_step]
    intro htrue hother
    obtain ⟨q, hq, hqb, hle, -⟩ := h.promise htrue hother
    exact ⟨q, hq.mono (n.extends_step ev), hqb, hle.trans (by exact_mod_cast hlen),
      fun htrue' => absurd (hfree htrue' htrue) hother⟩
  applied := by
    rw [hprom, hpnum, hacc, hbatch, shard_step]
    intro hfalse hother hsame x hx hin
    exact happ (h.applied hfalse hother hsame x hx hin)
  answered := by
    rw [hpnum, hacc]
    intro hother hsame hpos
    exact (h.answered hother hsame hpos).mono (n.extends_step ev)
  round := by
    rw [hawait, hpnum]
    intro htrue hself
    exact absurd hcur (h.round htrue hself).2.1

/-! ### The leader's steps -/

section Leader

variable {txnOf : Int → Int → Transaction} (ho : n.Orderly txnOf)
include ho

/-- A server that passes its prepare quorum is in front, and asked for the ballot itself. -/
theorem Orderly.proposes {status : Status} {request : PrepareReq} {response : PrepareRes} {x y : Nat}
    (hactor : n.actor ev = some (i, .prepareReply status request response))
    (hok : n.quorumAtFront ev = true) (hawait : (n.servers i).awaitPrepareDecision = true)
    (hcount : ServerImpl.CountsPrepare { n.servers i with outbox := [] } status request response x y)
    (hmaj : majority ≤ x) :
    n.leads i = true ∧ (n.servers i).promisedNum.serverId = i ∧
      n.Issued i { ballot := (n.servers i).promisedNum, paxosIndex := (n.servers i).ledger.paxosIndex } ∧
      agreed (ServerImpl.admitAll (n.servers i).ledger (n.servers i).promisedNum (n.servers i).current).ledger.log =
        n.seq i ++ (n.servers i).proposal.prepares (n.shard i) := by
  have hone : (n.servers i).prepareSuccesses = 1 := ((ho.lawful.phase i).prepare hawait).2.2.1
  obtain ⟨rfl, hans, hack⟩ := hcount.of_majority hone hmaj
  have hans : (n.servers i).answersPrepare response.ballot = true := hans
  obtain ⟨hwon, hself⟩ := ho.rounds.quorum_of_counts ho.lawful ho.size hactor hawait hcount hmaj
  refine ⟨?_, hself, ?_, ?_⟩
  · simpa [quorumAtFront, hactor, hawait, hans, hack] using hok
  · exact hwon.issued
  · exact ServerImpl.agreed_admitAll _ _ (ho.carries.servers i).current

/-- A server that passes its accept quorum is in front, and its round is the one it proposed last. -/
theorem Orderly.commitsRound {status : Status} {request : AcceptReq} {response : AcceptRes} {x y : Nat}
    (hactor : n.actor ev = some (i, .acceptReply status request response))
    (hok : n.quorumAtFront ev = true) (hawait : (n.servers i).awaitAcceptDecision = true)
    (hcount : ServerImpl.CountsAccept { n.servers i with outbox := [] } status request response x y)
    (hmaj : majority ≤ x) :
    n.leads i = true ∧ (n.servers i).promisedNum.serverId = i ∧
      agreed ((n.servers i).current.foldl (ServerImpl.commitEntry (n.servers i).acceptNum)
        (n.servers i).ledger).log = AcceptReq.commits (n.shard i)
          ⟨(n.servers i).acceptNum, (n.servers i).current.map BatchEntry.request⟩ (n.seq i) := by
  have hone : (n.servers i).acceptSuccesses = 1 := ((ho.lawful.phase i).accept hawait).1
  have hseq := ServerImpl.agreed_foldl_commitEntry (n.servers i).acceptNum (ho.routed i)
    (ho.carries.servers i).current
  cases hcount with
  | acked hans hack =>
    have hans : (n.servers i).answersAccept response.ballot = true := hans
    have hfront : n.leads i = true ∧ (n.servers i).promisedNum.serverId = i := by
      simpa [quorumAtFront, hactor, hawait, hans, hack] using hok
    exact ⟨hfront.1, hfront.2, hseq⟩
  | _ =>
    have hmaj : majority ≤ (n.servers i).acceptSuccesses := hmaj
    rw [hone] at hmaj
    exact absurd hmaj (by decide)

/-- The sequence of a server that sends its proposal in this step. -/
theorem Orderly.seq_of_proposal (hok : n.ordered free ev) {p : Int} {a : AcceptReq}
    (hs : n.Sends ev p (.accept a)) : a = (n.servers p).proposal ∧
      n.Issued p { ballot := (n.servers p).promisedNum, paxosIndex := (n.servers p).ledger.paxosIndex } ∧
      (n.step ev).seq p = n.seq p ++ a.prepares (n.shard p) := by
  obtain ⟨rfl, status, request, response, x, y, hactor, hawait, hcount, hmaj⟩ := hs.proposal
  obtain ⟨-, -, hissued, hseq⟩ := ho.proposes hactor hok.front hawait hcount hmaj
  refine ⟨rfl, hissued, ?_⟩
  obtain ⟨e, dst, hactor', hc⟩ := hs.outbox
  obtain ⟨t, hcore, hmem, hledger⟩ := ((n.servers p).handle_moves e).core_of_sent rfl hc (by simp)
  rw [step_eq_after hactor', seq_after, Function.update_self, hledger, hcore.ledger_of_accept rfl hmem]
  exact hseq

/-- The sequence of a server that announces the end of its round in this step. -/
theorem Orderly.seq_of_announcement (hok : n.ordered free ev) {p : Int} {m : CommitReq}
    (hs : n.Sends ev p (.commit m)) : m.ballot = (n.servers p).acceptNum ∧
      (n.servers p).awaitAcceptDecision = true ∧ (n.servers p).promisedNum.serverId = p ∧
      (n.step ev).seq p = AcceptReq.commits (n.shard p)
        ⟨(n.servers p).acceptNum, (n.servers p).current.map BatchEntry.request⟩ (n.seq p) := by
  obtain ⟨hballot, status, request, response, x, y, hactor, hawait, hcount, hmaj⟩ := hs.announcement
  obtain ⟨-, hself, hseq⟩ := ho.commitsRound hactor hok.front hawait hcount hmaj
  refine ⟨hballot, hawait, hself, ?_⟩
  obtain ⟨e, dst, hactor', hc⟩ := hs.outbox
  obtain ⟨t, hcore, hmem, hledger⟩ := ((n.servers p).handle_moves e).core_of_sent rfl hc (by simp)
  rw [step_eq_after hactor', seq_after, Function.update_self, hledger, hcore.ledger_of_commit rfl hmem]
  exact hseq

/-- The sequence that a replica's Accept leaves. -/
theorem Orderly.seq_accept (i : Int) (request : AcceptReq) :
    agreed (request.batch.foldl (ServerImpl.acceptEntry request.ballot) (n.servers i).ledger).log =
      n.seq i ++ request.prepares (n.shard i) := by
  rw [ServerImpl.agreed_foldl_acceptEntry, ho.lawful.wf.inShard i]
  rfl

/-- The sequence that a replica's Commit leaves. -/
theorem Orderly.seq_commit {a : AcceptReq} (hballot : a.ballot = (n.servers i).acceptNum)
    (hbatch : a.batch = (n.servers i).acceptBatch) :
    agreed ((n.servers i).acceptBatch.foldl (ServerImpl.commitAccepted (n.servers i).acceptNum)
      (n.servers i).ledger).log = a.commits (n.shard i) (n.seq i) := by
  have hkind : ∀ r ∈ a.batch, r.txn = txnOf (getClusterIdFromServerId n.constants i) r.tid := by
    intro r hr
    obtain ⟨isCross, htxn, -⟩ := (ho.carries.servers i).acceptBatch r (hbatch ▸ hr)
    exact htxn
  rw [← hballot, ← hbatch]
  exact ServerImpl.agreed_foldl_commitAccepted a (ho.routed i) hkind

/-- A prepare with the ballot of a proposal was sent before the step. -/
theorem Orderly.issued_before (hok : n.ordered free ev) {p : Int} {a : AcceptReq} {q : PrepareReq}
    (ha : (n.step ev).Proposed p a) (hq : (n.step ev).Issued p q) (hballot : q.ballot = a.ballot) :
    n.Issued p q := by
  have hraise := hok.raises
  rcases hasSent_step hq with hold | hnew
  · exact hold
  · have hle := ho.rounds.proposed_le ho.lawful ho.size ha
    have hlt := (sends_bound ho.lawful.wf ho.lawful.phase hraise hnew).1
    rw [hballot] at hlt
    omega

end Leader

/-! ### The follower's steps -/

/-- What a server acknowledged, the server it promised to had sent. -/
theorem Acked.issued (hwf : n.WellFormed) {r : Int} {q : PrepareReq} (h : n.Acked r q) :
    n.Issued q.ballot.serverId q := by
  obtain ⟨x, hx, -, hreq, -⟩ := h
  exact ⟨x, hx, ((hwf.rpcs x hx).proposer q hreq).symm, hreq⟩

section Step

variable {txnOf : Int → Int → Transaction} (h : n.Agreeing free) (ho : n.Orderly txnOf)
include h ho

/-- **A replica accepts in place**: it has the entries that it promised with, and no others. -/
theorem Agreeing.in_place {request : AcceptReq} (hactor : n.actor ev = some (i, .acceptCall request))
    (hok : n.ordered free ev) (hconn : (n.servers i).iAmDisconnected = false)
    (hacc : (n.servers i).accepts request = true) (hother : request.ballot.serverId ≠ i) :
    ∃ q, n.Acked i q ∧ q.ballot = request.ballot ∧ ((n.seq i).length : Int) = q.paxosIndex + 1 := by
  have hprom := promised_of_acceptsPromised hok.acceptsPromised hactor hconn hacc
  have hcall : n.actor ev = some (i, callEvent (.accept request)) := hactor
  obtain ⟨k, x, rfl, hk, hnone, rfl, hreq⟩ := actor_call hcall
  have hx : x ∈ n.rpcs := List.mem_of_getElem? hk
  rw [← hprom] at hother
  have hpromised : (n.servers x.dst).promised = true := by
    simp only [ServerImpl.accepts, Bool.and_eq_true] at hacc
    exact hacc.1
  obtain ⟨q, hq, hqb, -, hlen⟩ := (h.follows x.dst).promise hpromised hother
  refine ⟨q, hq, hqb.trans hprom, ?_⟩
  cases free with
  | true =>
    refine hlen rfl fun hsame => ?_
    -- the accept of this ballot has not been answered before
    have hown := (ho.batches.holds x.dst).own hsame
    have hpos : 0 < (n.servers x.dst).acceptNum.num := by
      rw [hsame, hprom]
      exact ho.batches.positive x.src request ⟨x, hx, rfl, hreq⟩
    obtain ⟨y, hy, hdst, hres, a, ha, hballot⟩ := (h.follows x.dst).answered hother hsame hpos
    have hxy : y = x := eq_of_accepts ho.acceptsOnce hy hx ha hreq hdst (by rw [hballot, hown, hprom])
    rw [hxy] at hres
    exact hres hnone
  | false =>
    -- the ballot was asked for with one index
    obtain ⟨-, -, -, -, hplace⟩ := hok
    obtain ⟨y, hy, hprepare⟩ : ∃ r ∈ n.rpcs, r.req = .prepare
        { ballot := request.ballot, paxosIndex := (n.servers x.dst).ledger.paxosIndex } := by
      simpa [acceptsInPlace, hactor, hconn, hacc] using hplace
    have hasked : n.Issued request.ballot.serverId _ :=
      ⟨y, hy, ((ho.lawful.wf.rpcs y hy).proposer _ hprepare).symm, hprepare⟩
    have hissued := hq.issued ho.lawful.wf
    rw [hqb, hprom] at hissued
    rw [ho.issuedOnce _ q _ hissued hasked (by rw [hqb, hprom])]
    exact ho.lawful.wf.length_seq x.dst

/-- **An accepted batch is already in the sequence of its proposer**, right after the entries the replica
has: the batch was logged at the index the proposer asked with. -/
theorem Agreeing.accept {request : AcceptReq} (hactor : n.actor ev = some (i, .acceptCall request))
    (hok : n.ordered free ev) (hconn : (n.servers i).iAmDisconnected = false)
    (hacc : (n.servers i).accepts request = true) :
    ∃ p ∈ stubsOf n.constants i, p = request.ballot.serverId ∧ n.seq i ++ request.prepares (n.shard i) <+: n.seq p := by
  obtain ⟨r, hr, rfl, hreq, -⟩ := justified hactor
  have hwf := ho.lawful.wf.rpcs r hr
  have hprop : n.Proposed r.src request := ⟨r, hr, rfl, hreq⟩
  have hsrc : request.ballot.serverId = r.src := ho.rounds.proposal_serverId ho.lawful hprop
  have hstub : r.src ∈ stubsOf n.constants r.dst := stubsOf_symm hwf.src hwf.dst
  obtain ⟨q, hq, hqb, hlen⟩ := h.in_place ho hactor hok hconn hacc (hsrc ▸ (mem_stubsOf.mp hstub).2.2)
  have hissued := hq.issued ho.lawful.wf
  rw [hqb, hsrc] at hissued
  obtain ⟨base, hbase, hpre⟩ := h.proposed r.src request q hprop hissued hqb
  have heq : n.seq r.dst = base := by
    refine h.chained.eq_of_length (mem_stubsOf.mp hwf.dst).1 hstub ((List.prefix_append _ _).trans hpre) ?_
    omega
  refine ⟨r.src, hstub, hsrc.symm, ?_⟩
  rw [heq, ← shard_of_stub hstub]
  exact hpre

/-- **A committed batch is already in the sequence of its proposer** — or in the replica's own, if it was
committed before. -/
theorem Agreeing.commit {m : CommitReq} (hactor : n.actor ev = some (i, .commitCall m))
    (hcom : (n.servers i).commits m = true) :
    ∃ a : AcceptReq, a.ballot = (n.servers i).acceptNum ∧ a.batch = (n.servers i).acceptBatch ∧
      (n.servers i).promisedNum.serverId ≠ i ∧ n.Copied i (a.commits (n.shard i) (n.seq i)) := by
  have hcall : n.actor ev = some (i, callEvent (.commit m)) := hactor
  obtain ⟨k, x, rfl, hk, -, rfl, hreq⟩ := actor_call hcall
  have hx : x ∈ n.rpcs := List.mem_of_getElem? hk
  have hwf := ho.lawful.wf.rpcs x hx
  have hstub : x.src ∈ stubsOf n.constants x.dst := stubsOf_symm hwf.src hwf.dst
  have hsent : n.HasSent x.src (.commit m) := ⟨x, hx, rfl, hreq⟩
  obtain ⟨a, ha, hnum, hballot, hbatch⟩ := ho.batches.held_of_commits ho.rounds ho.lawful ho.size hstub hsent hcom
  have hsrc : a.ballot.serverId = x.src := ho.rounds.proposal_serverId ho.lawful ha
  simp only [ServerImpl.commits, Bool.and_eq_true, decide_eq_true_eq] at hcom
  have hsame : (n.servers x.dst).acceptNum.num = (n.servers x.dst).promisedNum.num :=
    hcom.2.trans hcom.1.symm
  have hown : (n.servers x.dst).promisedNum = a.ballot :=
    ((ho.batches.holds x.dst).own hsame).symm.trans hballot.symm
  have hother : (n.servers x.dst).promisedNum.serverId ≠ x.dst := by
    rw [hown, hsrc]
    exact (mem_stubsOf.mp hstub).2.2
  refine ⟨a, hballot, hbatch, hother, ?_⟩
  by_cases hprom : (n.servers x.dst).promised = true
  · obtain ⟨q, hq, hqb, hlen, -⟩ := (h.follows x.dst).promise hprom hother
    rw [if_pos hsame, ← hballot, ← hbatch] at hlen
    have hissued : n.Issued x.src q := by
      have hsent := hq.issued ho.lawful.wf
      rwa [hqb, hown, hsrc] at hsent
    obtain ⟨base, hbase, hpre⟩ :=
      h.announced x.src m a q hsent ha hnum hissued (hqb.trans hown)
    rw [shard_of_stub hstub] at hpre
    refine h.chained.commits (mem_stubsOf.mp hwf.dst).1 hstub hpre ?_
    have hlen : q.paxosIndex + 1 + (a.prepares (n.shard x.dst)).length ≤ ((n.seq x.dst).length : Int) := hlen
    rw [List.length_append]
    omega
  · refine .inl (AcceptReq.commits_of_mem ?_)
    intro r hr hin
    rw [hbatch] at hr
    obtain ⟨isCross, htxn, -⟩ := (ho.carries.servers x.dst).acceptBatch r hr
    exact ((ho.routed x.dst).mem_applied_iff htxn hin).mp
      ((h.follows x.dst).applied (Bool.not_eq_true _ ▸ hprom) hother hsame r hr hin)

omit h ho in
/-- What the condition on a step asks of a sync. -/
theorem ordered.sync {response : SyncRes} (hactor : n.actor ev = some (i, .syncReply .ok response))
    (hack : response.ack = true) (hok : n.ordered free ev) : ∃ x ∈ n.rpcs, ∃ q, x.src = i ∧ x.req = .sync q ∧
      x.res = some (.sync response) ∧
      (agreed ((n.servers x.dst).ledger.log.take (q.lastInserted + 1).toNat)).length = (n.seq i).length ∧
      (free = true → (n.servers i).promised = true → (n.servers i).promisedNum.serverId = i) := by
  obtain ⟨k, x, q, rfl, hk, rfl, hreq, hres, hdone⟩ := actor_syncReply hactor
  refine ⟨x, List.mem_of_getElem? hk, q, rfl, hreq, hres, ?_⟩
  cases free with
  | true =>
    have haligned := hok.2.2.2
    simp only [syncAligned, hk, hreq, hres, hdone, hack, Bool.not_true, Bool.false_or, Bool.and_eq_true,
      Bool.or_eq_true, decide_eq_true_eq] at haligned
    refine ⟨haligned.2, fun _ hprom => ?_⟩
    rcases haligned.1 with hfree | hself
    · rw [hprom] at hfree
      cases hfree
    · exact hself
  | false =>
    have hcut := hok.2.2.2.1
    simp only [syncCut, hk, hreq, hres, hdone, hack, Bool.not_true, Bool.false_or, decide_eq_true_eq] at hcut
    exact ⟨hcut, fun hfalse => (by cases hfalse)⟩

/-- **A synced log continues the requester's sequence as the responder's**, if the cut is where the
requester's agreed entries end. -/
theorem Agreeing.synced {response : SyncRes} (hactor : n.actor ev = some (i, .syncReply .ok response))
    (hack : response.ack = true) (hok : n.ordered free ev) :
    n.Copied i (agreed ((n.servers i).ledger.applySync response).log) := by
  obtain ⟨x, hx, q, rfl, hreq, hres, hcut, -⟩ := hok.sync hactor hack
  have hwf := ho.lawful.wf.rpcs x hx
  rw [Ledger.log_applySync, agreed_append]
  rcases ho.served x hx q response hreq hres with hnil | ⟨old, hold, hlogs⟩
  · left
    rw [hnil]
    exact List.append_nil _
  · rw [hlogs]
    by_cases hle : (q.lastInserted + 1).toNat ≤ old.length
    · have htake : (n.servers x.dst).ledger.log.take (q.lastInserted + 1).toNat =
          old.take (q.lastInserted + 1).toNat := by
        obtain ⟨rest, hrest⟩ := hold
        rw [← hrest, List.take_append_of_le_length hle]
      have hpre : agreed (old.take (q.lastInserted + 1).toNat) <+: n.seq x.dst :=
        agreed_prefix ((List.take_prefix _ _).trans hold)
      have heq : n.seq x.src = agreed (old.take (q.lastInserted + 1).toNat) := by
        refine h.chained.eq_of_length hwf.src hwf.dst hpre ?_
        rw [← htake]
        exact hcut.symm
      refine .inr ⟨x.dst, hwf.dst, ?_⟩
      show n.seq x.src ++ _ <+: _
      rw [heq, ← agreed_append, List.take_append_drop]
      exact agreed_prefix hold
    · left
      rw [List.drop_of_length_le (by omega)]
      exact List.append_nil _

/-! ### The state that a move leaves -/

section Follows

variable {t : ServerImpl}

omit h in
/-- A promise to another server is made with the entries that the server asked for. -/
theorem Follows.promised {request : PrepareReq} (hactor : n.actor ev = some (i, .prepareCall request))
    (hconn : (n.servers i).iAmDisconnected = false) (hlt : (n.servers i).ballotNum < request.ballot.num)
    (hidx : request.paxosIndex = (n.servers i).ledger.paxosIndex) (hprom : t.promised = true)
    (hpnum : t.promisedNum = request.ballot) (hacc : t.acceptNum = (n.servers i).acceptNum)
    (hledger : t.ledger = (n.servers i).ledger) : (n.step ev).Follows free i t := by
  have hcall : n.actor ev = some (i, callEvent (.prepare request)) := hactor
  obtain ⟨r, hr, rfl, hreq, -⟩ := justified hactor
  have hwf := ho.lawful.wf.rpcs r hr
  have hother : t.promisedNum.serverId ≠ r.dst := by
    rw [hpnum, hwf.proposer request hreq]
    exact fun hself => (mem_stubsOf.mp hwf.dst).2.2 hself.symm
  -- nothing has been accepted under a ballot this high
  have hnew : t.acceptNum.num ≠ t.promisedNum.num := by
    have hlow := (ho.batches.holds r.dst).low.2
    rw [hacc, hpnum]
    omega
  have hacked : (n.step ev).Acked r.dst request := by
    obtain ⟨r', hr', hdst', hreq', hres'⟩ := answered_step hcall
    exact ⟨r', hr', hdst', hreq', _, hres', ServerImpl.processPrepareCall_acks hconn hlt hidx⟩
  have hlen : ((agreed t.ledger.log).length : Int) = request.paxosIndex + 1 := by
    rw [hidx, hledger]
    exact ho.lawful.wf.length_seq r.dst
  refine ⟨fun _ _ => ⟨request, hacked, hpnum.symm, ?_, fun _ _ => hlen⟩, ?_, fun _ hnum => absurd hnum hnew,
    fun _ hself => absurd hself hother⟩
  · rw [if_neg hnew, add_zero]
    exact hlen.ge
  · rw [hprom]
    intro hfalse
    cases hfalse

/-- A replica that has accepted has the entries of the batch as well. -/
theorem Agreeing.follows_accept {request : AcceptReq} (hactor : n.actor ev = some (i, .acceptCall request))
    (hok : n.ordered free ev) (hconn : (n.servers i).iAmDisconnected = false)
    (hacc : (n.servers i).accepts request = true) (hother : request.ballot.serverId ≠ i)
    (hprom : t.promised = true) (hpnum : t.promisedNum = request.ballot) (hnum : t.acceptNum = request.ballot)
    (hbatch : t.acceptBatch = request.batch)
    (hseq : agreed t.ledger.log = n.seq i ++ request.prepares (n.shard i)) : (n.step ev).Follows free i t := by
  have hcall : n.actor ev = some (i, callEvent (.accept request)) := hactor
  obtain ⟨q, hq, hqb, hlen⟩ := h.in_place ho hactor hok hconn hacc hother
  have hsame : t.acceptNum.num = t.promisedNum.num := by rw [hnum, hpnum]
  refine ⟨fun _ _ => ?_, ?_, fun _ _ _ => ?_, fun _ hself => absurd (hpnum ▸ hself) hother⟩
  · refine ⟨q, hq.mono (n.extends_step ev), hqb.trans hpnum.symm, ?_, fun _ hne => absurd hsame hne⟩
    rw [if_pos hsame, hseq, shard_step, hnum, hbatch, List.length_append]
    show _ + ((request.prepares (n.shard i)).length : Int) ≤ _
    omega
  · rw [hprom]
    intro hfalse
    cases hfalse
  · obtain ⟨x, hx, hdst, hreq, hres⟩ := answered_step hcall
    exact ⟨x, hx, hdst, by rw [hres]; exact Option.some_ne_none _, request, hreq, hnum.symm⟩

omit h in
/-- A server that proposes has its round at the end of its sequence. -/
theorem Follows.proposed (hissued : n.Issued i
      { ballot := (n.servers i).promisedNum, paxosIndex := (n.servers i).ledger.paxosIndex })
    (hself : t.promisedNum.serverId = i) (hpnum : t.promisedNum = (n.servers i).promisedNum)
    (hnum : t.acceptNum = t.promisedNum) (hne : t.current ≠ [])
    (hsent : (n.step ev).Proposed i (n.servers i).proposal)
    (hround : ⟨t.acceptNum, t.current.map BatchEntry.request⟩ = (n.servers i).proposal)
    (hseq : agreed t.ledger.log = n.seq i ++ (n.servers i).proposal.prepares (n.shard i)) :
    (n.step ev).Follows free i t := by
  refine ⟨fun _ hother => absurd hself hother, fun _ hother => absurd hself hother,
    fun hother => absurd hself hother, fun _ _ => ⟨hnum, hne, ?_, ?_⟩⟩
  · rw [hround]
    exact hsent
  · refine ⟨_, HasSent.mono (n.extends_step ev) hissued, hpnum.symm, ?_⟩
    rw [hround, hseq, shard_step, List.length_append]
    have hlen := ho.lawful.wf.length_seq i
    push_cast
    omega

end Follows

/-! ### One move -/

theorem Agreeing.core {e : Event} {t : ServerImpl} (hactor : n.actor ev = some (i, e))
    (hok : n.ordered free ev) (hcore : ServerImpl.Core { n.servers i with outbox := [] } e t)
    (hsub : ∀ c ∈ t.outbox, c ∈ ((n.servers i).handle e).outbox) :
    n.MayBecome i (agreed t.ledger.log) ∧ (n.step ev).Follows free i t := by
  have hfront := hok.front
  have hsound := ho.lawful.wf.sound i
  have hfollows := h.follows i
  have hsame : n.MayBecome i (agreed (n.servers i).ledger.log) := h.chained.same rfl
  have hgrown := hcore.grows hsound
  have happlied : (n.servers i).ledger.balanceApplied ⊆ t.ledger.balanceApplied := hcore.applied_subset hsound
  cases hcore with
  | decision tid isCommit =>
    have hseq : agreed ((n.servers i).ledger.processTpcDecision tid isCommit).log = n.seq i :=
      Ledger.agreed_processTpcDecision hsound.wal tid isCommit
    exact ⟨h.chained.same hseq, hfollows.mono rfl rfl rfl rfl rfl rfl hseq happlied⟩
  | sweep =>
    have hseq : agreed (n.servers i).ledger.sweep.log = n.seq i := Ledger.agreed_sweep hsound.wal
    exact ⟨h.chained.same hseq, hfollows.mono rfl rfl rfl rfl rfl rfl hseq happlied⟩
  | promise request hconn hlt hidx => exact ⟨hsame, .promised ho hactor hconn hlt hidx rfl rfl rfl rfl⟩
  | accept request hconn hacc =>
    obtain ⟨p, hp, rfl, hpre⟩ := h.accept ho hactor hok hconn hacc
    have hseq := ho.seq_accept i request
    have hpnum := promised_of_acceptsPromised hok.acceptsPromised hactor hconn hacc
    have hpromised := hacc
    simp only [ServerImpl.accepts, Bool.and_eq_true] at hpromised
    exact ⟨h.chained.follower hp (hseq ▸ hpre),
      h.follows_accept ho hactor hok hconn hacc (mem_stubsOf.mp hp).2.2 hpromised.1 hpnum rfl rfl hseq⟩
  | commit request hconn hcom =>
    obtain ⟨a, hballot, hbatch, hother, hcopied⟩ := h.commit ho hactor hcom
    have hseq := ho.seq_commit hballot hbatch
    exact ⟨h.chained.copied (hseq ▸ hcopied),
      hfollows.committed hbatch hother rfl rfl rfl rfl hgrown.1.applied hseq⟩
  | reject x y hawait hcount hmaj hempty =>
    obtain ⟨-, -, -, hseq⟩ := ho.proposes hactor hfront hawait hcount hmaj
    refine ⟨h.chained.same ?_, hfollows.clear rfl rfl rfl rfl rfl⟩
    have hkept : (n.servers i).proposal.batch = [] := congrArg (List.map BatchEntry.request) hempty
    show agreed (ServerImpl.admitAll (n.servers i).ledger (n.servers i).promisedNum
      (n.servers i).current).ledger.log = n.seq i
    rw [hseq, AcceptReq.prepares, hkept]
    exact List.append_nil _
  | propose x y hawait hcount hmaj hkept =>
    obtain ⟨hlead, hself, hissued, hseq⟩ := ho.proposes hactor hfront hawait hcount hmaj
    exact ⟨h.chained.leader ho.lawful.wf hlead (hseq ▸ List.prefix_append _ _),
      .proposed ho hissued hself rfl rfl hkept (ho.lawful.proposes hactor hsub rfl hissued) rfl hseq⟩
  | abortPrepare x y hawait hcount hmaj =>
    refine ⟨h.chained.same ?_, hfollows.clear rfl rfl rfl rfl rfl⟩
    exact congrArg agreed (ServerImpl.log_foldl_releaseEntry true _ _)
  | commitRound x y hawait hcount hmaj =>
    obtain ⟨hlead, -, hseq⟩ := ho.commitsRound hactor hfront hawait hcount hmaj
    refine ⟨h.chained.leader ho.lawful.wf hlead ?_, hfollows.clear rfl rfl rfl rfl rfl⟩
    show n.seq i <+: agreed ((n.servers i).current.foldl
      (ServerImpl.commitEntry (n.servers i).acceptNum) (n.servers i).ledger).log
    rw [hseq]
    exact AcceptReq.prefix_commits _ _ _
  | abortAccept x y hawait hcount hmaj =>
    refine ⟨h.chained.same ?_, hfollows.clear rfl rfl rfl rfl rfl⟩
    exact congrArg agreed (ServerImpl.log_foldl_releaseEntry false _ _)
  | synced response hack hcur =>
    obtain ⟨-, -, -, -, -, -, -, hfree⟩ := hok.sync hactor hack
    exact ⟨h.chained.copied (h.synced ho hactor hack hok),
      hfollows.synced hcur hfree rfl rfl rfl rfl rfl ( agreed_prefix hgrown.2).length_le happlied⟩
  | _ => exact ⟨hsame, hfollows.mono rfl rfl rfl rfl rfl rfl rfl (Finset.Subset.refl _)⟩

/-- The acting server, after the whole event. -/
theorem Agreeing.acting {e : Event} {u : ServerImpl} (hactor : n.actor ev = some (i, e))
    (hok : n.ordered free ev) (hmoves : ServerImpl.Moves { n.servers i with outbox := [] } e u)
    (hu : (n.servers i).handle e = u) :
    n.MayBecome i (agreed u.ledger.log) ∧ (n.step ev).Follows free i u := by
  cases hmoves with
  | done hcore => exact h.core ho hactor hok hcore (by rw [hu]; exact fun c hc => hc)
  | @start t hcore =>
    have hsub : ∀ c ∈ t.outbox, c ∈ ((n.servers i).handle e).outbox := by
      rw [hu]
      exact fun c hc => List.mem_append_left _ hc
    have hown : t.serverId = i := hcore.identity.1.trans (ho.lawful.wf.serverId i)
    exact ⟨(h.core ho hactor hok hcore hsub).1, .own hown rfl⟩
  | @retry t hpre =>
    have hown : t.serverId = i := hpre.identity.1.trans (ho.lawful.wf.serverId i)
    refine ⟨?_, .own hown rfl⟩
    cases hpre with
    | staleBallot => exact h.chained.same rfl
    | notSynced => exact h.chained.same rfl
    | synced response hack => exact h.chained.copied (h.synced ho hactor hack hok)

/-! ### One step -/

/-- An older proposal stands where it stood; a new one is at the end of its proposer's sequence. -/
theorem Agreeing.proposed_step (hok : n.ordered free ev) {p : Int} {a : AcceptReq} {q : PrepareReq}
    (ha : (n.step ev).Proposed p a) (hq : (n.step ev).Issued p q) (hballot : q.ballot = a.ballot) :
    ∃ base : List WALEntry, (base.length : Int) = q.paxosIndex + 1 ∧
      base ++ a.prepares (n.shard p) <+: (n.step ev).seq p := by
  have hissued := ho.issued_before hok ha hq hballot
  rcases hasSent_step ha with hold | hnew
  · obtain ⟨base, hbase, hpre⟩ := h.proposed p a q hold hissued hballot
    exact ⟨base, hbase, hpre.trans (n.seq_prefix_step ev p)⟩
  · obtain ⟨rfl, hasked, hseq⟩ := ho.seq_of_proposal hok hnew
    have heq := ho.issuedOnce p q _ hissued hasked (congrArg Ballot.num hballot)
    refine ⟨n.seq p, ?_, by rw [hseq]⟩
    rw [heq]
    exact ho.lawful.wf.length_seq p

/-- An announced batch is committed right where it was proposed. -/
theorem Agreeing.announced_step (hok : n.ordered free ev) {p : Int} {m : CommitReq} {a : AcceptReq}
    {q : PrepareReq} (hm : (n.step ev).HasSent p (.commit m)) (ha : (n.step ev).Proposed p a)
    (hnum : a.ballot.num = m.ballot.num) (hq : (n.step ev).Issued p q) (hballot : q.ballot = a.ballot) :
    ∃ base : List WALEntry, (base.length : Int) = q.paxosIndex + 1 ∧
      a.commits (n.shard p) (base ++ a.prepares (n.shard p)) <+: (n.step ev).seq p := by
  have hraise := hok.raises
  have hissued := ho.issued_before hok ha hq hballot
  -- the batch of the announcement was proposed before the step, and there is one batch per number
  have hbatch : ∀ b, n.Proposed p b → a.ballot.num = b.ballot.num → a = b := fun b hb heq =>
    (ho.rounds.step ho.lawful ho.size hraise).batch p a b ha (HasSent.mono (n.extends_step ev) hb) heq
  rcases hasSent_step hm with hold | hnew
  · obtain ⟨b, hb, hbnum⟩ := ho.batches.announced p m hold
    obtain rfl := hbatch b hb (hnum.trans hbnum.symm)
    obtain ⟨base, hbase, hpre⟩ := h.announced p m a q hold hb hnum hissued hballot
    exact ⟨base, hbase, hpre.trans (n.seq_prefix_step ev p)⟩
  · obtain ⟨hmballot, hawait, hself, hseq⟩ := ho.seq_of_announcement hok hnew
    obtain ⟨hown, -, hprop, q', hq', hq'b, hlen⟩ := (h.follows p).round hawait hself
    obtain rfl := hbatch _ hprop (hnum.trans (congrArg Ballot.num hmballot))
    obtain rfl := ho.issuedOnce p q q' hissued hq' (by rw [hballot, hq'b, ← hown])
    obtain ⟨base, hbase, hpre⟩ := h.proposed p _ q hprop hissued hballot
    have hend : base ++ AcceptReq.prepares (n.shard p)
        ⟨(n.servers p).acceptNum, (n.servers p).current.map BatchEntry.request⟩ = n.seq p := by
      refine hpre.eq_of_length ?_
      have hlen : ((n.seq p).length : Int) = _ := hlen
      rw [List.length_append]
      omega
    exact ⟨base, hbase, by rw [hend, hseq]⟩

theorem Agreeing.step (hok : n.ordered free ev) : (n.step ev).Agreeing free where
  chained := by
    rcases n.step_cases ev with ⟨-, hservers⟩ | ⟨i, e, u, hactor, hmoves, hu, hstep⟩
    · intro k
      have hseq : (n.step ev).seq = n.seq := by
        funext j
        rw [seq, hservers]
        rfl
      rw [hseq, constants_step]
      exact h.chained k
    · intro k
      rw [hstep, seq_after]
      exact (h.acting ho hactor hok hmoves hu).1 k
  proposed := by
    intro p a q ha hq hballot
    rw [shard_step]
    exact h.proposed_step ho hok ha hq hballot
  announced := by
    intro p m a q hm ha hnum hq hballot
    rw [shard_step]
    exact h.announced_step ho hok hm ha hnum hq hballot
  follows := by
    have hidle : ∀ r, (n.step ev).Follows free r (n.servers r) := fun r =>
      (h.follows r).mono rfl rfl rfl rfl rfl rfl rfl (Finset.Subset.refl _)
    rcases n.step_cases ev with ⟨-, hservers⟩ | ⟨i, e, u, hactor, hmoves, hu, hstep⟩
    · rw [hservers]
      exact hidle
    · have hself := (h.acting ho hactor hok hmoves hu).2
      intro r
      by_cases hr : r = i
      · subst hr
        rw [hstep, servers_after_self, ← hstep]
        exact hself
      · rw [hstep, servers_after_ne n ev u hr, ← hstep]
        exact hidle r

end Step

theorem Agreeing.fresh (c : Constants) : (Net.fresh c).Agreeing free where
  chained := fun _ _ _ _ _ => .inl (List.prefix_refl _)
  proposed := by
    rintro p a q ⟨r, hr, -⟩
    exact absurd hr List.not_mem_nil
  announced := by
    rintro p m a q ⟨r, hr, -⟩
    exact absurd hr List.not_mem_nil
  follows := by
    intro r
    refine ⟨(by intro hfalse; cases hfalse), ?_, ?_, (by intro hfalse; cases hfalse)⟩
    · intro _ _ _ x hx
      exact absurd hx List.not_mem_nil
    · intro _ _ hpos
      exact absurd hpos (lt_irrefl 0)

section Reach

variable {c : Constants} {txnOf : Int → Int → Transaction}

/-- The requests come by their shards, and with the transaction of their tid. -/
theorem carries_routed {ev : NetEvent} (hshard : ev.Carries (fun k => byShard (accountsOf c k)) c)
    (htxn : ev.Carries (fun k _ t txn => txn = txnOf k t) c) :
    ev.Carries (fun k => routed (txnOf k) (accountsOf c k)) c := by
  cases ev with
  | input i x =>
    cases x with
    | transfer call request => exact ⟨htxn, hshard⟩
    | tpcPrepare call request => exact ⟨htxn, hshard⟩
    | _ => trivial
  | _ => trivial

/-- So do all requests on the servers and on the wire, and the entries they are logged as. -/
theorem routed_reach {ok : Net → NetEvent → Prop}
    (hok : ∀ n ev, ok n ev → ev.Carries (fun k => byShard (accountsOf n.constants k)) n.constants ∧
      ev.Carries (fun k _ t txn => txn = txnOf k t) c)
    (hr : Reach Net.step ok (Net.fresh c) n) :
    n.Carries (fun k => routed (txnOf k) (accountsOf c k)) ∧
      n.Entries (fun k => routedEntry (txnOf k) (accountsOf c k)) := by
  refine hr.invariant (motive := fun n => Net.Carries _ n ∧ Net.Entries _ n)
    ⟨Net.Carries.fresh c, Net.Entries.fresh c⟩ ?_
  rintro n ev hr ⟨hcarries, hentries⟩ hev
  have hwf : n.WellFormed := .reach hr
  have hconst := constants_reach hr
  obtain ⟨hshard, htxn⟩ := hok n ev hev
  have hreq : ev.Carries (fun k => routed (txnOf k) (accountsOf c k)) n.constants := by
    rw [hconst] at hshard ⊢
    exact carries_routed hshard htxn
  refine ⟨hcarries.step hwf hreq, hentries.step hwf hcarries ?_ hreq ?_⟩
  · intro i
    have hfit := routed_fits (txnOf (getClusterIdFromServerId n.constants i)) (n.servers i).ledger
    rw [hconst]
    rwa [hwf.inShard i, shard, hconst] at hfit
  · -- decisions and timeouts keep type, tid and transaction
    intro i x _
    cases x with
    | tpcDecision tid isCommit => exact fun _ h => h
    | sweep => exact fun _ _ _ h => h
    | _ => trivial

theorem orderly_reach (hc : c.clusterSize = 3)
    (hr : Reach Net.step (fun n ev => n.ordered free ev ∧
      ev.Carries (fun k _ t txn => txn = txnOf k t) c) (Net.fresh c) n) : n.Orderly txnOf := by
  have hone : Reach Net.step (fun n ev => n.oneBatchPerNumber ev = true) (Net.fresh c) n :=
    hr.mono fun n ev hok => hok.1.oneBatch
  have hraise : Reach Net.step (fun n ev => n.syncRaises ev = true) (Net.fresh c) n :=
    hone.mono fun n ev hok => (Bool.and_eq_true _ _ ▸ hok).1
  obtain ⟨hbatches, hrounds, hlawful, hsize⟩ := batches_reach hc hone
  obtain ⟨hcarries, hentries⟩ := routed_reach (fun n ev hok => ⟨hok.1.carries, hok.2⟩) hr
  rw [← constants_reach hr] at hcarries hentries
  exact ⟨hsize, hlawful, hrounds, hbatches, hcarries, hentries, served_reach hr, issuedOnce_reach hraise,
    acceptsOnce_reach hc hraise⟩

theorem agreeing_reach (hc : c.clusterSize = 3)
    (hr : Reach Net.step (fun n ev => n.ordered free ev ∧
      ev.Carries (fun k _ t txn => txn = txnOf k t) c) (Net.fresh c) n) : n.Agreeing free := by
  refine hr.invariant (motive := Agreeing free) (.fresh c) ?_
  intro n ev hr h hok
  exact h.step (orderly_reach hc hr) hok.1

end Reach

/-- The agreed entries of two servers of a cluster at the same position have the same tid and the same
transaction. -/
def ReplicasAgree (n : Net) : Prop :=
  ∀ i j, i ∈ serverIds n.constants → j ∈ serverIds n.constants →
    getClusterIdFromServerId n.constants i = getClusterIdFromServerId n.constants j →
    ∀ (k : Nat) (e e' : WALEntry), (agreed (n.servers i).ledger.log)[k]? = some e →
      (agreed (n.servers j).ledger.log)[k]? = some e' → e.tid = e'.tid ∧ e.txn = e'.txn

end Net

/-- **Replica agreement.**  In a deployment of clusters of three, in every run with one transaction per
tid whose steps keep to `keepsAgreement`: the agreed entries of any two servers of a cluster are the same
as far as both go. -/
theorem replicas_agree (c : Constants) (hc : c.clusterSize = 3) (es : List NetEvent)
    (htids : OneTxnPerTid c es)
    (hok : okRun Net.step (fun n ev => n.keepsAgreement ev) (Net.fresh c) es) :
    (Net.run c es).ReplicasAgree := by
  have hr := Net.reach_run c (hok.and_forall htids.carries)
  have hagreeing : (Net.run c es).Agreeing true := Net.agreeing_reach hc hr
  intro i j hi hj hcluster k e e' he he'
  have heq := (hagreeing.chained _).getElem?_eq (mem_getServersInCluster.mpr ⟨hi, hcluster⟩)
    (mem_getServersInCluster.mpr ⟨hj, rfl⟩) he he'
  rw [heq]
  exact ⟨rfl, rfl⟩

/-- Server 1 leads a cross-shard prepare and a transfer with server 2 and asks for a third round; server
3, which has seen nothing of the first two, takes over the log of server 1, and then leads a transfer of
its own with server 2. -/
def catchUpAndLead : List NetEvent :=
  [.input 1 (.tpcPrepare 0 ⟨⟨1, 1001, 1⟩, 1⟩), .deliver 0, .complete 0, .deliver 2, .complete 2, .deliver 4,
   .input 1 (.transfer 1 ⟨⟨2, 3, 1⟩, 2⟩), .deliver 6, .complete 6, .deliver 8, .complete 8, .deliver 10,
   .input 1 (.transfer 2 ⟨⟨4, 5, 1⟩, 3⟩), .deliver 13, .deliver 14, .complete 14,
   .input 3 (.transfer 3 ⟨⟨6, 7, 1⟩, 4⟩), .deliver 16, .complete 16, .deliver 18, .complete 18, .deliver 20]

/-- Servers 2 and 3 have three agreed entries each, and they are the same. -/
theorem replicas_agree_catchUpAndLead :
    (Net.run ⟨3, 3⟩ catchUpAndLead).ReplicasAgree ∧
      [1, 2, 3].map (fun i => (agreed ((Net.run ⟨3, 3⟩ catchUpAndLead).servers i).ledger.log).map
        WALEntry.tid) = [[1, 2], [1, 2, 4], [1, 2, 4]] :=
  ⟨replicas_agree ⟨3, 3⟩ rfl catchUpAndLead (by decide) (by decide +kernel), by decide +kernel⟩

/-- Server 1 logs a cross-shard prepare at its quorum, and its accepts are lost.  Server 2, which
promised but never accepted, then leads a prepare of its own with server 3. -/
def competingLeaders : List NetEvent :=
  [.input 1 (.tpcPrepare 0 ⟨⟨1, 1001, 1⟩, 1⟩), .deliver 0, .complete 0,
   .input 2 (.tpcPrepare 1 ⟨⟨2, 1002, 1⟩, 2⟩), .deliver 5, .complete 5]

/-- The first agreed entry of server 1 is tid 1, that of server 2 is tid 2. -/
theorem competing_leaders_disagree :
    ¬ ∀ es : List NetEvent, ((clientRequests es).map TransferReq.tid).Nodup →
      (Net.run ⟨3, 3⟩ es).ReplicasAgree := by
  intro h
  have hagree := h competingLeaders (by decide) 1 2 (by decide) (by decide) (by decide) 0
    (WAL.preparedEntry ⟨⟨1, 1001, 1⟩, 1⟩ ⟨1, 1⟩) (WAL.preparedEntry ⟨⟨2, 1002, 1⟩, 2⟩ ⟨2, 2⟩)
    (by decide +kernel) (by decide +kernel)
  revert hagree
  decide

end MultiPaxosDB
