/-
# MultiPaxosDB.Votes — one winner per ballot number, in clusters of three.

A server votes for a ballot by issuing it or by acknowledging its prepare.  While ballot numbers only
rise (`Net.syncRaises`) it votes once per number, a proposer needs two votes of three, and so at most
one server ever wins a number.  From that follow the two properties the protocol relies on without
checking them: replies are matched by number alone, yet a prepare quorum always answers the prepare
the server last sent, with its present `paxos_index` (`prepare_quorum_integrity`); and acceptors and
commits look at the number alone, yet a number stands for one batch of one server
(`ballot_identifies_batch`).
-/
import Mathlib.Data.Int.ConditionallyCompleteOrder
import Mathlib.Data.Int.Interval
import Mathlib.Tactic.Linarith
import MultiPaxosDB.Ballots
import MultiPaxosDB.Lib.Quorum

namespace MultiPaxosDB

open Lib

namespace Net

/-! ## Votes and proposals -/

/-- Server `j` has issued the ballot `b` or acknowledged its prepare. -/
def Voted (n : Net) (j : Int) (b : Ballot) : Prop :=
  (∃ q, n.Issued j q ∧ q.ballot = b) ∨ ∃ q, n.Acked j q ∧ q.ballot = b

/-- Another server has acknowledged the prepare `q` of server `i`. -/
def Won (n : Net) (i : Int) (q : PrepareReq) : Prop :=
  ∃ r ∈ n.rpcs, r.src = i ∧ r.dst ≠ i ∧ r.req = .prepare q ∧
    ∃ p, r.res = some (.prepare p) ∧ p.ack = true

/-- Server `i` has proposed `a`. -/
def Proposed (n : Net) (i : Int) (a : AcceptReq) : Prop := n.HasSent i (.accept a)

section Mono

variable {n n' : Net} (hext : n.Extends n')
include hext

theorem Acked.mono {j : Int} {q : PrepareReq} (h : n.Acked j q) : n'.Acked j q := by
  obtain ⟨r, hr, rfl, hreq, p, hp, hack⟩ := h
  obtain ⟨r', hr', hlater⟩ := hext r hr
  exact ⟨r', hr', hlater.dst, hlater.req.trans hreq, p, hlater.res _ hp, hack⟩

theorem Won.mono {i : Int} {q : PrepareReq} (h : n.Won i q) : n'.Won i q := by
  obtain ⟨r, hr, rfl, hdst, hreq, p, hp, hack⟩ := h
  obtain ⟨r', hr', hlater⟩ := hext r hr
  exact ⟨r', hr', hlater.src, by rw [hlater.dst]; exact hdst, hlater.req.trans hreq, p,
    hlater.res _ hp, hack⟩

end Mono

theorem Won.issued {n : Net} {i : Int} {q : PrepareReq} (h : n.Won i q) : n.Issued i q := by
  obtain ⟨r, hr, hsrc, -, hreq, -⟩ := h
  exact ⟨r, hr, hsrc, hreq⟩

/-- The winner of a ballot and the server that acknowledged it have voted for it. -/
theorem Won.votes {n : Net} (hwf : n.WellFormed) {i : Int} {q : PrepareReq} (h : n.Won i q) :
    n.Voted i q.ballot ∧ q.ballot.serverId = i ∧ ∃ j ∈ stubsOf n.constants i, n.Voted j q.ballot := by
  obtain ⟨r, hr, rfl, -, hreq, p, hp, hack⟩ := h
  refine ⟨.inl ⟨q, ⟨r, hr, rfl, hreq⟩, rfl⟩, (hwf.rpcs r hr).proposer q hreq, ?_⟩
  exact ⟨r.dst, (hwf.rpcs r hr).dst, .inr ⟨q, ⟨r, hr, rfl, hreq, p, hp, hack⟩, rfl⟩⟩

end Net

/-! ## The servers of a cluster -/

/-- The ids of cluster `k` are the `k`-th block of `cluster_size` ids. -/
theorem getClusterIdFromServerId_eq_iff {c : Constants} (hn : 1 ≤ c.clusterSize) {i k : Int} :
    getClusterIdFromServerId c i = k ↔ i ∈ Finset.Ioc (c.clusterSize * (k - 1)) (c.clusterSize * k) := by
  rw [getClusterIdFromServerId, Finset.mem_Ioc, ceilDiv_eq_iff (by omega)]

theorem card_cluster (c : Constants) (k : Int) :
    (Finset.Ioc (c.clusterSize * (k - 1)) (c.clusterSize * k)).card = c.clusterSize.toNat := by
  have hblock : c.clusterSize * k - c.clusterSize * (k - 1) = c.clusterSize := by linarith
  rw [Int.card_Ioc, hblock]

section Cluster

variable {c : Constants} {i : Int} (hn : 1 ≤ c.clusterSize) (hi : i ∈ serverIds c)
include hn hi

/-- A server and its stubs are its cluster. -/
theorem mem_stubsOf_iff {j : Int} : j ∈ stubsOf c i ↔
    j ∈ (Finset.Ioc (c.clusterSize * (getClusterIdFromServerId c i - 1))
      (c.clusterSize * getClusterIdFromServerId c i)).erase i := by
  rw [mem_stubsOf, Finset.mem_erase, ← getClusterIdFromServerId_eq_iff hn, mem_serverIds]
  refine ⟨fun ⟨_, hcluster, hne⟩ => ⟨hne, hcluster⟩, fun ⟨hne, hcluster⟩ => ⟨?_, hcluster, hne⟩⟩
  -- the block of a cluster that has a server lies within the ids
  obtain ⟨hlow, hhigh⟩ := mem_serverIds.mp hi
  obtain ⟨hj1, hj2⟩ := Finset.mem_Ioc.mp ((getClusterIdFromServerId_eq_iff hn).mp hcluster)
  have hk : 0 < getClusterIdFromServerId c i := (lt_ceilDiv_iff (by omega)).mpr (by omega)
  have hk' : getClusterIdFromServerId c i ≤ c.numClusters := (ceilDiv_le_iff (by omega)).mpr (by linarith)
  generalize getClusterIdFromServerId c i = k at hj1 hj2 hk hk'
  have hfirst : 0 ≤ c.clusterSize * (k - 1) := Int.mul_nonneg (by omega) (by omega)
  have hlast : c.clusterSize * k ≤ c.clusterSize * c.numClusters := Int.mul_le_mul_of_nonneg_left hk' (by omega)
  constructor <;> linarith

theorem length_stubsOf : ((stubsOf c i).length : Int) = c.clusterSize - 1 := by
  have hself : i ∈ Finset.Ioc (c.clusterSize * (getClusterIdFromServerId c i - 1))
      (c.clusterSize * getClusterIdFromServerId c i) := (getClusterIdFromServerId_eq_iff hn).mp rfl
  have hset : (stubsOf c i).toFinset = (Finset.Ioc (c.clusterSize * (getClusterIdFromServerId c i - 1))
      (c.clusterSize * getClusterIdFromServerId c i)).erase i := by
    ext j
    rw [List.mem_toFinset, mem_stubsOf_iff hn hi]
  rw [← List.toFinset_card_of_nodup (nodup_stubsOf c i), hset, Finset.card_erase_of_mem hself, card_cluster]
  omega

end Cluster

/-- The ids of a cluster of three. -/
theorem mem_cluster_of_three {c : Constants} (hc : c.clusterSize = 3) {i k : Int}
    (h : getClusterIdFromServerId c i = k) : i ∈ ({3 * k - 2, 3 * k - 1, 3 * k} : Finset Int) := by
  rw [getClusterIdFromServerId_eq_iff (by omega), Finset.mem_Ioc, hc] at h
  simp only [Finset.mem_insert, Finset.mem_singleton]
  omega

/-! ## One winner -/

/-- **One winner per number**, given that every server votes once per number. -/
theorem Net.Won.unique {n : Net} (hwf : n.WellFormed) (hc : n.constants.clusterSize = 3)
    (hvotes : VotesOnce n.Voted Ballot.num) {i i' : Int} {q q' : PrepareReq}
    (hi : getClusterIdFromServerId n.constants i = getClusterIdFromServerId n.constants i')
    (h : n.Won i q) (h' : n.Won i' q') (hnum : q.ballot.num = q'.ballot.num) :
    q.ballot = q'.ballot ∧ i = i' := by
  obtain ⟨hvi, hown, j, hj, hvj⟩ := h.votes hwf
  obtain ⟨hvi', hown', j', hj', hvj'⟩ := h'.votes hwf
  rw [mem_stubsOf] at hj hj'
  have hpair : ∀ {P : Int → Prop} {a b : Int}, P a → P b → ∀ v ∈ ({a, b} : Finset Int), P v := by
    intro P a b ha hb v hv
    rcases Finset.mem_insert.mp hv with rfl | hv
    · exact ha
    · rw [Finset.mem_singleton.mp hv]
      exact hb
  have hballot : q.ballot = q'.ballot := by
    refine hvotes.eq_of_quorums {3 * getClusterIdFromServerId n.constants i - 2,
      3 * getClusterIdFromServerId n.constants i - 1, 3 * getClusterIdFromServerId n.constants i}
      {i, j} {i', j'} ?_ ?_ ?_ (hpair hvi hvj) (hpair hvi' hvj') hnum
    · exact hpair (mem_cluster_of_three hc rfl) (mem_cluster_of_three hc hj.2.1)
    · exact hpair (mem_cluster_of_three hc hi.symm) (mem_cluster_of_three hc (hj'.2.1.trans hi.symm))
    · rw [Finset.card_pair (Ne.symm hj.2.2), Finset.card_pair (Ne.symm hj'.2.2)]
      exact (Finset.card_le_three).trans_lt (by decide)
  exact ⟨hballot, by rw [← hown, ← hown', hballot]⟩

namespace Net

variable {n : Net} {ev : NetEvent}

/-! ## Voting once -/

/-- A vote after a step was cast before it or in it. -/
theorem voted_step {j : Int} {b : Ballot} (h : (n.step ev).Voted j b) :
    n.Voted j b ∨ (∃ q, n.Sends ev j (.prepare q) ∧ q.ballot = b) ∨ ∃ q, n.Acks ev j q ∧ q.ballot = b := by
  rcases h with ⟨q, hq, rfl⟩ | ⟨q, hq, rfl⟩
  · rcases hasSent_step hq with hold | hnew
    · exact .inl (.inl ⟨q, hold, rfl⟩)
    · exact .inr (.inl ⟨q, hnew, rfl⟩)
  · rcases acked_step hq with hold | hnew
    · exact .inl (.inr ⟨q, hold, rfl⟩)
    · exact .inr (.inr ⟨q, hnew, rfl⟩)

theorem BallotsBound.voted (h : n.BallotsBound) {j : Int} {b : Ballot} (hv : n.Voted j b) :
    b.num ≤ (n.servers j).ballotNum := by
  rcases hv with ⟨q, hq, rfl⟩ | ⟨q, hq, rfl⟩
  · exact h.issued j q hq
  · exact h.acked j q hq

/-- An acknowledging step sends nothing. -/
theorem Acks.not_sends {j : Int} {q : PrepareReq} (h : n.Acks ev j q) {req : RpcReq} :
    ¬n.Sends ev j req := by
  intro hs
  obtain ⟨e, dst, hactor, hc⟩ := hs.outbox
  obtain ⟨hactor', hack⟩ := h
  rw [hactor', Option.some.injEq, Prod.mk.injEq] at hactor
  obtain ⟨-, rfl⟩ := hactor
  rw [ServerImpl.handle_prepareCall_of_ack hack] at hc
  exact absurd hc (by simp [ServerImpl.persistBallotNum])

theorem sends_serverId (hwf : n.WellFormed) {i : Int} {q : PrepareReq}
    (h : n.Sends ev i (.prepare q)) : q.ballot.serverId = i := by
  obtain ⟨e, dst, hactor, hc⟩ := h.outbox
  exact (hwf.sent (justified hactor) ((n.servers i).handle_moves e) hc).2 q rfl

/-- A vote cast in this step is above every vote cast before, and there is one ballot for all votes a
server casts in it under one number. -/
theorem votesOnce_step (h : VotesOnce n.Voted Ballot.num) (hb : n.BallotsBound) (hwf : n.WellFormed)
    (hphase : ∀ i, (n.servers i).Phase) (hok : n.syncRaises ev = true) :
    VotesOnce (n.step ev).Voted Ballot.num := by
  have hnew : ∀ j b, (∃ q, n.Sends ev j (.prepare q) ∧ q.ballot = b) ∨
      (∃ q, n.Acks ev j q ∧ q.ballot = b) → (n.servers j).ballotNum < b.num := by
    rintro j b (⟨q, hq, rfl⟩ | ⟨q, hq, rfl⟩)
    · exact (sends_bound hwf hphase hok hq).1
    · exact (acks_bound hq).1
  intro j b b' hvb hvb' hnum
  rcases voted_step hvb with hold | hcast
  · rcases voted_step hvb' with hold' | hcast'
    · exact h j b b' hold hold' hnum
    · have hle := hb.voted hold
      have hlt := hnew j b' hcast'
      omega
  · rcases voted_step hvb' with hold' | hcast'
    · have hle := hb.voted hold'
      have hlt := hnew j b hcast
      omega
    · rcases hcast with ⟨q, hq, rfl⟩ | ⟨q, hq, rfl⟩
      · rcases hcast' with ⟨q', hq', rfl⟩ | ⟨q', hq', rfl⟩
        · have hid : q.ballot.serverId = q'.ballot.serverId :=
            (sends_serverId hwf hq).trans (sends_serverId hwf hq').symm
          exact Ballot.ext hnum hid
        · exact absurd hq hq'.not_sends
      · rcases hcast' with ⟨q', hq', rfl⟩ | ⟨q', hq', rfl⟩
        · exact absurd hq' hq.not_sends
        · have heq := hq.1.symm.trans hq'.1
          simp only [Option.some.injEq, Prod.mk.injEq, Event.prepareCall.injEq, true_and] at heq
          rw [heq]

theorem votesOnce_reach {c : Constants}
    (hr : Reach Net.step (fun n ev => n.syncRaises ev = true) (Net.fresh c) n) :
    VotesOnce n.Voted Ballot.num := by
  refine hr.invariant (motive := fun n => VotesOnce n.Voted Ballot.num) ?_ ?_
  · rintro j b b' (⟨q, hq, -⟩ | ⟨q, hq, -⟩)
    · exact absurd hq (not_issued_fresh c j q)
    · exact absurd hq (not_acked_fresh c j q)
  · intro n ev hr h hok
    exact votesOnce_step h (ballotsBound_reach hr) (.reach hr) (phase_reach hr) hok

end Net

end MultiPaxosDB
