/-
# MultiPaxosDB.Copies — leader and replica execute a batch alike.

A leader logs the cross-shard entries of its batch when it validates them and the others at its accept quorum,
and tells them apart by the RPC they came with.  A replica does so at the accept and at the commit, and goes by
the shards of the accounts.  Decisions reach the two at different times in between.

`Copy` is what a round is to leave on either of them: its prepares, and then its commits, once each.  `Tracks`
says that a ledger has the agreed entries of a copy.  The loops of both servers keep it, and so does a decision
that comes after its prepare (`Ready`).  The money is a matter of `balance_applied` alone, as long as a tid
stands for one transaction (`Applies.balance_eq_sum`), and that is the copy's for intra-shard tids and the
decisions' for the others, so two ledgers that track one copy are alike (`Tracks.alike`).
-/
import Mathlib.Algebra.BigOperators.Group.Finset.Basic
import Mathlib.Data.Finset.SDiff
import MultiPaxosDB.Applications
import MultiPaxosDB.Calls
import MultiPaxosDB.Recovery

namespace MultiPaxosDB

open Lib

/-! ## What a round is to leave -/

/-- The agreed entries of a server, and the intra-shard tids it does not commit again. -/
structure Copy where
  seq : List WALEntry
  applied : Finset Int

namespace Copy

variable (inShard : Int → Bool)

def prepare (ballot : Ballot) (x : Copy) (r : TransferReq) : Copy :=
  if r.txn.crosses inShard then { x with seq := x.seq ++ [WAL.preparedEntry r ballot] } else x

def commitOnce (ballot : Ballot) (x : Copy) (r : TransferReq) : Copy :=
  if r.txn.within inShard = true ∧ r.tid ∉ x.applied then
    { seq := x.seq ++ [WAL.committedEntry r ballot], applied := insert r.tid x.applied }
  else x

/-- The first half of a round. -/
def accept (x : Copy) (a : AcceptReq) : Copy := a.batch.foldl (prepare inShard a.ballot) x

/-- The second half. -/
def commit (x : Copy) (a : AcceptReq) : Copy := a.batch.foldl (commitOnce inShard a.ballot) x

def round (x : Copy) (a : AcceptReq) : Copy := (x.accept inShard a).commit inShard a

end Copy

/-- What a server has of a round before the round is over, and after. -/
def Ledger.copy (l : Ledger) : Copy := { seq := agreed l.log, applied := l.balanceApplied }

/-! ## The money follows `balance_applied` -/

/-- Where a tid stands for one transaction, the balances of the shard have moved by the tids applied since. -/
theorem Ledger.Applies.balance_eq_sum {txnOf : Int → Transaction} {l l' : Ledger} {new : List WALEntry}
    (h : l.Applies new l') (htxn : ∀ e ∈ new, e.txn = txnOf e.tid) {a : Int} (ha : l.isClientInCluster a = true) :
    l'.balances a = l.balances a + .ofInt (∑ t ∈ l'.balanceApplied \ l.balanceApplied, (txnOf t).effect a) := by
  have htids : ((appliedFrom l.balanceApplied new).map WALEntry.tid).Nodup :=
    (nodup_firstCommits new).sublist (List.filter_sublist.map _)
  have hset : l'.balanceApplied \ l.balanceApplied = ((appliedFrom l.balanceApplied new).map WALEntry.tid).toFinset := by
    ext t
    rw [h.applied, Finset.union_sdiff_left, Finset.mem_sdiff, List.mem_toFinset, mem_appliedFrom_tids]
  rw [h.balance a ha, hset, List.sum_toFinset _ htids, List.map_map]
  refine congrArg (fun effects : List Int => l.balances a + .ofInt effects.sum)
    (List.map_congr_left fun e he => ?_)
  rw [htxn e (mem_firstCommits (List.mem_of_mem_filter he)).1]
  rfl

namespace Ledger

variable {txnOf : Int → Transaction} {inShard : Int → Bool} {verdict : Int → Bool} {l₀ l l' : Ledger} {x : Copy}
  {heard : List (Int × Bool)}

theorem mem_applied_decide (hw : l.wal.Ok) (tid : Int) (isCommit : Bool) {t : Int} :
    t ∈ (l.processTpcDecision tid isCommit).balanceApplied ↔ t ∈ l.balanceApplied ∨
      (t = tid ∧ isCommit = true ∧ tid ≠ -1 ∧ (l.wal.pendingEntry tid).isSome = true) := by
  rw [(applies_decide hw tid isCommit).applied, Finset.mem_union]
  refine or_congr_right ?_
  rw [mem_committedTids]
  constructor
  · rintro ⟨e, he, hs, rfl⟩
    obtain ⟨y, hy, hne, rfl⟩ := LedgerOp.mem_entries_decide he
    refine ⟨(hw.pendingEntry_spec hy).1, ?_, hne, by rw [hy]; rfl⟩
    cases isCommit with
    | false => cases hs
    | true => rfl
  · rintro ⟨rfl, rfl, hne, hpending⟩
    obtain ⟨y, hy⟩ := Option.isSome_iff_exists.mp hpending
    refine ⟨decidedEntry y true, ?_, rfl, (hw.pendingEntry_spec hy).1⟩
    rw [LedgerOp.entries, hy]
    dsimp only
    rw [if_neg hne]
    exact List.mem_singleton_self _

/-- The ledger is ready for the decisions `verdict`: what is pending is the cross-shard transaction of its tid, and
of what was prepared and is to commit everything is pending, unless its money has moved. -/
structure Ready (txnOf : Int → Transaction) (inShard : Int → Bool) (verdict : Int → Bool) (l : Ledger) : Prop where
  pending : ∀ t e, l.wal.pendingEntry t = some e → e.txn = txnOf t ∧ e.txn.crosses inShard = true
  waits : ∀ e ∈ l.log, e.status = .prepared → e.tid ≠ -1 → verdict e.tid = true →
    (l.wal.pendingEntry e.tid).isSome = true ∨ e.tid ∈ l.balanceApplied

namespace Ready

/-- A pending tid is not an intra-shard one. -/
theorem not_pending (h : l.Ready txnOf inShard verdict) {t : Int} (hin : (txnOf t).within inShard = true) :
    l.wal.pendingEntry t = none := by
  cases he : l.wal.pendingEntry t with
  | none => rfl
  | some e =>
    obtain ⟨htxn, hcross⟩ := h.pending t e he
    rw [htxn, Transaction.not_crosses_of_within hin] at hcross
    cases hcross

theorem frame (h : l.Ready txnOf inShard verdict) (hf : l.Frame l') : l'.Ready txnOf inShard verdict := by
  refine ⟨?_, ?_⟩
  · rw [hf.wal]
    exact h.pending
  · rw [hf.wal, hf.log, hf.balanceApplied]
    exact h.waits

theorem prepareTransaction (h : l.Ready txnOf inShard verdict) (hw : l.wal.Ok) {r : TransferReq} (ballot : Ballot)
    (htxn : r.txn = txnOf r.tid) (hcross : r.txn.crosses inShard = true) :
    (l.prepareTransaction r ballot).Ready txnOf inShard verdict := by
  have hpending := hw.pendingEntry_prepareTransaction r ballot
  refine ⟨?_, ?_⟩
  · intro t e he
    rw [show (l.prepareTransaction r ballot).wal = (l.wal.prepareTransaction r ballot).1 from rfl, hpending] at he
    split at he
    · rename_i heq
      rw [← Option.some.inj he, heq]
      exact ⟨htxn, hcross⟩
    · exact h.pending t e he
  · intro e he hs hne hv
    rw [show (l.prepareTransaction r ballot).wal = (l.wal.prepareTransaction r ballot).1 from rfl, hpending]
    split
    · exact .inl rfl
    · rename_i hother
      rcases List.mem_append.mp he with hold | hnew
      · exact h.waits e hold hs hne hv
      · rw [List.mem_singleton.mp hnew] at hother
        exact absurd rfl hother

theorem commitTransaction (h : l.Ready txnOf inShard verdict) (hw : l.wal.Ok) (r : TransferReq) (ballot : Ballot) :
    (l.commitTransaction r ballot).Ready txnOf inShard verdict := by
  by_cases hnew : r.tid ∈ l.balanceApplied
  · rw [commitTransaction_applied ballot hnew]
    exact h
  · refine ⟨?_, ?_⟩
    · intro t e he
      rw [wal_commitTransaction hnew, hw.pendingEntry_commitTransaction] at he
      exact h.pending t e he
    · intro e he hs hne hv
      rw [log_commitTransaction hnew hw.canWrite] at he
      rw [wal_commitTransaction hnew, hw.pendingEntry_commitTransaction, balanceApplied_commitTransaction]
      rcases List.mem_append.mp he with hold | hlast
      · exact (h.waits e hold hs hne hv).imp_right (Finset.mem_insert_of_mem ·)
      · rw [List.mem_singleton.mp hlast] at hs
        cases hs

theorem processTpcDecision (h : l.Ready txnOf inShard verdict) (hw : l.wal.Ok) {tid : Int} {isCommit : Bool}
    (hv : isCommit = verdict tid) : (l.processTpcDecision tid isCommit).Ready txnOf inShard verdict := by
  refine ⟨?_, ?_⟩
  · intro t e he
    rw [wal_processTpcDecision, hw.pendingEntry_decideTransaction] at he
    split at he
    · cases he
    · exact h.pending t e he
  · intro e he hs hne hcommit
    rw [wal_processTpcDecision, hw.pendingEntry_decideTransaction, mem_applied_decide hw]
    have hold : e ∈ l.log := by
      rw [(applies_decide hw tid isCommit).log] at he
      refine (List.mem_append.mp he).resolve_right fun hlast => ?_
      obtain ⟨y, -, -, rfl⟩ := LedgerOp.mem_entries_decide hlast
      cases isCommit <;> cases hs
    have hwaits := h.waits e hold hs hne hcommit
    split
    · -- the decision on this very tid: what was pending is applied now
      rename_i heq
      rw [heq] at hwaits hcommit hne ⊢
      rcases hwaits with hpending | happlied
      · exact .inr (.inr ⟨rfl, hv.trans hcommit, hne, hpending⟩)
      · exact .inr (.inl happlied)
    · exact hwaits.imp_right .inl

end Ready

/-- Since `l₀` the ledger has heard the decisions `heard` and has come to `l`, and its agreed entries are those of
the copy `x`. -/
structure Tracks (txnOf : Int → Transaction) (inShard : Int → Bool) (verdict : Int → Bool) (l₀ : Ledger) (x : Copy)
    (heard : List (Int × Bool)) (l : Ledger) : Prop where
  shard : l.isClientInCluster = inShard
  ready : l.Ready txnOf inShard verdict
  since : ∃ new, l₀.Applies new l ∧ ∀ e ∈ new, e.txn = txnOf e.tid
  seq : agreed l.log = x.seq
  index : l.paxosIndex + 1 = (x.seq.length : Int)
  within : ∀ t, (txnOf t).within inShard = true → (t ∈ l.balanceApplied ↔ t ∈ x.applied)
  across : ∀ t, (txnOf t).within inShard = false →
    (t ∈ l.balanceApplied ↔ t ∈ l₀.balanceApplied ∨ ((t, true) ∈ heard ∧ t ≠ -1))

namespace Tracks

theorem wal (h : Tracks txnOf inShard verdict l₀ x heard l) : l.wal.Ok := by
  obtain ⟨new, hnew, -⟩ := h.since
  exact hnew.wal

/-- One operation later. -/
theorem extend (h : Tracks txnOf inShard verdict l₀ x heard l) (o : LedgerOp)
    (hnew : ∀ e ∈ o.entries l, e.txn = txnOf e.tid) :
    ∃ new, l₀.Applies new (o.apply l) ∧ ∀ e ∈ new, e.txn = txnOf e.tid := by
  obtain ⟨new, hold, htxn⟩ := h.since
  refine ⟨_, hold.trans (o.applies hold.wal), ?_⟩
  intro e he
  rcases List.mem_append.mp he with he | he
  · exact htxn e he
  · exact hnew e he

theorem frame (h : Tracks txnOf inShard verdict l₀ x heard l) (hf : l.Frame l') :
    Tracks txnOf inShard verdict l₀ x heard l' where
  shard := by
    rw [← h.shard]
    funext a
    rw [isClientInCluster, isClientInCluster, hf.constants, hf.clusterId]
  ready := h.ready.frame hf
  since := by
    obtain ⟨new, hnew, htxn⟩ := h.since
    refine ⟨_, hnew.trans (.frame hnew.wal hf), ?_⟩
    rw [List.append_nil]
    exact htxn
  seq := by
    rw [hf.log]
    exact h.seq
  index := by
    rw [hf.paxosIndex]
    exact h.index
  within := by
    rw [hf.balanceApplied]
    exact h.within
  across := by
    rw [hf.balanceApplied]
    exact h.across

theorem prepareTransaction (h : Tracks txnOf inShard verdict l₀ x heard l) {r : TransferReq} (ballot : Ballot)
    (htxn : r.txn = txnOf r.tid) (hcross : r.txn.crosses inShard = true) :
    Tracks txnOf inShard verdict l₀ (x.prepare inShard ballot r) heard (l.prepareTransaction r ballot) := by
  rw [Copy.prepare, if_pos hcross]
  refine ⟨h.shard, h.ready.prepareTransaction h.wal ballot htxn hcross, ?_, ?_, ?_, h.within, h.across⟩
  · refine h.extend (.prepare r ballot) ?_
    intro e he
    rw [List.mem_singleton.mp he]
    exact htxn
  · rw [agreed_prepareTransaction, h.seq]
  · show l.paxosIndex + 1 + 1 = _
    rw [h.index, List.length_append]
    rfl

theorem commitTransaction (h : Tracks txnOf inShard verdict l₀ x heard l) {r : TransferReq} (ballot : Ballot)
    (htxn : r.txn = txnOf r.tid) (hin : r.txn.within inShard = true) :
    Tracks txnOf inShard verdict l₀ (x.commitOnce inShard ballot r) heard (l.commitTransaction r ballot) := by
  rw [htxn] at hin
  have hiff := h.within r.tid hin
  by_cases hnew : r.tid ∈ l.balanceApplied
  · rw [Copy.commitOnce, if_neg (fun hno => hno.2 (hiff.mp hnew)), commitTransaction_applied ballot hnew]
    exact h
  · rw [Copy.commitOnce, if_pos ⟨htxn ▸ hin, fun hold => hnew (hiff.mpr hold)⟩]
    refine ⟨?_, h.ready.commitTransaction h.wal r ballot, ?_, ?_, ?_, ?_, ?_⟩
    · rw [ServerImpl.isClientInCluster_commitTransaction]
      exact h.shard
    · refine h.extend (.commit r ballot) ?_
      intro e he
      rw [(LedgerOp.mem_entries_commit he).2]
      exact htxn
    · rw [log_commitTransaction hnew h.wal.canWrite, agreed_append, h.seq]
      rfl
    · rw [paxosIndex_commitTransaction hnew, h.index, List.length_append]
      rfl
    · intro t ht
      rw [balanceApplied_commitTransaction, Finset.mem_insert, Finset.mem_insert, h.within t ht]
    · intro t ht
      have hne : t ≠ r.tid := by
        rintro rfl
        rw [hin] at ht
        cases ht
      rw [balanceApplied_commitTransaction, Finset.mem_insert, or_iff_right hne, h.across t ht]

/-- A decision that comes after its prepare. -/
theorem processTpcDecision (h : Tracks txnOf inShard verdict l₀ x heard l) {tid : Int} {isCommit : Bool}
    (hv : isCommit = verdict tid) (hlogged : ∃ e ∈ l.log, e.tid = tid ∧ e.status = .prepared) :
    Tracks txnOf inShard verdict l₀ x (heard ++ [(tid, isCommit)]) (l.processTpcDecision tid isCommit) where
  shard := by
    rw [← h.shard]
    funext a
    rw [isClientInCluster, isClientInCluster, constants_processTpcDecision, clusterId_processTpcDecision]
  ready := h.ready.processTpcDecision h.wal hv
  since := by
    refine h.extend (.decide tid isCommit) ?_
    intro e he
    obtain ⟨y, hy, -, rfl⟩ := LedgerOp.mem_entries_decide he
    show y.txn = txnOf y.tid
    rw [(h.wal.pendingEntry_spec hy).1]
    exact (h.ready.pending tid y hy).1
  seq := (agreed_processTpcDecision h.wal tid isCommit).trans h.seq
  index := by
    rw [paxosIndex_processTpcDecision]
    exact h.index
  within := by
    intro t ht
    rw [← h.within t ht, mem_applied_decide h.wal]
    -- what a decision commits was pending, and what was pending is cross-shard
    refine or_iff_left ?_
    rintro ⟨rfl, -, -, hpending⟩
    rw [h.ready.not_pending ht] at hpending
    cases hpending
  across := by
    intro t ht
    rw [mem_applied_decide h.wal]
    constructor
    · rintro (hold | ⟨rfl, rfl, hne, -⟩)
      · exact ((h.across t ht).mp hold).imp_right fun hmem => ⟨List.mem_append_left _ hmem.1, hmem.2⟩
      · exact .inr ⟨List.mem_append_right _ (List.mem_singleton_self _), hne⟩
    · rintro (hold | ⟨hmem, hne⟩)
      · exact .inl ((h.across t ht).mpr (.inl hold))
      · rcases List.mem_append.mp hmem with hmem | hlast
        · exact .inl ((h.across t ht).mpr (.inr ⟨hmem, hne⟩))
        · -- its prepare is logged, so the tid is pending, or was applied before
          obtain ⟨rfl, rfl⟩ := Prod.mk.inj (List.mem_singleton.mp hlast)
          obtain ⟨e, he, rfl, hs⟩ := hlogged
          rcases h.ready.waits e he hs hne hv.symm with hpending | happlied
          · exact .inr ⟨rfl, rfl, hne, hpending⟩
          · exact .inl happlied

/-! ### The loops -/

theorem foldl_acceptEntry (h : Tracks txnOf inShard verdict l₀ x heard l) {a : AcceptReq}
    (hbatch : ∀ r ∈ a.batch, r.txn = txnOf r.tid) :
    Tracks txnOf inShard verdict l₀ (x.accept inShard a) heard
      (a.batch.foldl (ServerImpl.acceptEntry a.ballot) l) := by
  refine List.foldl_rel (r := fun x l => Tracks txnOf inShard verdict l₀ x heard l) h ?_
  intro r hr x l hl
  have hlocked := hl.frame (.lockBoth l r.txn.sender r.txn.receiver)
  have hcross : ServerImpl.crossHere l r.txn = r.txn.crosses inShard := by
    rw [← hl.shard]
    rfl
  unfold ServerImpl.acceptEntry
  dsimp only
  rw [hcross]
  split
  · rename_i hcross
    exact hlocked.prepareTransaction a.ballot (hbatch r hr) hcross
  · rename_i hcross
    rw [Copy.prepare, if_neg hcross]
    exact hlocked

theorem foldl_commitAccepted (h : Tracks txnOf inShard verdict l₀ x heard l) {a : AcceptReq}
    (hbatch : ∀ r ∈ a.batch, r.txn = txnOf r.tid) :
    Tracks txnOf inShard verdict l₀ (x.commit inShard a) heard
      (a.batch.foldl (ServerImpl.commitAccepted a.ballot) l) := by
  refine List.foldl_rel (r := fun x l => Tracks txnOf inShard verdict l₀ x heard l) h ?_
  intro r hr x l hl
  have hfree := hl.frame (.unlockBoth l r.txn.sender r.txn.receiver)
  have hintra : ServerImpl.intraHere l r.txn = r.txn.within inShard := by
    rw [← hl.shard]
    rfl
  unfold ServerImpl.commitAccepted
  dsimp only
  rw [hintra]
  split
  · rename_i hin
    exact hfree.commitTransaction a.ballot (hbatch r hr) hin
  · rename_i hout
    rw [Copy.commitOnce, if_neg fun hin => hout hin.1]
    exact hfree

variable (ballot : Ballot) {batch : List BatchEntry}

/-- The leader validates its batch: the copy has the prepares of what is kept. -/
theorem admitAll (h : Tracks txnOf inShard verdict l₀ x heard l)
    (hbatch : ∀ b ∈ batch, routed txnOf inShard b.isCrossShard b.request.tid b.request.txn) :
    Tracks txnOf inShard verdict l₀
      (x.accept inShard ⟨ballot, (ServerImpl.admitAll l ballot batch).kept.map BatchEntry.request⟩) heard
      (ServerImpl.admitAll l ballot batch).ledger := by
  refine List.foldlRecOn (motive := fun a : ServerImpl.Admission => Tracks txnOf inShard verdict l₀
    (x.accept inShard ⟨ballot, a.kept.map BatchEntry.request⟩) heard a.ledger) batch
    (ServerImpl.validateEntry ballot) (b := ⟨l, [], []⟩) h ?_
  intro a ha b hb
  obtain ⟨htxn, hcross, hintra⟩ := hbatch b hb
  unfold ServerImpl.validateEntry
  split
  · exact ha
  · have hlocked := ha.frame (.lockBoth a.ledger b.request.txn.sender b.request.txn.receiver)
    have hmore : x.accept inShard ⟨ballot, (a.kept ++ [b]).map BatchEntry.request⟩ =
        (x.accept inShard ⟨ballot, a.kept.map BatchEntry.request⟩).prepare inShard ballot b.request := by
      rw [Copy.accept, List.map_append, List.foldl_append]
      rfl
    dsimp only
    rw [hmore]
    cases hc : b.isCrossShard with
    | true => exact hlocked.prepareTransaction ballot htxn (hcross hc)
    | false =>
      rw [Copy.prepare, if_neg (by rw [Transaction.not_crosses_of_within (hintra hc)]; exact Bool.false_ne_true)]
      exact hlocked

/-- The leader commits what its batch has of intra-shard entries. -/
theorem foldl_commitEntry (h : Tracks txnOf inShard verdict l₀ x heard l)
    (hbatch : ∀ b ∈ batch, routed txnOf inShard b.isCrossShard b.request.tid b.request.txn) :
    Tracks txnOf inShard verdict l₀ (x.commit inShard ⟨ballot, batch.map BatchEntry.request⟩) heard
      (batch.foldl (ServerImpl.commitEntry ballot) l) := by
  rw [Copy.commit, List.foldl_map]
  refine List.foldl_rel (r := fun x l => Tracks txnOf inShard verdict l₀ x heard l) h ?_
  intro b hb x l hl
  obtain ⟨htxn, hcross, hintra⟩ := hbatch b hb
  unfold ServerImpl.commitEntry
  cases hc : b.isCrossShard with
  | true =>
    have hout : b.request.txn.within inShard ≠ true := by
      intro hin
      have hno := hcross hc
      rw [Transaction.not_crosses_of_within hin] at hno
      cases hno
    rw [Copy.commitOnce, if_neg fun hin => hout hin.1]
    exact hl
  | false => exact (hl.frame (.touch _ _ _)).commitTransaction ballot htxn (hintra hc)

/-- A ledger tracks what it has. -/
theorem start (hw : l.wal.Ok) (hshard : l.isClientInCluster = inShard)
    (hindex : l.paxosIndex + 1 = ((agreed l.log).length : Int)) (hready : l.Ready txnOf inShard verdict) :
    Tracks txnOf inShard verdict l l.copy [] l where
  shard := hshard
  ready := hready
  since := ⟨[], .refl hw, fun _ he => absurd he List.not_mem_nil⟩
  seq := rfl
  index := hindex
  within := fun _ _ => Iff.rfl
  across := by simp

/-- **Two ledgers that track one copy and have heard the same decisions have moved the same money.** -/
theorem alike {r₀ r : Ledger} {heard' : List (Int × Bool)} (h : Tracks txnOf inShard verdict l₀ x heard l)
    (h' : Tracks txnOf inShard verdict r₀ x heard' r) (happlied : l₀.balanceApplied = r₀.balanceApplied)
    (hbalances : ∀ a, inShard a = true → l₀.balances a = r₀.balances a) (hsame : ∀ d, d ∈ heard ↔ d ∈ heard') :
    l.balanceApplied = r.balanceApplied ∧ ∀ a, inShard a = true → l.balances a = r.balances a := by
  have hset : l.balanceApplied = r.balanceApplied := by
    ext t
    cases ht : (txnOf t).within inShard with
    | true => rw [h.within t ht, h'.within t ht]
    | false => rw [h.across t ht, h'.across t ht, happlied, hsame]
  refine ⟨hset, ?_⟩
  intro a ha
  obtain ⟨new, hnew, htxn⟩ := h.since
  obtain ⟨new', hnew', htxn'⟩ := h'.since
  rw [hnew.balance_eq_sum htxn (by rw [← hnew.inShard, h.shard]; exact ha),
    hnew'.balance_eq_sum htxn' (by rw [← hnew'.inShard, h'.shard]; exact ha), hset, happlied, hbalances a ha]

end Tracks

end Ledger

end MultiPaxosDB
