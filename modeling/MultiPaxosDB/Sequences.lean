/-
# MultiPaxosDB.Sequences — how each loop extends the sequence of agreed entries.

A proposal enters a log in two portions.  Its cross-shard requests are logged as prepares when the batch
is validated (by the leader) or accepted (by a replica): `AcceptReq.prepares`.  Its intra-shard requests
are logged as commits when the batch is committed, less those whose tid is already applied:
`AcceptReq.commits`, which reads the applied tids off the sequence itself.

The leader goes by the RPC a request came with, a replica by the shards of its accounts, and both skip by
`balance_applied`, into which cross-shard decisions write as well.  The two agree where every request is
routed by its shards and every tid has one transaction (`Transaction.routed`); `Ledger.Routed` is that
condition on a ledger.
-/
import MultiPaxosDB.Provenance

namespace MultiPaxosDB

open Lib

/-! ## Requests and shards -/

/-- Exactly one account is in the shard. -/
def Transaction.crosses (inShard : Int → Bool) (txn : Transaction) : Bool :=
  inShard txn.sender != inShard txn.receiver

/-- Both accounts are in the shard. -/
def Transaction.within (inShard : Int → Bool) (txn : Transaction) : Bool :=
  inShard txn.sender && inShard txn.receiver

theorem Transaction.not_crosses_of_within {inShard : Int → Bool} {txn : Transaction}
    (h : txn.within inShard = true) : txn.crosses inShard = false := by
  simp only [within, Bool.and_eq_true] at h
  simp [crosses, h.1, h.2]

/-- A request came as a `TpcPrepare` if it leaves the shard and as a `Transfer` if it stays in it. -/
def byShard (inShard : Int → Bool) : RequestPred := fun isCross _ txn =>
  (isCross = true → txn.crosses inShard = true) ∧ (isCross = false → txn.within inShard = true)

instance (inShard : Int → Bool) (isCross : Bool) (t : Int) (txn : Transaction) :
    Decidable (byShard inShard isCross t txn) :=
  inferInstanceAs (Decidable (_ ∧ _))

/-- A request came by its shard, with the one transaction of its tid. -/
def routed (txnOf : Int → Transaction) (inShard : Int → Bool) : RequestPred := fun isCross t txn =>
  txn = txnOf t ∧ byShard inShard isCross t txn

instance (txnOf : Int → Transaction) (inShard : Int → Bool) (isCross : Bool) (t : Int) (txn : Transaction) :
    Decidable (routed txnOf inShard isCross t txn) :=
  inferInstanceAs (Decidable (_ ∧ _))

/-- What routed requests are logged as. -/
def routedEntry (txnOf : Int → Transaction) (inShard : Int → Bool) : EntryPred := fun type _ t txn =>
  txn = txnOf t ∧ (type = .cross → txn.crosses inShard = true) ∧ (type = .intra → txn.within inShard = true)

theorem routed_fits (txnOf : Int → Transaction) (l : Ledger) :
    l.Fits (routed txnOf l.isClientInCluster) (routedEntry txnOf l.isClientInCluster) where
  ledCross := fun t txn h => ⟨h.1, fun _ => h.2.1 rfl, by simp⟩
  ledIntra := fun t txn h => ⟨h.1, by simp, fun _ => h.2.2 rfl⟩
  cross := fun isCross t txn h hcross => ⟨h.1, fun _ => hcross, by simp⟩
  intra := fun isCross t txn h hintra => ⟨h.1, by simp, fun _ => hintra⟩

/-! ## The two portions of a proposal -/

/-- The prepares a proposal is logged as. -/
def AcceptReq.prepares (inShard : Int → Bool) (a : AcceptReq) : List WALEntry :=
  (a.batch.filter fun r => r.txn.crosses inShard).map fun r => WAL.preparedEntry r a.ballot

/-- One commit more, unless the tid is committed. -/
def commitOnce (ballot : Ballot) (seq : List WALEntry) (r : TransferReq) : List WALEntry :=
  if r.tid ∈ committedTids seq then seq else seq ++ [WAL.committedEntry r ballot]

/-- The agreed sequence once the intra-shard requests of a proposal are committed. -/
def AcceptReq.commits (inShard : Int → Bool) (a : AcceptReq) (seq : List WALEntry) : List WALEntry :=
  (a.batch.filter fun r => r.txn.within inShard).foldl (commitOnce a.ballot) seq

theorem prefix_commitOnce (ballot : Ballot) (seq : List WALEntry) (r : TransferReq) :
    seq <+: commitOnce ballot seq r := by
  unfold commitOnce
  split
  · exact List.prefix_refl _
  · exact List.prefix_append _ _

theorem tid_mem_commitOnce (ballot : Ballot) (seq : List WALEntry) (r : TransferReq) :
    r.tid ∈ committedTids (commitOnce ballot seq r) := by
  unfold commitOnce
  split
  · assumption
  · rw [committedTids_append, if_pos (by simp [WAL.committedEntry])]
    exact Finset.mem_insert_self _ _

theorem AcceptReq.prefix_commits (inShard : Int → Bool) (a : AcceptReq) (seq : List WALEntry) :
    seq <+: a.commits inShard seq := by
  refine List.foldlRecOn (motive := fun seq' => seq <+: seq') _ (commitOnce a.ballot)
    (List.prefix_refl _) ?_
  intro seq' h r _
  exact h.trans (prefix_commitOnce a.ballot seq' r)

/-- All of them are committed then. -/
theorem AcceptReq.mem_commits {inShard : Int → Bool} {a : AcceptReq} (seq : List WALEntry) {r : TransferReq}
    (hr : r ∈ a.batch) (hin : r.txn.within inShard = true) :
    r.tid ∈ committedTids (a.commits inShard seq) := by
  have honce : ∀ seq x t, t ∈ committedTids seq ∨ t = x.tid → t ∈ committedTids (commitOnce a.ballot seq x) := by
    rintro seq x t (h | rfl)
    · exact committedTids_mono (prefix_commitOnce a.ballot seq x).subset h
    · exact tid_mem_commitOnce a.ballot seq x
  -- on the requests, for any sequence to start from and any tid committed in it already
  have hloop : ∀ (xs : List TransferReq) seq t, t ∈ committedTids seq ∨ (∃ x ∈ xs, t = x.tid) →
      t ∈ committedTids (xs.foldl (commitOnce a.ballot) seq) := by
    intro xs
    induction xs with
    | nil =>
      intro seq t h
      simpa using h
    | cons x xs ih =>
      intro seq t h
      rw [List.foldl_cons]
      apply ih
      rcases h with h | ⟨y, hy, rfl⟩
      · exact .inl (honce seq x t (.inl h))
      · rcases List.mem_cons.mp hy with rfl | hy
        · exact .inl (honce seq y _ (.inr rfl))
        · exact .inr ⟨y, hy, rfl⟩
  exact hloop _ seq r.tid (.inr ⟨r, List.mem_filter.mpr ⟨hr, hin⟩, rfl⟩)

/-- If they are committed already, nothing is logged. -/
theorem AcceptReq.commits_of_mem {inShard : Int → Bool} {a : AcceptReq} {seq : List WALEntry}
    (h : ∀ r ∈ a.batch, r.txn.within inShard = true → r.tid ∈ committedTids seq) :
    a.commits inShard seq = seq := by
  refine List.foldlRecOn (motive := fun seq' => seq' = seq) _ (commitOnce a.ballot) rfl ?_
  rintro seq' rfl r hr
  have hr := List.mem_filter.mp hr
  exact if_pos (h r hr.1 hr.2)

/-- If they are committed in part, the others follow. -/
theorem AcceptReq.commits_between {inShard : Int → Bool} {a : AcceptReq} {seq seq' : List WALEntry} (h : seq <+: seq')
    (h' : seq' <+: a.commits inShard seq) : a.commits inShard seq' = a.commits inShard seq := by
  unfold AcceptReq.commits at h' ⊢
  generalize a.batch.filter (fun r => r.txn.within inShard) = rs at h' ⊢
  induction rs generalizing seq seq' with
  | nil => exact (h.eq_of_length_le h'.length_le).symm
  | cons r rs ih =>
    rw [List.foldl_cons] at h'
    rw [List.foldl_cons, List.foldl_cons]
    have hrest : commitOnce a.ballot seq r <+: rs.foldl (commitOnce a.ballot) (commitOnce a.ballot seq r) :=
      List.foldlRecOn (motive := fun seq' => commitOnce a.ballot seq r <+: seq') rs (commitOnce a.ballot)
        (List.prefix_refl _) fun _ hpre x _ => hpre.trans (prefix_commitOnce a.ballot _ x)
    by_cases heq : seq' = seq
    · rw [heq]
    -- what is beyond `seq` begins with the commit of `r`, if that adds one
    have hlonger : commitOnce a.ballot seq r <+: seq' := by
      refine List.prefix_of_prefix_length_le hrest h' ?_
      have hlt : seq.length < seq'.length := lt_of_le_of_ne h.length_le fun hlen => heq (h.eq_of_length hlen).symm
      unfold commitOnce
      split
      · exact hlt.le
      · rw [List.length_append, List.length_singleton]
        exact hlt
    have hdone : commitOnce a.ballot seq' r = seq' :=
      if_pos (committedTids_mono hlonger.subset (tid_mem_commitOnce a.ballot seq r))
    rw [hdone]
    exact ih hlonger h'

/-- If they are committed all, nothing is logged. -/
theorem AcceptReq.commits_of_prefix {inShard : Int → Bool} {a : AcceptReq} {seq seq' : List WALEntry}
    (h : a.commits inShard seq <+: seq') : a.commits inShard seq' = seq' :=
  commits_of_mem fun _ hr hin => committedTids_mono h.subset (mem_commits seq hr hin)

/-! ## The ledgers -/

/-- A sound ledger of the shard whose entries come from routed requests. -/
structure Ledger.Routed (txnOf : Int → Transaction) (inShard : Int → Bool) (l : Ledger) : Prop where
  shard : l.isClientInCluster = inShard
  sound : l.Sound
  entries : l.Entries (routedEntry txnOf inShard)

namespace Ledger

variable {txnOf : Int → Transaction} {inShard : Int → Bool} {l : Ledger}

theorem agreed_prepareTransaction (l : Ledger) (r : TransferReq) (ballot : Ballot) :
    agreed (l.prepareTransaction r ballot).log = agreed l.log ++ [WAL.preparedEntry r ballot] :=
  agreed_append l.log [WAL.preparedEntry r ballot]

/-- Decisions are not agreed entries. -/
theorem agreed_processTpcDecision (hw : l.wal.Ok) (tid : Int) (isCommit : Bool) :
    agreed (l.processTpcDecision tid isCommit).log = agreed l.log := by
  cases he : l.wal.pendingEntry tid with
  | none => rw [processTpcDecision_none isCommit he]
  | some e =>
    by_cases htid : tid = -1
    · subst htid
      rw [processTpcDecision_sentinel hw isCommit he]
    · have htype : e.type = .cross := (hw.pendingEntry_spec he).2.1
      rw [processTpcDecision_some hw isCommit he htid]
      show agreed (l.log ++ [decidedEntry e isCommit]) = agreed l.log
      rw [agreed_append]
      cases isCommit <;> simp [agreed, isPaxosEntry, htype, decidedEntry, decisionStatus]

theorem agreed_sweep (hw : l.wal.Ok) : agreed l.sweep.log = agreed l.log := by
  refine (List.foldlRecOn (motive := fun l' : Ledger => l'.wal.Ok ∧ agreed l'.log = agreed l.log)
    l.expired timeoutTransaction ⟨hw, rfl⟩ ?_).2
  rintro l' ⟨hl', hseq⟩ tid _
  rw [timeoutTransaction_eq]
  refine ⟨?_, (agreed_processTpcDecision hl' tid false).trans hseq⟩
  rw [wal_processTpcDecision]
  exact hl'.decideTransaction tid _

/-- For an intra-shard tid, `balance_applied` says what the agreed sequence says: its only committed
entries are agreed ones. -/
theorem Routed.mem_applied_iff (h : l.Routed txnOf inShard) {r : TransferReq} (htxn : r.txn = txnOf r.tid)
    (hin : r.txn.within inShard = true) :
    r.tid ∈ l.balanceApplied ↔ r.tid ∈ committedTids (agreed l.log) := by
  rw [h.sound.applied, mem_committedTids, mem_committedTids]
  constructor
  · rintro ⟨e, he, hs, htid⟩
    obtain ⟨hetxn, hcross, -⟩ := (h.entries.log e he).1
    -- a cross-shard entry of this tid would have the transaction of `r`
    have htype : e.type = .intra := by
      cases ht : e.type with
      | intra => rfl
      | cross =>
        have hc := hcross ht
        rw [hetxn, htid, ← htxn, Transaction.not_crosses_of_within hin] at hc
        cases hc
    exact ⟨e, List.mem_filter.mpr ⟨he, by simp [isPaxosEntry, htype, hs]⟩, hs, htid⟩
  · rintro ⟨e, he, hs, htid⟩
    exact ⟨e, List.mem_of_mem_filter he, hs, htid⟩

theorem Routed.agreed_commitTransaction (h : l.Routed txnOf inShard) {r : TransferReq}
    (htxn : r.txn = txnOf r.tid) (hin : r.txn.within inShard = true) (ballot : Ballot) :
    agreed (l.commitTransaction r ballot).log = commitOnce ballot (agreed l.log) r := by
  have hiff := h.mem_applied_iff htxn hin
  unfold commitOnce
  by_cases hnew : r.tid ∈ l.balanceApplied
  · rw [commitTransaction_applied ballot hnew, if_pos (hiff.mp hnew)]
  · rw [log_commitTransaction hnew h.sound.wal.canWrite, if_neg fun hmem => hnew (hiff.mpr hmem), agreed_append]
    rfl

theorem Routed.step {l' : Ledger} (h : l.Routed txnOf inShard)
    (hstep : LedgerStep (routedEntry txnOf inShard) (WALEntry.Sat (routedEntry txnOf inShard)) l l') :
    l'.Routed txnOf inShard where
  shard := by
    obtain ⟨hc, hk⟩ := hstep.shard
    rw [← h.shard]
    funext a
    rw [isClientInCluster, isClientInCluster, hc, hk]
  sound := h.sound.step hstep
  entries := h.entries.step hstep

end Ledger

/-! ## The loops -/

namespace ServerImpl

variable {txnOf : Int → Transaction} {inShard : Int → Bool}

theorem agreed_foldl_acceptEntry (a : AcceptReq) (l : Ledger) :
    agreed (a.batch.foldl (acceptEntry a.ballot) l).log =
      agreed l.log ++ a.prepares l.isClientInCluster := by
  unfold AcceptReq.prepares
  induction a.batch generalizing l with
  | nil => simp
  | cons r batch ih =>
    have hstep : agreed (acceptEntry a.ballot l r).log = agreed l.log ++
        if r.txn.crosses l.isClientInCluster then [WAL.preparedEntry r a.ballot] else [] := by
      unfold acceptEntry
      have hcross : crossHere l r.txn = r.txn.crosses l.isClientInCluster := rfl
      dsimp only
      rw [hcross]
      split
      · exact Ledger.agreed_prepareTransaction _ r a.ballot
      · exact (List.append_nil _).symm
    rw [List.foldl_cons, ih, isClientInCluster_acceptEntry, hstep, List.append_assoc]
    congr 1
    cases hc : r.txn.crosses l.isClientInCluster with
    | true => simp [hc]
    | false => simp [hc]

/-- A loop that commits, once each, the requests `g x` of the items `x` that satisfy `p`, and logs
nothing else that is agreed. -/
theorem agreed_foldl_commitOnce {α : Type} {f : Ledger → α → Ledger} {p : α → Bool} {g : α → TransferReq}
    {ballot : Ballot} : ∀ {xs : List α} {l : Ledger}, l.Routed txnOf inShard →
    (∀ x ∈ xs, ∀ l : Ledger, l.Routed txnOf inShard → (f l x).Routed txnOf inShard ∧
      agreed (f l x).log = if p x then commitOnce ballot (agreed l.log) (g x) else agreed l.log) →
    agreed (xs.foldl f l).log = ((xs.filter p).map g).foldl (commitOnce ballot) (agreed l.log) := by
  intro xs
  induction xs with
  | nil =>
    intro l _ _
    rfl
  | cons x xs ih =>
    intro l hl hbody
    obtain ⟨hnext, hseq⟩ := hbody x List.mem_cons_self l hl
    rw [List.foldl_cons, ih hnext fun y hy => hbody y (List.mem_cons_of_mem x hy), hseq, List.filter_cons]
    split
    · rfl
    · rfl

/-- A replica that commits the batch of a proposal. -/
theorem agreed_foldl_commitAccepted (a : AcceptReq) {l : Ledger} (h : l.Routed txnOf inShard)
    (hbatch : ∀ r ∈ a.batch, r.txn = txnOf r.tid) :
    agreed (a.batch.foldl (commitAccepted a.ballot) l).log = a.commits inShard (agreed l.log) := by
  have hcommits : a.commits inShard (agreed l.log) = ((a.batch.filter fun r =>
      r.txn.within inShard).map id).foldl (commitOnce a.ballot) (agreed l.log) := by
    rw [List.map_id]
    rfl
  rw [hcommits]
  apply agreed_foldl_commitOnce h
  intro r hr l hl
  have hintra : intraHere l r.txn = r.txn.within inShard := by
    rw [← hl.shard]
    rfl
  have hfree : ((l.unlockInShard r.txn.sender).unlockInShard r.txn.receiver).Routed txnOf inShard :=
    hl.step (.frame (.touch _ _ _))
  unfold commitAccepted
  dsimp only
  rw [hintra]
  split
  · rename_i hin
    refine ⟨hfree.step (.commit _ r a.ballot ⟨hbatch r hr, by simp, fun _ => hin⟩), ?_⟩
    exact hfree.agreed_commitTransaction (hbatch r hr) hin a.ballot
  · exact ⟨hfree, rfl⟩

/-- The leader that commits its batch, which came with routed requests. -/
theorem agreed_foldl_commitEntry (ballot : Ballot) {batch : List BatchEntry} {l : Ledger}
    (h : l.Routed txnOf inShard)
    (hbatch : ∀ b ∈ batch, routed txnOf inShard b.isCrossShard b.request.tid b.request.txn) :
    agreed (batch.foldl (commitEntry ballot) l).log =
      AcceptReq.commits inShard ⟨ballot, batch.map BatchEntry.request⟩ (agreed l.log) := by
  have hcommits : AcceptReq.commits inShard ⟨ballot, batch.map BatchEntry.request⟩ (agreed l.log) =
      ((batch.filter fun b => b.request.txn.within inShard).map BatchEntry.request).foldl
        (commitOnce ballot) (agreed l.log) := by
    rw [AcceptReq.commits, List.filter_map]
    rfl
  rw [hcommits]
  apply agreed_foldl_commitOnce h
  intro b hb l hl
  obtain ⟨htxn, hcross, hintra⟩ := hbatch b hb
  have hfree : (l.unlockBoth b.request.txn).Routed txnOf inShard :=
    hl.step (.frame (.touch _ _ _))
  unfold commitEntry
  cases hc : b.isCrossShard with
  | true =>
    have hout : b.request.txn.within inShard = false := by
      cases hin : b.request.txn.within inShard with
      | false => rfl
      | true =>
        have hno := hcross hc
        rw [Transaction.not_crosses_of_within hin] at hno
        cases hno
    rw [hout]
    exact ⟨hl, rfl⟩
  | false =>
    have hin := hintra hc
    rw [hin]
    refine ⟨hfree.step (.commit _ b.request ballot ⟨htxn, by simp, fun _ => hin⟩), ?_⟩
    exact hfree.agreed_commitTransaction htxn hin ballot

/-- The leader that validates its batch logs the prepares of what it keeps. -/
theorem agreed_admitAll (ballot : Ballot) {batch : List BatchEntry} (l : Ledger)
    (hbatch : ∀ b ∈ batch, routed txnOf inShard b.isCrossShard b.request.tid b.request.txn) :
    agreed (admitAll l ballot batch).ledger.log = agreed l.log ++
      AcceptReq.prepares inShard ⟨ballot, (admitAll l ballot batch).kept.map BatchEntry.request⟩ := by
  refine List.foldlRecOn (motive := fun a => agreed a.ledger.log = agreed l.log ++
    AcceptReq.prepares inShard ⟨ballot, a.kept.map BatchEntry.request⟩) batch (validateEntry ballot)
    (b := ⟨l, [], []⟩) (List.append_nil _).symm ?_
  intro a ha b hb
  obtain ⟨-, hcross, hintra⟩ := hbatch b hb
  unfold validateEntry
  split
  · exact ha
  · have hmore : AcceptReq.prepares inShard ⟨ballot, (a.kept ++ [b]).map BatchEntry.request⟩ =
        AcceptReq.prepares inShard ⟨ballot, a.kept.map BatchEntry.request⟩ ++
          if b.request.txn.crosses inShard then [WAL.preparedEntry b.request ballot] else [] := by
      simp only [AcceptReq.prepares, List.map_append, List.map_singleton, List.filter_append]
      cases hc : b.request.txn.crosses inShard with
      | true => simp [hc]
      | false => simp [hc]
    dsimp only
    rw [hmore, ← List.append_assoc, ← ha]
    cases hc : b.isCrossShard with
    | true =>
      rw [hcross hc]
      exact Ledger.agreed_prepareTransaction _ b.request ballot
    | false =>
      rw [Transaction.not_crosses_of_within (hintra hc)]
      exact (List.append_nil _).symm

end ServerImpl

end MultiPaxosDB
