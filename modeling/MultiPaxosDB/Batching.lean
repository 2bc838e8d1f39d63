/-
# MultiPaxosDB.Batching — one round for a batch, or one round for each of its kept entries.

The batched round validates every entry before it applies any, and releases the intra-shard locks only
at the end; a round per entry validates each against the effects of the ones before.  Both leave the
ledger described by `Done l bs l'`, in which the order of `bs` plays no part: every field is a set or a
sum over the entries.  `Done` is established for a whole round (`done_round`) from what validation
admits and from the commit loop; rounds of one entry each are chained by `Done.snoc`, which is where
the kept entries having no in-shard account in common is used.

Nothing is assumed about the file: a WAL that cannot be written makes an intra-shard commit apply
the sentinel entry, in either course.
-/
import Mathlib.Algebra.BigOperators.Group.List.Basic
import MultiPaxosDB.Validation

namespace MultiPaxosDB

open ServerImpl (Spares)

/-- A log entry up to its ballot. -/
def WALEntry.unballoted (e : WALEntry) : WALEntry := { e with ballotNum := 0, ballotServerId := 0 }

namespace Ledger

/-- The Paxos-agreed entries of the log, up to their ballots. -/
def agreedUpToBallot (l : Ledger) : List WALEntry := (agreed l.log).map WALEntry.unballoted

/-- The entry commits here with an effect: it is intra-shard, new, and the commit reaches the file. -/
def takesEffect (l : Ledger) (b : BatchEntry) : Bool :=
  !b.isCrossShard && decide (b.request.tid ∉ l.balanceApplied) && l.wal.canWrite

/-- What committing the entry adds to an account. -/
def moved (l : Ledger) (b : BatchEntry) (a : Int) : Int :=
  if l.takesEffect b then b.request.txn.effect a else 0

/-- What committing the entry adds to the agreed log. -/
def committed (l : Ledger) (b : BatchEntry) : List WALEntry :=
  if l.takesEffect b then [(WAL.committedEntry b.request .zero).unballoted] else []

/-- What a round adds to the agreed log for the entry. -/
def added (l : Ledger) (b : BatchEntry) : List WALEntry :=
  if b.isCrossShard then [(WAL.preparedEntry b.request .zero).unballoted] else l.committed b

/-- `l'` is the ledger `l` once the rounds of the entries `bs` have reached their accept quorum. -/
structure Done (l : Ledger) (bs : List BatchEntry) (l' : Ledger) : Prop where
  constants : l'.constants = l.constants
  clusterId : l'.clusterId = l.clusterId
  canWrite : l'.wal.canWrite = l.wal.canWrite
  balances : ∀ a, l'.balances a = l.balances a + .ofInt (bs.map fun b => l.moved b a).sum
  applied : ∀ t, t ∈ l'.balanceApplied ↔
    t ∈ l.balanceApplied ∨ ∃ b ∈ bs, b.isCrossShard = false ∧ b.request.tid = t
  locks : ∀ a, a ∈ l'.locks ↔
    (a ∈ l.locks ∨ ∃ b ∈ bs, b.isCrossShard = true ∧ a ∈ l.inShard b.request.txn) ∧
      ∀ b ∈ bs, Spares b a
  keys : ∀ t, t ∈ l'.wal.transferIndex ↔
    t ∈ l.wal.transferIndex ∨ ∃ b ∈ bs, b.isCrossShard = true ∧ b.request.tid = t
  agreed : l'.agreedUpToBallot.Perm (l.agreedUpToBallot ++ bs.flatMap l.added)

/-! ## The commit loop -/

/-- Committing `bs` one after the other turned `l` into `l'`. -/
structure Commits (l : Ledger) (bs : List BatchEntry) (l' : Ledger) : Prop where
  constants : l'.constants = l.constants
  clusterId : l'.clusterId = l.clusterId
  canWrite : l'.wal.canWrite = l.wal.canWrite
  balances : ∀ a, l'.balances a = l.balances a + .ofInt (bs.map fun b => l.moved b a).sum
  applied : ∀ t, t ∈ l'.balanceApplied ↔
    t ∈ l.balanceApplied ∨ ∃ b ∈ bs, b.isCrossShard = false ∧ b.request.tid = t
  locks : ∀ a, a ∈ l'.locks ↔ a ∈ l.locks ∧ ∀ b ∈ bs, Spares b a
  index : l'.wal.transferIndex = l.wal.transferIndex
  agreed : l'.agreedUpToBallot = l.agreedUpToBallot ++ bs.flatMap l.committed

section Commit

variable {l l' : Ledger} {bs : List BatchEntry} {b : BatchEntry} (ballot : Ballot)

theorem WAL.commitTransaction_keeps (w : WAL) (r : TransferReq) :
    (w.commitTransaction r ballot).1.transferIndex = w.transferIndex ∧
      (w.commitTransaction r ballot).1.canWrite = w.canWrite := by
  unfold WAL.commitTransaction
  split
  · exact ⟨rfl, rfl⟩
  · exact ⟨rfl, rfl⟩

theorem wal_commitTransaction_keeps (l : Ledger) (r : TransferReq) :
    (l.commitTransaction r ballot).wal.transferIndex = l.wal.transferIndex ∧
      (l.commitTransaction r ballot).wal.canWrite = l.wal.canWrite := by
  by_cases happlied : r.tid ∈ l.balanceApplied
  · rw [commitTransaction_applied ballot happlied]
    exact ⟨rfl, rfl⟩
  · rw [wal_commitTransaction happlied]
    exact WAL.commitTransaction_keeps ballot l.wal r

/-- When the commit does not reach the file the sentinel is applied: it moves `-1` from account `-1`
to itself, and is not an agreed entry. -/
theorem commitTransaction_unwritable {r : TransferReq} (hw : l.wal.canWrite = false) :
    (l.commitTransaction r ballot).balances = l.balances ∧
      (l.commitTransaction r ballot).agreedUpToBallot = l.agreedUpToBallot := by
  unfold commitTransaction
  split
  · exact ⟨rfl, rfl⟩
  · simp only [WAL.commitTransaction, hw, Bool.false_eq_true, ↓reduceIte]
    constructor
    · funext a
      have hback : l.balances (-1) + 1 + -1 = l.balances (-1) := by
        rw [Int32.add_assoc]
        exact Int32.add_zero _
      simp [updateBalance, addBalance, WALEntry.sentinel, hback]
    · simp [agreedUpToBallot, updateBalance, addBalance, MultiPaxosDB.agreed, WALEntry.sentinel,
        isPaxosEntry]

theorem agreedUpToBallot_append {log : List WALEntry} (h : l'.log = l.log ++ log) :
    l'.agreedUpToBallot = l.agreedUpToBallot ++ (MultiPaxosDB.agreed log).map WALEntry.unballoted := by
  rw [agreedUpToBallot, h, agreed_append, List.map_append]
  rfl

/-- What one commit does to the balances and to the agreed log. -/
theorem commitTransaction_effect (hb : b.isCrossShard = false) :
    (∀ a, (l.commitTransaction b.request ballot).balances a = l.balances a + .ofInt (l.moved b a)) ∧
      (l.commitTransaction b.request ballot).agreedUpToBallot =
        l.agreedUpToBallot ++ l.committed b := by
  by_cases happlied : b.request.tid ∈ l.balanceApplied
  · have hno : l.takesEffect b = false := by simp [takesEffect, happlied]
    rw [commitTransaction_applied ballot happlied]
    simp [moved, committed, hno]
  · cases hw : l.wal.canWrite with
    | false =>
      have hno : l.takesEffect b = false := by simp [takesEffect, hw]
      obtain ⟨hbalances, hagreed⟩ := commitTransaction_unwritable ballot (r := b.request) hw
      rw [hbalances, hagreed]
      simp [moved, committed, hno]
    | true =>
      have hyes : l.takesEffect b = true := by simp [takesEffect, happlied, hw, hb]
      constructor
      · intro a
        rw [balances_commitTransaction happlied hw, moved, if_pos hyes]
      · rw [agreedUpToBallot_append (log_commitTransaction happlied hw ballot), committed, if_pos hyes]
        rfl

omit ballot in
/-- Entries of other tids leave the effect of an entry as it was. -/
theorem takesEffect_after (happlied : ∀ t, t ∈ l'.balanceApplied ↔
      t ∈ l.balanceApplied ∨ ∃ b' ∈ bs, b'.isCrossShard = false ∧ b'.request.tid = t)
    (hwrite : l'.wal.canWrite = l.wal.canWrite) (hb : b.request.tid ∉ bs.map (·.request.tid)) :
    l'.takesEffect b = l.takesEffect b := by
  have hiff : b.request.tid ∈ l'.balanceApplied ↔ b.request.tid ∈ l.balanceApplied := by
    rw [happlied, or_iff_left]
    rintro ⟨b', hb', -, htid⟩
    exact hb (List.mem_map.mpr ⟨b', hb', htid⟩)
  simp only [takesEffect, hiff, hwrite]

theorem Commits.nil (l : Ledger) : l.Commits [] l where
  constants := rfl
  clusterId := rfl
  canWrite := rfl
  balances := by simp
  applied := by simp
  locks := by simp
  index := rfl
  agreed := by simp

theorem Commits.snoc (h : l.Commits bs l') (hb : b.request.tid ∉ bs.map (·.request.tid)) :
    l.Commits (bs ++ [b]) (ServerImpl.commitEntry ballot l' b) := by
  have heffect := takesEffect_after h.applied h.canWrite hb
  unfold ServerImpl.commitEntry
  cases hcross : b.isCrossShard with
  | true =>
    have hno : l.takesEffect b = false := by simp [Ledger.takesEffect, hcross]
    rw [if_pos rfl]
    refine ⟨h.constants, h.clusterId, h.canWrite, ?_, ?_, ?_, h.index, ?_⟩
    · intro a
      simp [h.balances a, moved, hno]
    · intro t
      simp [h.applied t, or_and_right, exists_or, hcross]
    · intro a
      simp [h.locks a, or_imp, forall_and, Spares, hcross]
    · simp [h.agreed, committed, hno]
  | false =>
    rw [if_neg Bool.false_ne_true]
    -- the locks go first; the commit does not look at them
    obtain ⟨hbalances, hagreed⟩ := commitTransaction_effect (l := l'.unlockBoth b.request.txn) ballot hcross
    obtain ⟨hindex, hwrite⟩ := wal_commitTransaction_keeps ballot (l'.unlockBoth b.request.txn) b.request
    refine ⟨?_, ?_, hwrite.trans h.canWrite, ?_, ?_, ?_, hindex.trans h.index, ?_⟩
    · rw [constants_commitTransaction]
      exact h.constants
    · rw [clusterId_commitTransaction]
      exact h.clusterId
    · intro a
      have hmoved : (l'.unlockBoth b.request.txn).moved b a = l.moved b a := by
        show (if l'.takesEffect b then _ else _) = _
        rw [heffect]
        rfl
      rw [hbalances a, hmoved, List.map_append, List.sum_append, List.map_singleton,
        List.sum_singleton, add_ofInt_add, ← h.balances a]
      rfl
    · intro t
      rw [balanceApplied_commitTransaction, Finset.mem_insert]
      show t = _ ∨ t ∈ l'.balanceApplied ↔ _
      rw [h.applied t]
      simp only [List.mem_append, List.mem_singleton, or_and_right, exists_or, exists_eq_left, hcross,
        true_and]
      constructor
      · rintro (rfl | hold | hnew)
        · exact .inr (.inr rfl)
        · exact .inl hold
        · exact .inr (.inl hnew)
      · rintro (hold | hnew | rfl)
        · exact .inr (.inl hold)
        · exact .inr (.inr hnew)
        · exact .inl rfl
    · intro a
      have hown : Spares b a ↔ a ≠ b.request.txn.sender ∧ a ≠ b.request.txn.receiver := by
        simp [Spares, hcross]
      rw [locks_commitTransaction, mem_locks_unlockBoth, h.locks a, and_assoc, List.forall_mem_append,
        List.forall_mem_singleton, hown]
    · have hcommitted : (l'.unlockBoth b.request.txn).committed b = l.committed b := by
        show (if l'.takesEffect b then _ else _) = _
        rw [heffect]
        rfl
      rw [hagreed, hcommitted, List.flatMap_append, List.flatMap_singleton, ← List.append_assoc,
        ← h.agreed]
      rfl

/-- The commit loop over entries of distinct tids. -/
theorem commits_foldl (l : Ledger) (bs : List BatchEntry) (hbs : (bs.map (·.request.tid)).Nodup) :
    l.Commits bs (bs.foldl (ServerImpl.commitEntry ballot) l) := by
  induction bs using List.reverseRecOn with
  | nil => exact .nil l
  | append_singleton bs b ih =>
    rw [List.map_append, List.nodup_append] at hbs
    obtain ⟨hinit, -, hlast⟩ := hbs
    rw [List.foldl_append]
    refine (ih hinit).snoc ballot ?_
    intro hmem
    exact hlast _ hmem _ (List.mem_singleton.mpr rfl) rfl

end Commit

/-! ## A whole round -/

section PrepareAll

variable (l : Ledger) (ballot : Ballot) (rs : List TransferReq)

theorem canWrite_prepareAll : (l.prepareAll ballot rs).wal.canWrite = l.wal.canWrite := by
  induction rs using List.reverseRecOn with
  | nil => rfl
  | append_singleton rs r ih =>
    rw [prepareAll_snoc, ← ih]
    rfl

theorem mem_transferIndex_prepareAll (t : Int) :
    t ∈ (l.prepareAll ballot rs).wal.transferIndex ↔
      t ∈ l.wal.transferIndex ∨ ∃ r ∈ rs, r.tid = t := by
  induction rs using List.reverseRecOn with
  | nil => simp [prepareAll]
  | append_singleton rs r ih =>
    have hinsert : t ∈ ((l.prepareAll ballot rs).prepareTransaction r ballot).wal.transferIndex ↔
        r.tid = t ∨ t ∈ (l.prepareAll ballot rs).wal.transferIndex := by
      show t ∈ (l.prepareAll ballot rs).wal.transferIndex.insert _ _ ↔ _
      rw [Std.ExtTreeMap.mem_insert, compare_eq_iff_eq]
    rw [prepareAll_snoc, hinsert, ih]
    simp only [List.mem_append, List.mem_singleton, or_and_right, exists_or, exists_eq_left]
    rw [or_comm, or_assoc]

theorem agreedUpToBallot_prepareAll :
    (l.prepareAll ballot rs).agreedUpToBallot =
      l.agreedUpToBallot ++ rs.map fun r => (WAL.preparedEntry r .zero).unballoted := by
  rw [agreedUpToBallot_append (log_prepareAll l ballot rs)]
  congr 1
  induction rs with
  | nil => rfl
  | cons r rs ih =>
    rw [List.map_cons, List.map_cons, ← ih]
    rfl

end PrepareAll

/-- The prepares of a batch followed by its commits are, up to order, what its entries add one by one. -/
theorem perm_added (l : Ledger) (bs : List BatchEntry) :
    ((crossRequests bs).map (fun r => (WAL.preparedEntry r .zero).unballoted) ++
      bs.flatMap l.committed).Perm (bs.flatMap l.added) := by
  induction bs with
  | nil => exact .refl _
  | cons b bs ih =>
    cases hcross : b.isCrossShard with
    | true =>
      have hno : l.committed b = [] := by simp [committed, takesEffect, hcross]
      rw [crossRequests, List.filter_cons_of_pos hcross, List.flatMap_cons, List.flatMap_cons, hno,
        added, if_pos hcross]
      exact ih.cons _
    | false =>
      rw [crossRequests, List.filter_cons_of_neg (by simp [hcross]), List.flatMap_cons, List.flatMap_cons,
        added, if_neg (by simp [hcross])]
      -- the commit moves in front of the prepares of the entries after it
      exact (List.perm_append_comm_assoc _ _ _).trans (ih.append_left _)

/-- The ledger once validation has kept `ks`, then the commit loop over them. -/
theorem done_of_commits {l l' : Ledger} (ballot : Ballot) (ks : List BatchEntry)
    (h : (l.keep ballot ks).Commits ks l') : l.Done ks l' := by
  have huntouched := l.untouched_prepareAll ballot (crossRequests ks)
  have hwrite := l.canWrite_prepareAll ballot (crossRequests ks)
  have heffect : (l.keep ballot ks).takesEffect = l.takesEffect := by
    funext b
    simp only [takesEffect, keep, huntouched.balanceApplied, hwrite]
  refine ⟨h.constants.trans huntouched.constants, h.clusterId.trans huntouched.clusterId,
    h.canWrite.trans hwrite, ?_, ?_, ?_, ?_, ?_⟩
  · intro a
    rw [h.balances a, show (l.keep ballot ks).balances = l.balances from huntouched.balances]
    simp only [moved, heffect]
  · intro t
    rw [h.applied t]
    simp only [keep, huntouched.balanceApplied]
  · intro a
    rw [h.locks a]
    show a ∈ l.locks ∪ l.accountsOf ks ∧ _ ↔ _
    rw [Finset.mem_union, mem_accountsOf]
    refine and_congr_left ?_
    intro hspared
    -- an account of an intra-shard entry has been released again
    refine or_congr_right ⟨?_, ?_⟩
    · rintro ⟨b, hb, ha⟩
      cases hcross : b.isCrossShard with
      | true => exact ⟨b, hb, hcross, ha⟩
      | false =>
        obtain ⟨hsender, hreceiver⟩ := hspared b hb hcross
        rcases (mem_inShard.mp ha).1 with heq | heq
        · exact absurd heq hsender
        · exact absurd heq hreceiver
    · rintro ⟨b, hb, -, ha⟩
      exact ⟨b, hb, ha⟩
  · intro t
    rw [h.index]
    refine (mem_transferIndex_prepareAll l ballot _ t).trans (or_congr_right ?_)
    simp only [crossRequests, List.mem_map, List.mem_filter, and_assoc]
    constructor
    · rintro ⟨r, ⟨b, hb, hcross, rfl⟩, htid⟩
      exact ⟨b, hb, hcross, htid⟩
    · rintro ⟨b, hb, hcross, htid⟩
      exact ⟨b.request, ⟨b, hb, hcross, rfl⟩, htid⟩
  · have hcommitted : (l.keep ballot ks).committed = l.committed := by
      funext b
      simp only [committed, heffect]
    have hagreed : (l.keep ballot ks).agreedUpToBallot = l.agreedUpToBallot ++
        (crossRequests ks).map fun r => (WAL.preparedEntry r .zero).unballoted :=
      agreedUpToBallot_prepareAll l ballot _
    rw [h.agreed, hcommitted, hagreed, List.append_assoc]
    exact (perm_added l ks).append_left _

/-! ## One entry more -/

namespace Done

variable {l l' l'' : Ledger} {bs bs' : List BatchEntry} {b : BatchEntry}

theorem nil (l : Ledger) : l.Done [] l where
  constants := rfl
  clusterId := rfl
  canWrite := rfl
  balances := by simp
  applied := by simp
  locks := by simp
  keys := by simp
  agreed := by simp

theorem inShard (h : l.Done bs l') (txn : Transaction) : l'.inShard txn = l.inShard txn :=
  inShard_congr h.constants h.clusterId txn

theorem isClientInCluster (h : l.Done bs l') (a : Int) :
    l'.isClientInCluster a = l.isClientInCluster a := by
  unfold Ledger.isClientInCluster
  rw [h.constants, h.clusterId]

/-- An account of the shard that is not the entry's is neither locked nor paid by it. -/
theorem outside {b' : BatchEntry} (hapart : l.Apart b'.request.txn b.request.txn) {a : Int}
    (ha : a ∈ l.inShard b.request.txn) :
    a ≠ b'.request.txn.sender ∧ a ≠ b'.request.txn.receiver := by
  have hin := (mem_inShard.mp ha).2
  constructor
  · rintro rfl
    exact hapart _ (mem_inShard.mpr ⟨.inl rfl, hin⟩) ha
  · rintro rfl
    exact hapart _ (mem_inShard.mpr ⟨.inr rfl, hin⟩) ha

/-- An entry that could be kept can still be kept after entries it is apart from. -/
theorem free (h : l.Done bs l') (hfree : l.Free b.request.txn)
    (hapart : ∀ b' ∈ bs, l.Apart b'.request.txn b.request.txn) : l'.Free b.request.txn where
  unlocked := by
    intro a ha hlocked
    rw [h.inShard] at ha
    rcases ((h.locks a).mp hlocked).1 with hold | ⟨b', hb', -, ha'⟩
    · exact hfree.unlocked a ha hold
    · exact hapart b' hb' a ha' ha
  funds := by
    intro hin
    rw [h.isClientInCluster] at hin
    have ha : b.request.txn.sender ∈ l.inShard b.request.txn := mem_inShard.mpr ⟨.inl rfl, hin⟩
    have hzero : (bs.map fun b' => l.moved b' b.request.txn.sender).sum = 0 := by
      refine List.sum_eq_zero ?_
      intro x hx
      obtain ⟨b', hb', rfl⟩ := List.mem_map.mp hx
      obtain ⟨hsender, hreceiver⟩ := outside (hapart b' hb') ha
      simp [moved, Transaction.effect, hsender.symm, hreceiver.symm]
    rw [h.balances, hzero, add_ofInt_zero]
    exact hfree.funds hin

/-- A round for one more entry, of another tid and apart from those before. -/
theorem snoc (h : l.Done bs l') (h' : l'.Done [b] l'') (htid : b.request.tid ∉ bs.map (·.request.tid))
    (hapart : ∀ b' ∈ bs, l.Apart b'.request.txn b.request.txn) : l.Done (bs ++ [b]) l'' := by
  have heffect : l'.takesEffect b = l.takesEffect b := takesEffect_after h.applied h.canWrite htid
  refine ⟨h'.constants.trans h.constants, h'.clusterId.trans h.clusterId, h'.canWrite.trans h.canWrite,
    ?_, ?_, ?_, ?_, ?_⟩
  · intro a
    rw [h'.balances a, h.balances a]
    simp only [moved, heffect, List.map_append, List.map_cons, List.map_nil, List.sum_append, add_ofInt_add]
  · intro t
    rw [h'.applied t, h.applied t]
    simp only [List.mem_append, or_and_right, exists_or, or_assoc]
  · intro a
    have hexists : (∃ x ∈ bs ++ [b], x.isCrossShard = true ∧ a ∈ l.inShard x.request.txn) ↔
        (∃ x ∈ bs, x.isCrossShard = true ∧ a ∈ l.inShard x.request.txn) ∨
          b.isCrossShard = true ∧ a ∈ l.inShard b.request.txn := by
      simp only [List.mem_append, List.mem_singleton, or_and_right, exists_or, exists_eq_left]
    rw [h'.locks a, h.locks a, hexists, List.forall_mem_append]
    simp only [h.inShard, List.mem_singleton, exists_eq_left, forall_eq]
    -- what the last round locks, no earlier round can have released: the accounts are apart
    constructor
    · rintro ⟨⟨hold | hcross, hspared⟩ | ⟨hcross, ha⟩, hlast⟩
      · exact ⟨.inl hold, hspared, hlast⟩
      · exact ⟨.inr (.inl hcross), hspared, hlast⟩
      · exact ⟨.inr (.inr ⟨hcross, ha⟩), fun b' hb' _ => outside (hapart b' hb') ha, hlast⟩
    · rintro ⟨hold | hcross | ⟨hcross, ha⟩, hspared, hlast⟩
      · exact ⟨.inl ⟨.inl hold, hspared⟩, hlast⟩
      · exact ⟨.inl ⟨.inr hcross, hspared⟩, hlast⟩
      · exact ⟨.inr ⟨hcross, ha⟩, hlast⟩
  · intro t
    rw [h'.keys t, h.keys t]
    simp only [List.mem_append, or_and_right, exists_or, or_assoc]
  · have hadded : l'.added b = l.added b := by simp only [added, committed, heffect]
    refine h'.agreed.trans ?_
    rw [List.flatMap_append, List.flatMap_singleton, List.flatMap_singleton, hadded, ← List.append_assoc]
    exact h.agreed.append_right _

/-- The description does not depend on the order of the entries. -/
theorem alike {m : Ledger} (h : l.Done bs l') (h' : l.Done bs' m) (hperm : bs'.Perm bs) :
    l'.balances = m.balances ∧ l'.locks = m.locks ∧
      (∀ t, t ∈ l'.wal.transferIndex ↔ t ∈ m.wal.transferIndex) ∧
      l'.agreedUpToBallot.Perm m.agreedUpToBallot := by
  refine ⟨?_, ?_, ?_, ?_⟩
  · funext a
    rw [h.balances, h'.balances, (hperm.map _).sum_eq]
  · ext a
    rw [h.locks, h'.locks]
    simp only [hperm.mem_iff]
  · intro t
    rw [h.keys, h'.keys]
    simp only [hperm.mem_iff]
  · exact h.agreed.trans (((hperm.symm.flatMap_right _).append_left _).trans h'.agreed.symm)

end Done

end Ledger

/-! ## Rounds -/

namespace ServerImpl

/-- A leader runs one round for `batch` to its accept quorum: it takes the batch, its prepare quorum is
reached and, if anything is kept, its accept quorum. -/
def runRound (s : ServerImpl) (batch : List BatchEntry) : ServerImpl :=
  let quorum := (startRound { s with pending := batch }).onPrepareQuorum
  if quorum.awaitAcceptDecision then quorum.onAcceptQuorum else quorum

/-- The entries the round for `batch` keeps. -/
def keptOf (s : ServerImpl) (batch : List BatchEntry) : List BatchEntry :=
  (startRound { s with pending := batch }).onPrepareQuorum.current

/-- The ballot of the next round. -/
def nextBallot (s : ServerImpl) : Ballot := { num := s.ballotNum + 1, serverId := s.serverId }

/-- What the validation of the next round admits. -/
def admission (s : ServerImpl) (batch : List BatchEntry) : Admission :=
  admitAll s.ledger s.nextBallot batch

section Round

variable (s : ServerImpl) (batch : List BatchEntry)

/-- With nothing pending, a finished round starts no other. -/
theorem finishRound_of_idle (h : s.pending = []) : s.finishRound = s.clearRound := by
  unfold finishRound maybeStartRound
  rw [if_pos]
  show (_ || _ || s.pending.isEmpty) = true
  rw [h, List.isEmpty_nil, Bool.or_true]

theorem keptOf_eq : s.keptOf batch = (s.admission batch).kept := by
  unfold keptOf onPrepareQuorum
  split
  · rename_i hempty
    rw [finishRound_of_idle _ rfl]
    exact (List.isEmpty_iff.mp hempty).symm
  · rfl

theorem runRound_spec :
    (s.runRound batch).ledger =
        (s.admission batch).kept.foldl (commitEntry s.nextBallot) (s.admission batch).ledger ∧
      (s.runRound batch).replies = s.replies ++ (s.admission batch).rejected.map (answer false) ++
        (s.admission batch).kept.map (answer true) := by
  unfold runRound onPrepareQuorum
  by_cases hempty : (startRound { s with pending := batch }).validate.current.isEmpty = true
  · have hkept : (s.admission batch).kept = [] := List.isEmpty_iff.mp hempty
    simp only [if_pos hempty]
    rw [finishRound_of_idle _ rfl, hkept]
    exact ⟨rfl, (List.append_nil _).symm⟩
  · simp only [if_neg hempty]
    have hawait : (startRound { s with pending := batch }).validate.propose.awaitAcceptDecision = true := rfl
    rw [if_pos hawait, onAcceptQuorum, finishRound_of_idle _ rfl]
    exact ⟨rfl, rfl⟩

theorem done_round (htids : (batch.map (·.request.tid)).Nodup) :
    s.ledger.Done (s.keptOf batch) (s.runRound batch).ledger := by
  obtain ⟨K, hK⟩ := admits_admitAll s.ledger s.nextBallot batch
  have hsub : (s.admission batch).kept.Sublist batch := by
    rw [admission, hK.kept]
    exact Lib.pick_sublist _ _
  rw [(s.runRound_spec batch).1, keptOf_eq, admission, hK.ledger]
  exact Ledger.done_of_commits s.nextBallot _
    (Ledger.commits_foldl _ _ _ (htids.sublist (hsub.map _)))

/-- A round for one entry that can be kept keeps it, and answers it true. -/
theorem runRound_single {b : BatchEntry} (hfree : s.ledger.Free b.request.txn) :
    s.keptOf [b] = [b] ∧ (s.runRound [b]).replies = s.replies ++ [answer true b] := by
  have hkept : validateEntry s.nextBallot { ledger := s.ledger, rejected := [], kept := [] } b =
      { ledger := (s.admission [b]).ledger, rejected := [], kept := [b] } := by
    have htest := Ledger.rejects_eq_false_iff.mpr hfree
    unfold admission admitAll
    rw [List.foldl_cons, List.foldl_nil, validateEntry, if_neg (by rw [htest]; exact Bool.false_ne_true)]
    rfl
  have hadmission : s.admission [b] = { ledger := (s.admission [b]).ledger, rejected := [], kept := [b] } :=
    hkept
  constructor
  · rw [keptOf_eq, hadmission]
  · rw [(s.runRound_spec [b]).2, hadmission]
    simp

end Round

/-- Rounds of one entry each, for entries that could all be kept and are apart from each other. -/
theorem done_singles (s : ServerImpl) (bs : List BatchEntry)
    (htids : (bs.map (·.request.tid)).Nodup) (hfree : ∀ b ∈ bs, s.ledger.Free b.request.txn)
    (hapart : bs.Pairwise fun b b' => s.ledger.Apart b.request.txn b'.request.txn) :
    s.ledger.Done bs (bs.foldl (fun s b => s.runRound [b]) s).ledger ∧
      (bs.foldl (fun s b => s.runRound [b]) s).replies = s.replies ++ bs.map (answer true) := by
  induction bs using List.reverseRecOn with
  | nil => exact ⟨.nil _, (List.append_nil _).symm⟩
  | append_singleton bs b ih =>
    rw [List.map_append, List.nodup_append] at htids
    obtain ⟨hinit, -, hlast⟩ := htids
    obtain ⟨hpairs, -, hpair⟩ := List.pairwise_append.mp hapart
    obtain ⟨hdone, hreplies⟩ := ih hinit (fun b' hb' => hfree b' (List.mem_append_left _ hb')) hpairs
    have hb := hfree b (List.mem_append_right _ (List.mem_singleton.mpr rfl))
    have hsep : ∀ b' ∈ bs, s.ledger.Apart b'.request.txn b.request.txn := fun b' hb' =>
      hpair b' hb' b (List.mem_singleton.mpr rfl)
    rw [List.foldl_append, List.foldl_cons, List.foldl_nil, List.map_append, List.map_singleton,
      ← List.append_assoc, ← hreplies]
    -- the rounds before have left the accounts of `b` free and its sender's balance as it was
    obtain ⟨hkept, hanswer⟩ := runRound_single _ (hdone.free hb hsep)
    refine ⟨hdone.snoc ?_ (fun hmem => hlast _ hmem _ (List.mem_singleton.mpr rfl) rfl) hsep, hanswer⟩
    have hround := done_round (bs.foldl (fun s b => s.runRound [b]) s) [b] (List.nodup_singleton _)
    rwa [hkept] at hround

/-- **Batching is transparent.**  From any state of a leader, one round for a batch of distinct tids
gives the balances, the locks, the pending tids and, up to ballot and order, the agreed log that one
round for each kept entry gives, in any order; and each of those rounds accepts its entry. -/
theorem batching_transparent (s : ServerImpl) (batch order : List BatchEntry)
    (htids : (batch.map (·.request.tid)).Nodup) (horder : order.Perm (s.keptOf batch)) :
    let whole := (s.runRound batch).ledger
    let singles := order.foldl (fun s b => s.runRound [b]) s
    whole.balances = singles.ledger.balances ∧ whole.locks = singles.ledger.locks ∧
      (∀ t, t ∈ whole.wal.transferIndex ↔ t ∈ singles.ledger.wal.transferIndex) ∧
      whole.agreedUpToBallot.Perm singles.ledger.agreedUpToBallot ∧
      singles.replies = s.replies ++ order.map (answer true) := by
  obtain ⟨K, hK⟩ := admits_admitAll s.ledger s.nextBallot batch
  have hkept : s.keptOf batch = Lib.pick (· ∈ K) batch := (s.keptOf_eq batch).trans hK.kept
  have hsub : (s.keptOf batch).Sublist batch := by
    rw [hkept]
    exact Lib.pick_sublist _ _
  have hfree : ∀ b ∈ order, s.ledger.Free b.request.txn := by
    intro b hb
    rw [horder.mem_iff, hkept, Lib.mem_pick] at hb
    obtain ⟨i, hi, hb⟩ := hb
    exact ((hK.greedy.exact i b hb).mp hi).1
  have hapart : order.Pairwise fun b b' => s.ledger.Apart b.request.txn b'.request.txn := by
    have hpairs := apart_kept s.ledger s.nextBallot batch
    rw [show (admitAll s.ledger s.nextBallot batch).kept = s.keptOf batch from (s.keptOf_eq batch).symm]
      at hpairs
    exact hpairs.perm horder.symm fun h => h.symm
  have hnodup : (order.map (·.request.tid)).Nodup :=
    (horder.map _).nodup_iff.mpr (htids.sublist (hsub.map _))
  obtain ⟨hsingles, hreplies⟩ := done_singles s order hnodup hfree hapart
  obtain ⟨hbalances, hlocks, hkeys, hagreed⟩ := (done_round s batch htids).alike hsingles horder
  exact ⟨hbalances, hlocks, hkeys, hagreed, hreplies⟩

/-- An intra-shard transfer, a cross-shard one, and a transfer whose sender the first has locked. -/
def threeTransfers : List BatchEntry :=
  [⟨⟨⟨1, 2, 5⟩, 1⟩, 1, false⟩, ⟨⟨⟨3, 1001, 4⟩, 2⟩, 2, true⟩, ⟨⟨⟨2, 4, 1⟩, 3⟩, 3, false⟩]

theorem batching_transparent_threeTransfers :
    let s := fresh ⟨3, 3⟩ 1
    let order : List BatchEntry := [⟨⟨⟨3, 1001, 4⟩, 2⟩, 2, true⟩, ⟨⟨⟨1, 2, 5⟩, 1⟩, 1, false⟩]
    order.Perm (s.keptOf threeTransfers) ∧
      (s.runRound threeTransfers).ledger.locks =
        (order.foldl (fun s b => s.runRound [b]) s).ledger.locks := by
  intro s order
  have hperm : order.Perm (s.keptOf threeTransfers) := by decide +kernel
  exact ⟨hperm, (batching_transparent s threeTransfers order (by decide) hperm).2.1⟩

end ServerImpl

end MultiPaxosDB
