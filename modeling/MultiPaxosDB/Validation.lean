/-
# MultiPaxosDB.Validation — what `onPrepareQuorum` keeps of a batch, and what that does to the ledger.

The validation loop decides each entry against a ledger that the entries before it have already
changed.  It is nevertheless a greedy choice over the ledger *before* the round: keeping an entry
adds its in-shard accounts to the locks and, if it is cross-shard, prepares it, and neither touches a
balance.  So the loop only ever compares an entry with the old locks, with the old balances and with
the accounts of the entries kept so far (`Ledger.Admissible`), and the ledger it leaves is the old one
with the kept cross-shard requests prepared in order and the accounts of the kept entries locked
(`Admits`).
-/
import Mathlib.Data.Finset.Lattice.Lemmas
import MultiPaxosDB.Lib.Greedy
import MultiPaxosDB.Locks

namespace MultiPaxosDB

open Lib (pick Greedy)

/-! ## The kept entries as one change of the ledger -/

/-- The requests of the cross-shard entries, in order. -/
def crossRequests (bs : List BatchEntry) : List TransferReq :=
  (bs.filter BatchEntry.isCrossShard).map BatchEntry.request

theorem crossRequests_append (bs bs' : List BatchEntry) :
    crossRequests (bs ++ bs') = crossRequests bs ++ crossRequests bs' := by
  rw [crossRequests, List.filter_append, List.map_append]
  rfl

/-- The `CS_PREPARE` line of a request. -/
def preparedLine (ballot : Ballot) (r : TransferReq) : WalLine :=
  { op := .keyed .cross .prepared, tid := r.tid, ballotNum := ballot.num,
    ballotServerId := ballot.serverId, txn := r.txn }

namespace Ledger

/-- Preparing requests one after the other. -/
def prepareAll (l : Ledger) (ballot : Ballot) (rs : List TransferReq) : Ledger :=
  rs.foldl (fun l r => l.prepareTransaction r ballot) l

/-- The in-shard accounts of a list of entries. -/
def accountsOf (l : Ledger) (bs : List BatchEntry) : Finset Int :=
  (bs.flatMap fun b => l.inShard b.request.txn).toFinset

theorem mem_accountsOf {l : Ledger} {bs : List BatchEntry} {a : Int} :
    a ∈ l.accountsOf bs ↔ ∃ b ∈ bs, a ∈ l.inShard b.request.txn := by
  simp only [accountsOf, List.mem_toFinset, List.mem_flatMap]

/-- The ledger once the entries `ks` are kept: the cross-shard ones prepared, the accounts of all of
them locked. -/
def keep (l : Ledger) (ballot : Ballot) (ks : List BatchEntry) : Ledger :=
  { l.prepareAll ballot (crossRequests ks) with locks := l.locks ∪ l.accountsOf ks }

/-- The transactions have no in-shard account in common. -/
def Apart (l : Ledger) (txn txn' : Transaction) : Prop := ∀ a ∈ l.inShard txn, a ∉ l.inShard txn'

theorem Apart.symm {l : Ledger} {txn txn' : Transaction} (h : l.Apart txn txn') : l.Apart txn' txn :=
  fun a ha ha' => h a ha' ha

/-- The transaction could be kept on its own: its in-shard accounts are free and its sender, if in the
shard, can pay. -/
structure Free (l : Ledger) (txn : Transaction) : Prop where
  unlocked : ∀ a ∈ l.inShard txn, a ∉ l.locks
  funds : l.isClientInCluster txn.sender = true → txn.amount ≤ (l.balances txn.sender).toInt

/-- The test of the loop, over the ledger before the round and the entries kept so far. -/
def Admissible (l : Ledger) (kept : List BatchEntry) (b : BatchEntry) : Prop :=
  l.Free b.request.txn ∧ ∀ b' ∈ kept, l.Apart b'.request.txn b.request.txn

instance (l : Ledger) (txn : Transaction) : Decidable (l.Free txn) :=
  decidable_of_iff ((∀ a ∈ l.inShard txn, a ∉ l.locks) ∧
    (l.isClientInCluster txn.sender = true → txn.amount ≤ (l.balances txn.sender).toInt))
    ⟨fun h => ⟨h.1, h.2⟩, fun h => ⟨h.unlocked, h.funds⟩⟩

instance (l : Ledger) (txn txn' : Transaction) : Decidable (l.Apart txn txn') :=
  inferInstanceAs (Decidable (∀ a ∈ _, a ∉ _))

instance (l : Ledger) (kept : List BatchEntry) (b : BatchEntry) : Decidable (l.Admissible kept b) :=
  inferInstanceAs (Decidable (_ ∧ ∀ b' ∈ kept, _))

/-- The greedy choice from a batch: entry after entry, what is admissible beside those chosen so far. -/
def choice (l : Ledger) (batch : List BatchEntry) : List BatchEntry :=
  batch.foldl (fun kept b => if l.Admissible kept b then kept ++ [b] else kept) []

variable {l : Ledger} {ballot : Ballot}

theorem rejects_eq_false_iff {txn : Transaction} :
    ServerImpl.rejects l txn = false ↔ l.Free txn := by
  simp only [ServerImpl.rejects, Bool.or_eq_false_iff, Bool.and_eq_false_imp, decide_eq_false_iff_not,
    not_lt]
  constructor
  · rintro ⟨⟨hsender, hreceiver⟩, hfunds⟩
    refine ⟨?_, hfunds⟩
    intro a ha
    obtain ⟨rfl | rfl, hin⟩ := mem_inShard.mp ha
    · exact hsender hin
    · exact hreceiver hin
  · rintro ⟨hfree, hfunds⟩
    exact ⟨⟨fun hin => hfree _ (mem_inShard.mpr ⟨.inl rfl, hin⟩),
      fun hin => hfree _ (mem_inShard.mpr ⟨.inr rfl, hin⟩)⟩, hfunds⟩

section PrepareAll

variable (l ballot) (rs : List TransferReq)

theorem prepareAll_snoc (r : TransferReq) :
    l.prepareAll ballot (rs ++ [r]) = (l.prepareAll ballot rs).prepareTransaction r ballot := by
  rw [prepareAll, List.foldl_append]
  rfl

theorem log_prepareAll : (l.prepareAll ballot rs).log = l.log ++ rs.map fun r => WAL.preparedEntry r ballot := by
  induction rs using List.reverseRecOn with
  | nil => simp [prepareAll]
  | append_singleton rs r ih =>
    rw [prepareAll_snoc, List.map_append, ← List.append_assoc, ← ih]
    rfl

theorem wal_prepareAll :
    (l.prepareAll ballot rs).wal = rs.foldl (fun w r => (w.prepareTransaction r ballot).1) l.wal := by
  induction rs using List.reverseRecOn with
  | nil => rfl
  | append_singleton rs r ih =>
    rw [prepareAll_snoc, List.foldl_append, ← ih]
    rfl

/-- What preparing leaves alone. -/
structure Untouched (l l' : Ledger) : Prop where
  constants : l'.constants = l.constants
  clusterId : l'.clusterId = l.clusterId
  balances : l'.balances = l.balances
  dbBalances : l'.dbBalances = l.dbBalances
  balanceApplied : l'.balanceApplied = l.balanceApplied
  locks : l'.locks = l.locks
  clock : l'.clock = l.clock

theorem untouched_prepareAll : l.Untouched (l.prepareAll ballot rs) := by
  induction rs using List.reverseRecOn with
  | nil => exact ⟨rfl, rfl, rfl, rfl, rfl, rfl, rfl⟩
  | append_singleton rs r ih =>
    rw [prepareAll_snoc]
    exact ⟨ih.constants, ih.clusterId, ih.balances, ih.dbBalances, ih.balanceApplied, ih.locks, ih.clock⟩

end PrepareAll

/-- The accounts in the shard depend on the shard only. -/
theorem inShard_congr {l l' : Ledger} (hc : l'.constants = l.constants)
    (hi : l'.clusterId = l.clusterId) (txn : Transaction) : l'.inShard txn = l.inShard txn := by
  unfold inShard isClientInCluster
  rw [hc, hi]

end Ledger

theorem WAL.file_prepareAll {w : WAL} (hw : w.canWrite = true) (ballot : Ballot)
    (rs : List TransferReq) :
    (rs.foldl (fun w r => (w.prepareTransaction r ballot).1) w).file =
        w.file ++ rs.map (preparedLine ballot) ∧
      (rs.foldl (fun w r => (w.prepareTransaction r ballot).1) w).canWrite = true := by
  induction rs using List.reverseRecOn with
  | nil => exact ⟨by simp, hw⟩
  | append_singleton rs r ih =>
    rw [List.foldl_append, List.map_append, ← List.append_assoc, ← ih.1]
    exact ⟨if_pos ih.2, ih.2⟩

/-! ## The validation loop -/

namespace ServerImpl

/-- The loop over `batch` chose the positions `K`: what it kept, what it turned away, and the ledger it
left. -/
structure Admits (l : Ledger) (ballot : Ballot) (batch : List BatchEntry) (a : Admission)
    (K : Finset ℕ) : Prop where
  greedy : Greedy l.Admissible batch K
  kept : a.kept = pick (· ∈ K) batch
  rejected : a.rejected = pick (· ∉ K) batch
  ledger : a.ledger = l.keep ballot a.kept

section Loop

variable {l : Ledger} {ballot : Ballot} {batch : List BatchEntry} {a : Admission} {K : Finset ℕ}

theorem Admits.inShard (h : Admits l ballot batch a K) (txn : Transaction) :
    a.ledger.inShard txn = l.inShard txn := by
  rw [h.ledger]
  have huntouched := l.untouched_prepareAll ballot (crossRequests a.kept)
  exact Ledger.inShard_congr huntouched.constants huntouched.clusterId txn

/-- The test against the current ledger is the test against the old one and the entries kept. -/
theorem Admits.free_iff (h : Admits l ballot batch a K) (b : BatchEntry) :
    a.ledger.Free b.request.txn ↔ l.Admissible (pick (· ∈ K) batch) b := by
  have huntouched := l.untouched_prepareAll ballot (crossRequests a.kept)
  have hlocks : ∀ x, x ∈ a.ledger.locks ↔ x ∈ l.locks ∨ x ∈ l.accountsOf a.kept := by
    intro x
    rw [h.ledger]
    exact Finset.mem_union
  have hin : ∀ x, a.ledger.isClientInCluster x = l.isClientInCluster x := by
    intro x
    rw [h.ledger]
    show MultiPaxosDB.isClientInCluster (l.prepareAll _ _).constants x (l.prepareAll _ _).clusterId = _
    rw [huntouched.constants, huntouched.clusterId]
    rfl
  have hbal : a.ledger.balances = l.balances := by
    rw [h.ledger]
    exact huntouched.balances
  rw [← h.kept]
  -- a lock is old or of an entry kept before; the funds are those of the old ledger
  constructor
  · rintro ⟨hfree, hfunds⟩
    refine ⟨⟨?_, ?_⟩, ?_⟩
    · intro x hx hmem
      exact hfree x (by rwa [h.inShard]) ((hlocks x).mpr (.inl hmem))
    · rwa [hin, hbal] at hfunds
    · intro b' hb' x hx hx'
      exact hfree x (by rwa [h.inShard])
        ((hlocks x).mpr (.inr (Ledger.mem_accountsOf.mpr ⟨b', hb', hx⟩)))
  · rintro ⟨⟨hfree, hfunds⟩, hapart⟩
    refine ⟨?_, ?_⟩
    · intro x hx hmem
      rw [h.inShard] at hx
      rcases (hlocks x).mp hmem with hold | hkept
      · exact hfree x hx hold
      · obtain ⟨b', hb', hx'⟩ := Ledger.mem_accountsOf.mp hkept
        exact hapart b' hb' x hx' hx
    · rwa [hin, hbal]

/-- The ledger after keeping one more entry. -/
theorem Admits.ledger_keep (h : Admits l ballot batch a K) (b : BatchEntry) :
    (if b.isCrossShard then
        ((a.ledger.lockInShard b.request.txn.sender).lockInShard b.request.txn.receiver).prepareTransaction
          b.request ballot
      else (a.ledger.lockInShard b.request.txn.sender).lockInShard b.request.txn.receiver) =
      l.keep ballot (a.kept ++ [b]) := by
  have hlocks : ((a.ledger.lockInShard b.request.txn.sender).lockInShard b.request.txn.receiver).locks =
      l.locks ∪ l.accountsOf (a.kept ++ [b]) := by
    ext x
    rw [Ledger.mem_locks_lockBoth, h.inShard, h.ledger, Ledger.keep]
    simp only [Finset.mem_union, Ledger.mem_accountsOf, List.mem_append, List.mem_singleton]
    constructor
    · rintro ((hx | ⟨b', hb', hx⟩) | hx)
      · exact .inl hx
      · exact .inr ⟨b', .inl hb', hx⟩
      · exact .inr ⟨b, .inr rfl, hx⟩
    · rintro (hx | ⟨b', hb' | rfl, hx⟩)
      · exact .inl (.inl hx)
      · exact .inl (.inr ⟨b', hb', hx⟩)
      · exact .inr hx
  -- preparing a request neither reads nor writes the locks
  cases hcross : b.isCrossShard with
  | true =>
    rw [if_pos rfl, Ledger.keep, crossRequests_append, ← hlocks]
    have hone : crossRequests [b] = [b.request] := by simp [crossRequests, hcross]
    rw [hone, Ledger.prepareAll_snoc]
    rw [h.ledger]
    rfl
  | false =>
    rw [if_neg Bool.false_ne_true, Ledger.keep, crossRequests_append, ← hlocks]
    have hnone : crossRequests [b] = [] := by simp [crossRequests, hcross]
    rw [hnone, List.append_nil]
    rw [h.ledger]
    rfl

theorem Admits.step (h : Admits l ballot batch a K) (b : BatchEntry) :
    ∃ K', Admits l ballot (batch ++ [b]) (validateEntry ballot a b) K' := by
  cases htest : rejects a.ledger b.request.txn with
  | true =>
    have hnot : ¬ l.Admissible (pick (· ∈ K) batch) b := by
      rw [← h.free_iff, ← Ledger.rejects_eq_false_iff, htest]
      exact nofun
    rw [validateEntry, if_pos htest]
    obtain ⟨hpick, hpick'⟩ := h.greedy.pick_skip (x := b)
    refine ⟨K, h.greedy.skip hnot, ?_, ?_, h.ledger⟩
    · rw [hpick]
      exact h.kept
    · rw [hpick', ← h.rejected]
  | false =>
    have hok : l.Admissible (pick (· ∈ K) batch) b :=
      (h.free_iff b).mp (Ledger.rejects_eq_false_iff.mp htest)
    rw [validateEntry, if_neg (by rw [htest]; exact Bool.false_ne_true)]
    obtain ⟨hpick, hpick'⟩ := Greedy.pick_keep batch b K
    refine ⟨insert batch.length K, h.greedy.keep hok, ?_, ?_, h.ledger_keep b⟩
    · rw [hpick, ← h.kept]
    · rw [hpick', ← h.rejected]

/-- The loop makes a greedy choice, for every ledger and batch. -/
theorem admits_admitAll (l : Ledger) (ballot : Ballot) (batch : List BatchEntry) :
    ∃ K, Admits l ballot batch (admitAll l ballot batch) K := by
  induction batch using List.reverseRecOn with
  | nil =>
    refine ⟨∅, .nil, rfl, rfl, ?_⟩
    show l = { l with locks := l.locks ∪ ∅ }
    rw [Finset.union_empty]
  | append_singleton batch b ih =>
    obtain ⟨K, hK⟩ := ih
    rw [admitAll, List.foldl_append]
    exact hK.step b

/-- What the loop keeps can be chosen from the old ledger alone. -/
theorem kept_admitAll (l : Ledger) (ballot : Ballot) (batch : List BatchEntry) :
    (admitAll l ballot batch).kept = l.choice batch := by
  induction batch using List.reverseRecOn with
  | nil => rfl
  | append_singleton batch b ih =>
    obtain ⟨K, hK⟩ := admits_admitAll l ballot batch
    have hiff : rejects (admitAll l ballot batch).ledger b.request.txn = false ↔ l.Admissible (l.choice batch) b := by
      rw [Ledger.rejects_eq_false_iff, hK.free_iff, ← hK.kept, ih]
    rw [admitAll, Ledger.choice, List.foldl_append, List.foldl_append]
    show (validateEntry ballot (admitAll l ballot batch) b).kept =
      if l.Admissible (l.choice batch) b then l.choice batch ++ [b] else l.choice batch
    cases htest : rejects (admitAll l ballot batch).ledger b.request.txn with
    | true =>
      have hnot : ¬ l.Admissible (l.choice batch) b := by
        rw [← hiff, htest]
        exact nofun
      rw [if_neg hnot, validateEntry, if_pos htest]
      exact ih
    | false =>
      rw [if_pos (hiff.mp htest), validateEntry, if_neg (by rw [htest]; exact Bool.false_ne_true), ← ih]

/-- Kept entries share no in-shard account. -/
theorem apart_kept (l : Ledger) (ballot : Ballot) (batch : List BatchEntry) :
    (admitAll l ballot batch).kept.Pairwise fun b b' => l.Apart b.request.txn b'.request.txn := by
  induction batch using List.reverseRecOn with
  | nil => exact List.Pairwise.nil
  | append_singleton batch b ih =>
    obtain ⟨K, hK⟩ := admits_admitAll l ballot batch
    rw [admitAll, List.foldl_append]
    show (validateEntry ballot (admitAll l ballot batch) b).kept.Pairwise _
    cases htest : rejects (admitAll l ballot batch).ledger b.request.txn with
    | true =>
      rw [validateEntry, if_pos htest]
      exact ih
    | false =>
      have hok := (hK.free_iff b).mp (Ledger.rejects_eq_false_iff.mp htest)
      rw [← hK.kept] at hok
      rw [validateEntry, if_neg (by rw [htest]; exact Bool.false_ne_true)]
      refine List.pairwise_append.mpr ⟨ih, List.pairwise_singleton _ _, ?_⟩
      intro b' hb' b'' hb''
      rw [List.mem_singleton.mp hb'']
      exact hok.2 b' hb'

end Loop

/-! ## `onPrepareQuorum` -/

theorem ledger_onPrepareQuorum (s : ServerImpl) :
    s.onPrepareQuorum.ledger = (admitAll s.ledger s.promisedNum s.current).ledger := by
  unfold onPrepareQuorum
  split
  · exact ledger_maybeStartRound _
  · rfl

theorem replies_maybeStartRound (s : ServerImpl) : s.maybeStartRound.replies = s.replies := by
  unfold maybeStartRound
  split <;> rfl

/-- Starting a round sends prepare requests only. -/
theorem outbox_maybeStartRound (s : ServerImpl) :
    ∃ sent, s.maybeStartRound.outbox = s.outbox ++ sent ∧ ∀ c ∈ sent, ∃ r, c.req = .prepare r := by
  unfold maybeStartRound
  split
  · exact ⟨[], (List.append_nil _).symm, fun c hc => absurd hc List.not_mem_nil⟩
  · refine ⟨_, rfl, ?_⟩
    intro c hc
    obtain ⟨dst, -, rfl⟩ := List.mem_map.mp hc
    exact ⟨_, rfl⟩

/-- The answer `completeTransfer(ack, tid)` makes to the call of an entry. -/
def answer (ack : Bool) (b : BatchEntry) : TransferRes :=
  { call := b.call, ack := ack, tid := b.request.tid }

/-- `onPrepareQuorum` on the batch `current_` keeps exactly the positions `K`. -/
structure ValidatedAs (s : ServerImpl) (K : Finset ℕ) : Prop where
  /-- An entry is kept exactly when its in-shard accounts are free, also of the earlier kept entries,
  and its sender, if in the shard, can pay. -/
  kept_iff : ∀ i b, s.current[i]? = some b →
    (i ∈ K ↔ (∀ a ∈ s.ledger.inShard b.request.txn, a ∉ s.ledger.locks) ∧
      (∀ j < i, j ∈ K → ∀ b', s.current[j]? = some b' →
        ∀ a ∈ s.ledger.inShard b.request.txn, a ∉ s.ledger.inShard b'.request.txn) ∧
      (s.ledger.isClientInCluster b.request.txn.sender = true →
        (s.ledger.balances b.request.txn.sender).toInt ≥ b.request.txn.amount))
  apart : (pick (· ∈ K) s.current).Pairwise fun b b' =>
    ∀ a ∈ s.ledger.inShard b.request.txn, a ∉ s.ledger.inShard b'.request.txn
  locks : ∀ a, a ∈ s.onPrepareQuorum.ledger.locks ↔
    a ∈ s.ledger.locks ∨ ∃ b ∈ pick (· ∈ K) s.current, a ∈ s.ledger.inShard b.request.txn
  /-- Every call that is not kept is answered false, once and in order, and no other call is. -/
  replies : s.onPrepareQuorum.replies = s.replies ++ (pick (· ∉ K) s.current).map (answer false)
  log : s.onPrepareQuorum.ledger.log =
    s.ledger.log ++ (crossRequests (pick (· ∈ K) s.current)).map fun r => WAL.preparedEntry r s.promisedNum
  wal : s.onPrepareQuorum.ledger.wal = (crossRequests (pick (· ∈ K) s.current)).foldl
    (fun w r => (w.prepareTransaction r s.promisedNum).1) s.ledger.wal
  file : s.ledger.wal.canWrite = true → s.onPrepareQuorum.ledger.wal.file = s.ledger.wal.file ++
    (crossRequests (pick (· ∈ K) s.current)).map (preparedLine s.promisedNum)
  /-- The accept request that goes to every stub carries the kept requests in order. -/
  proposed : pick (· ∈ K) s.current ≠ [] →
    s.onPrepareQuorum.current = pick (· ∈ K) s.current ∧
      s.onPrepareQuorum.outbox = s.outbox ++ s.stubs.map fun dst =>
        { dst := dst
          req := .accept { ballot := s.promisedNum
                           batch := (pick (· ∈ K) s.current).map BatchEntry.request } }
  /-- A round of which nothing is kept proposes nothing. -/
  dropped : pick (· ∈ K) s.current = [] → ∃ sent, s.onPrepareQuorum.outbox = s.outbox ++ sent ∧
    ∀ c ∈ sent, ∀ r, c.req ≠ .accept r

/-- For every server state — every lock set, balance map and batch — the validation is the greedy
choice described by `ValidatedAs`, and everything `onPrepareQuorum` does follows that choice. -/
theorem batch_validation_exact (s : ServerImpl) : ∃ K, s.ValidatedAs K := by
  obtain ⟨K, hK⟩ := admits_admitAll s.ledger s.promisedNum s.current
  have hledger := (ledger_onPrepareQuorum s).trans hK.ledger
  have huntouched := s.ledger.untouched_prepareAll s.promisedNum (crossRequests (pick (· ∈ K) s.current))
  rw [hK.kept] at hledger
  have hcurrent : s.validate.current = pick (· ∈ K) s.current := hK.kept
  have hreplies : s.validate.replies = s.replies ++ (pick (· ∉ K) s.current).map (answer false) := by
    rw [← hK.rejected]
    rfl
  have hwal : s.onPrepareQuorum.ledger.wal = (crossRequests (pick (· ∈ K) s.current)).foldl
      (fun w r => (w.prepareTransaction r s.promisedNum).1) s.ledger.wal := by
    rw [hledger]
    exact Ledger.wal_prepareAll _ _ _
  refine ⟨K, ?_, ?_, ?_, ?_, ?_, hwal, ?_, ?_, ?_⟩
  · intro i b hb
    rw [hK.greedy.exact i b hb]
    constructor
    · rintro ⟨⟨hfree, hfunds⟩, hapart⟩
      refine ⟨hfree, ?_, hfunds⟩
      intro j hj hmem b' hb'
      exact (hapart b' (Greedy.mem_pick_take.mpr ⟨j, hj, hmem, hb'⟩)).symm
    · rintro ⟨hfree, hapart, hfunds⟩
      refine ⟨⟨hfree, hfunds⟩, ?_⟩
      intro b' hb'
      obtain ⟨j, hj, hmem, hb'⟩ := Greedy.mem_pick_take.mp hb'
      exact Ledger.Apart.symm (hapart j hj hmem b' hb')
  · rw [← hK.kept]
    exact apart_kept _ _ _
  · intro a
    rw [hledger, ← Ledger.mem_accountsOf]
    exact Finset.mem_union
  · unfold onPrepareQuorum
    split
    · rw [finishRound, replies_maybeStartRound]
      exact hreplies
    · exact hreplies
  · rw [hledger]
    exact Ledger.log_prepareAll _ _ _
  · intro hw
    rw [hwal]
    exact (WAL.file_prepareAll hw _ _).1
  · intro hne
    rw [onPrepareQuorum, if_neg (by rwa [hcurrent, List.isEmpty_iff])]
    exact ⟨hcurrent, by rw [← hcurrent]; rfl⟩
  · intro hnil
    rw [onPrepareQuorum, if_pos (by rwa [hcurrent, List.isEmpty_iff])]
    obtain ⟨sent, hsent, hprep⟩ := outbox_maybeStartRound s.validate.clearRound
    refine ⟨sent, hsent, ?_⟩
    intro c hc r hr
    obtain ⟨r', hr'⟩ := hprep c hc
    rw [hr'] at hr
    cases hr

end ServerImpl

end MultiPaxosDB
