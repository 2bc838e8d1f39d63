/-
# MultiPaxosDB.Reservations — on a stable leader the lock set is exact.

`locks` does not say who holds an account.  On a server that only leads there are two kinds of holders: the
intra-shard entries of the batch in flight, from validation to the end of the round, and the prepared
transactions, until their decision or timeout.  Validation turns away whatever touches a locked account, so
holders never share one; hence releasing by account releases nobody else's lock, and an amount that validation
found on an account is still there when the holder pays.  `Ledger.Holding` states this as an instance of
`Lib.Reserved`, operation by operation, and `ServerImpl.Accounted` carries it through the events of a run.

None of this depends on the sign of the amounts or on the range of an `int`.  What does is that no balance is
negative: with amounts that are not, no account is overdrawn, but one may be paid so much that its `int` wraps.
-/
import MultiPaxosDB.Ballots
import MultiPaxosDB.Calls
import MultiPaxosDB.Leader
import MultiPaxosDB.Lib.Reservation
import MultiPaxosDB.Sequences

namespace MultiPaxosDB

open Lib

/-- A transaction as the holder of some accounts: it counts on its amount at the sender. -/
def Transaction.holder (txn : Transaction) (accounts : Finset Int) : Holder Int Int32 where
  accounts := accounts
  counts := fun a balance => a = txn.sender → txn.amount ≤ balance.toInt

/-- An intra-shard transaction holds both of its accounts. -/
def Transaction.holderBoth (txn : Transaction) : Holder Int Int32 := txn.holder {txn.sender, txn.receiver}

/-- A transaction takes no more from an account than its amount, and that from the sender. -/
theorem Transaction.neg_amount_le_effect {txn : Transaction} (hamount : 0 ≤ txn.amount) (a : Int) :
    -(if a = txn.sender then txn.amount else 0) ≤ txn.effect a := by
  unfold effect
  by_cases hs : a = txn.sender
  · rw [if_pos hs, if_pos hs.symm]
    split <;> omega
  · rw [if_neg hs, if_neg (Ne.symm hs)]
    split <;> omega

namespace Ledger

/-- The prepared transactions hold their accounts of the shard. -/
def pendingHolders (l : Ledger) : List (Holder Int Int32) :=
  l.wal.undecided.map fun e => e.txn.holder (l.inShard e.txn).toFinset

/-- The locks and balances are those of the holders `held` and of the prepared transactions, which have amounts
that satisfy `Q`; if these are not negative, no account of the shard is overdrawn. -/
structure Holding (Q : Int → Prop) (held : List (Holder Int Int32)) (l : Ledger) : Prop where
  sound : l.Sound
  reserved : Reserved l.locks l.balances (held ++ l.pendingHolders)
  pending : ∀ t e, l.wal.pendingEntry t = some e → 0 < t ∧ Q e.txn.amount
  solvent : (∀ z, Q z → 0 ≤ z) → ∀ a, l.isClientInCluster a = true → 0 ≤ l.worth a
  outside : ∀ a, l.isClientInCluster a = false → l.balances a = 0

theorem pendingHolders_perm {l l' : Ledger} (hshard : l'.isClientInCluster = l.isClientInCluster)
    {es : List WALEntry} (hperm : l'.wal.undecided.Perm es) :
    l'.pendingHolders.Perm (es.map fun e => e.txn.holder (l.inShard e.txn).toFinset) := by
  unfold pendingHolders inShard
  rw [hshard]
  exact hperm.map _

namespace Holding

variable {Q : Int → Prop} {held : List (Holder Int Int32)} {l : Ledger}

theorem wal (h : l.Holding Q held) : l.wal.Ok := h.sound.wal

/-- A holder finds what it counts on where validation has let it through. -/
theorem counts {txn : Transaction} (hnot : ServerImpl.rejects l txn = false) {accounts : Finset Int} {a : Int}
    (hin : l.isClientInCluster a = true) : (txn.holder accounts).counts a (l.balances a) := by
  rintro rfl
  simp only [ServerImpl.rejects, Bool.or_eq_false_iff, hin, Bool.true_and, decide_eq_false_iff_not] at hnot
  exact not_lt.mp hnot.2

/-- A payment that is covered by the balance leaves the account solvent. -/
theorem solvent_pay (h : l.Holding Q held) (hQ : ∀ z, Q z → 0 ≤ z) {txn : Transaction} (hamount : Q txn.amount) {a : Int}
    (hin : l.isClientInCluster a = true) (hcounts : a = txn.sender → txn.amount ≤ (l.balances a).toInt) :
    0 ≤ l.worth a + txn.effect a := by
  have hleast := txn.neg_amount_le_effect (hQ _ hamount) a
  have hpos := h.solvent hQ a hin
  have hshown := h.sound.balance_le_worth hin hpos
  split at hleast
  · rename_i hs
    have hfound := hcounts hs
    omega
  · omega

/-- No account of the shard that validation has let through is locked. -/
theorem free {txn : Transaction} (hnot : ServerImpl.rejects l txn = false) {a : Int} (ha : a ∈ l.inShard txn) :
    a ∉ l.locks := by
  simp only [ServerImpl.rejects, Bool.or_eq_false_iff, Bool.and_eq_false_iff, decide_eq_false_iff_not] at hnot
  obtain ⟨hside, hin⟩ := mem_inShard.mp ha
  rcases hside with rfl | rfl
  · exact hnot.1.1.resolve_left (by simp [hin])
  · exact hnot.1.2.resolve_left (by simp [hin])

/-- An intra-shard entry passes validation: it is a new holder. -/
theorem lock (h : l.Holding Q held) {txn : Transaction} (hnot : ServerImpl.rejects l txn = false)
    (hwithin : txn.within l.isClientInCluster = true) :
    ((l.lockInShard txn.sender).lockInShard txn.receiver).Holding Q (txn.holderBoth :: held) := by
  simp only [Transaction.within, Bool.and_eq_true] at hwithin
  have hmem : ∀ a, a ∈ txn.holderBoth.accounts ↔ a ∈ l.inShard txn := by
    intro a
    simp only [Transaction.holderBoth, Transaction.holder, Finset.mem_insert, Finset.mem_singleton, mem_inShard]
    constructor
    · rintro (rfl | rfl)
      · exact ⟨.inl rfl, hwithin.1⟩
      · exact ⟨.inr rfl, hwithin.2⟩
    · exact And.left
  refine ⟨h.sound.frame (.touch _ _ _), ?_, h.pending, h.solvent, h.outside⟩
  refine h.reserved.take (fun a ha => free hnot ((hmem a).mp ha)) ?_ ?_
  · intro a ha
    exact counts hnot (mem_inShard.mp ((hmem a).mp ha)).2
  · intro a
    rw [mem_locks_lockBoth, hmem]

/-- A cross-shard entry passes validation: it is prepared. -/
theorem lock_prepare (h : l.Holding Q held) {r : TransferReq} (hnot : ServerImpl.rejects l r.txn = false)
    (hnew : l.wal.pendingEntry r.tid = none) (hpos : 0 < r.tid) (hamount : Q r.txn.amount) (ballot : Ballot) :
    (((l.lockInShard r.txn.sender).lockInShard r.txn.receiver).prepareTransaction r ballot).Holding Q held := by
  have hok := h.wal.prepareTransaction r ballot
  have hundecided : (l.wal.prepareTransaction r ballot).1.undecided.Perm
      (WAL.preparedEntry r ballot :: l.wal.undecided) :=
    h.wal.perm_undecided_cons hok hnew (h.wal.pendingEntry_prepareTransaction r ballot)
  refine ⟨(h.sound.frame (.touch _ _ _)).prepareTransaction r ballot, ?_, ?_, ?_, h.outside⟩
  · -- the new holder comes first, then is moved to its place among the prepared ones
    have htaken : Reserved ((l.lockInShard r.txn.sender).lockInShard r.txn.receiver).locks l.balances
        (r.txn.holder (l.inShard r.txn).toFinset :: (held ++ l.pendingHolders)) := by
      refine h.reserved.take ?_ ?_ ?_
      · intro a ha
        exact free hnot (List.mem_toFinset.mp ha)
      · intro a ha
        exact counts hnot (mem_inShard.mp (List.mem_toFinset.mp ha)).2
      · intro a
        rw [mem_locks_lockBoth]
        exact or_congr_right List.mem_toFinset.symm
    have hshard : (((l.lockInShard r.txn.sender).lockInShard r.txn.receiver).prepareTransaction r
        ballot).isClientInCluster = l.isClientInCluster := rfl
    have hholders : (((l.lockInShard r.txn.sender).lockInShard r.txn.receiver).prepareTransaction r
        ballot).pendingHolders.Perm (r.txn.holder (l.inShard r.txn).toFinset :: l.pendingHolders) :=
      pendingHolders_perm hshard hundecided
    exact htaken.perm (List.perm_middle.symm.trans (hholders.symm.append_left held))
  · intro t e he
    have he : (l.wal.prepareTransaction r ballot).1.pendingEntry t = some e := he
    rw [h.wal.pendingEntry_prepareTransaction] at he
    split at he
    · rename_i heq
      cases he
      exact ⟨heq ▸ hpos, hamount⟩
    · exact h.pending t e he
  · intro hQ a hin
    rw [worth_prepareTransaction]
    exact h.solvent hQ a hin

/-- An intra-shard holder leaves without paying. -/
theorem release {txn : Transaction} (h : l.Holding Q (txn.holderBoth :: held)) :
    (l.unlockBoth txn).Holding Q held := by
  refine ⟨h.sound.frame (.touch _ _ _), ?_, h.pending, h.solvent, h.outside⟩
  refine h.reserved.leave ?_ fun a _ => rfl
  intro a
  rw [mem_locks_unlockBoth]
  simp [Transaction.holderBoth, Transaction.holder]

/-- An intra-shard holder pays and leaves. -/
theorem commit {r : TransferReq} (h : l.Holding Q (r.txn.holderBoth :: held)) (hamount : Q r.txn.amount)
    (hwithin : r.txn.within l.isClientInCluster = true) (ballot : Ballot) :
    ((l.unlockBoth r.txn).commitTransaction r ballot).Holding Q held := by
  have hfree := h.release
  by_cases happlied : r.tid ∈ (l.unlockBoth r.txn).balanceApplied
  · rw [commitTransaction_applied ballot happlied]
    exact hfree
  · have hsound := hfree.sound.commitTransaction r ballot
    have hshard := ServerImpl.isClientInCluster_commitTransaction (l.unlockBoth r.txn) r ballot
    have hpending : ∀ t, ((l.unlockBoth r.txn).commitTransaction r ballot).wal.pendingEntry t =
        l.wal.pendingEntry t := by
      intro t
      rw [wal_commitTransaction happlied]
      exact h.wal.pendingEntry_commitTransaction r ballot t
    have hbalance : ∀ a, ((l.unlockBoth r.txn).commitTransaction r ballot).balances a =
        l.balances a + .ofInt (r.txn.effect a) :=
      fun a => balances_commitTransaction happlied h.wal.canWrite ballot a
    have hholders : (held ++ ((l.unlockBoth r.txn).commitTransaction r ballot).pendingHolders).Perm
        (held ++ l.pendingHolders) :=
      (pendingHolders_perm hshard (h.wal.perm_undecided hsound.wal hpending)).append_left held
    refine ⟨hsound, ?_, ?_, ?_, ?_⟩
    · refine Reserved.perm ?_ hholders.symm
      refine h.reserved.leave ?_ ?_
      · intro a
        rw [locks_commitTransaction, mem_locks_unlockBoth]
        simp [Transaction.holderBoth, Transaction.holder]
      · intro a ha
        simp only [Transaction.holderBoth, Transaction.holder, Finset.mem_insert, Finset.mem_singleton,
          not_or] at ha
        rw [hbalance, Transaction.effect_of_ne ha.1 ha.2, add_ofInt_zero]
    · intro t e he
      exact h.pending t e (hpending t ▸ he)
    · intro hQ a hin
      rw [hshard] at hin
      rw [worth_commitTransaction happlied h.wal.canWrite (h.sound.applied ▸ happlied)]
      refine h.solvent_pay hQ hamount hin ?_
      rintro rfl
      exact h.reserved.funds _ List.mem_cons_self _ (Finset.mem_insert_self _ _) rfl
    · intro a hout
      rw [hshard] at hout
      have hout : l.isClientInCluster a = false := hout
      simp only [Transaction.within, Bool.and_eq_true] at hwithin
      have hother : ∀ b, l.isClientInCluster b = true → a ≠ b := by
        rintro b hb rfl
        rw [hout] at hb
        cases hb
      rw [hbalance, Transaction.effect_of_ne (hother _ hwithin.1) (hother _ hwithin.2), add_ofInt_zero]
      exact h.outside a hout

/-- A decision moves money on the accounts its transaction holds, and on no others. -/
theorem balances_decide (hw : l.wal.Ok) {t : Int} {e : WALEntry} (he : l.wal.pendingEntry t = some e)
    (ht : t ≠ -1) (isCommit : Bool) {a : Int} (ha : a ∉ l.inShard e.txn) :
    (l.processTpcDecision t isCommit).balances a = l.balances a := by
  rw [processTpcDecision_some hw isCommit he ht]
  unfold settleDecision
  rw [balances_applyInShard, if_neg, add_ofInt_zero]
  · show (((l.logDecision t isCommit (decidedEntry e isCommit)).unlockInShard _).applyInShard _ _ _).balances a = _
    rw [balances_applyInShard, if_neg, add_ofInt_zero]
    · rfl
    · rintro ⟨-, hside, rfl⟩
      exact ha (mem_inShard.mpr ⟨.inl rfl, hside⟩)
  · rintro ⟨-, hside, rfl⟩
    exact ha (mem_inShard.mpr ⟨.inr rfl, hside⟩)

/-- A decided transaction settles and leaves. -/
theorem decide (h : l.Holding Q held) (t : Int) (isCommit : Bool) :
    (l.processTpcDecision t isCommit).Holding Q held := by
  cases he : l.wal.pendingEntry t with
  | none =>
    rw [processTpcDecision_none isCommit he]
    exact ⟨h.sound.frame (.touch _ _ _), h.reserved, h.pending, h.solvent, h.outside⟩
  | some e =>
    obtain ⟨hpos, hamount⟩ := h.pending t e he
    obtain rfl : e.tid = t := (h.wal.pendingEntry_spec he).1
    have hne : e.tid ≠ -1 := by omega
    have hsound := h.sound.processTpcDecision e.tid isCommit
    have hshard := isClientInCluster_processTpcDecision l e.tid isCommit
    have hpending := pendingEntry_processTpcDecision h.wal e.tid isCommit
    have hundecided : l.wal.undecided.Perm (e :: (l.processTpcDecision e.tid isCommit).wal.undecided) := by
      refine hsound.wal.perm_undecided_cons h.wal (by rw [hpending, if_pos rfl]) ?_
      intro t
      rw [hpending]
      split
      · rename_i heq
        rw [heq, he]
      · rfl
    have hholders : (held ++ l.pendingHolders).Perm (e.txn.holder (l.inShard e.txn).toFinset ::
        (held ++ (l.processTpcDecision e.tid isCommit).pendingHolders)) := by
      have hsplit := pendingHolders_perm
        (isClientInCluster_processTpcDecision l e.tid isCommit).symm hundecided
      have hsame : (l.processTpcDecision e.tid isCommit).inShard = l.inShard := by
        funext txn
        rw [inShard, isClientInCluster_processTpcDecision]
        rfl
      rw [hsame, List.map_cons] at hsplit
      unfold pendingHolders at hsplit ⊢
      rw [hsame]
      exact (hsplit.append_left held).trans List.perm_middle
    have hreserved := h.reserved.perm hholders
    refine ⟨hsound, ?_, ?_, ?_, ?_⟩
    · refine hreserved.leave ?_ ?_
      · intro a
        rw [mem_locks_processTpcDecision h.wal]
        refine and_congr_right fun _ => ?_
        constructor
        · exact fun hnot hmem => hnot hne e he (List.mem_toFinset.mp hmem)
        · intro hnot _ e' he' hmem
          rw [he, Option.some.injEq] at he'
          exact hnot (List.mem_toFinset.mpr (he' ▸ hmem))
      · intro a ha
        exact balances_decide h.wal he hne isCommit fun hmem => ha (List.mem_toFinset.mpr hmem)
    · intro t e' he'
      rw [hpending] at he'
      split at he'
      · cases he'
      · exact h.pending t e' he'
    · intro hQ a hin
      rw [hshard] at hin
      rw [worth_processTpcDecision h.wal he hne]
      split
      · refine h.solvent_pay hQ hamount hin ?_
        rintro rfl
        exact hreserved.funds _ List.mem_cons_self _ (List.mem_toFinset.mpr (mem_inShard.mpr ⟨.inl rfl, hin⟩)) rfl
      · rw [add_zero]
        exact h.solvent hQ a hin
    · intro a hout
      rw [hshard] at hout
      rw [balances_decide h.wal he hne isCommit fun hmem => by rw [(mem_inShard.mp hmem).2] at hout; cases hout]
      exact h.outside a hout

theorem perm {held' : List (Holder Int Int32)} (h : l.Holding Q held) (hperm : held.Perm held') :
    l.Holding Q held' :=
  ⟨h.sound, h.reserved.perm (hperm.append_right _), h.pending, h.solvent, h.outside⟩

end Holding

end Ledger

/-- What is asked of the requests: a positive tid, an amount that satisfies `Q`, and the routing of the client. -/
def reservable (Q : Int → Prop) (inShard : Int → Bool) : RequestPred := fun isCross t txn =>
  0 < t ∧ Q txn.amount ∧ byShard inShard isCross t txn

instance (Q : Int → Prop) [DecidablePred Q] (inShard : Int → Bool) (isCross : Bool) (t : Int) (txn : Transaction) :
    Decidable (reservable Q inShard isCross t txn) :=
  inferInstanceAs (Decidable (_ ∧ _))

namespace ServerImpl

variable {Q : Int → Prop} {s t : ServerImpl} {e : Event}

/-! ## The loops of a round -/

/-- The intra-shard entries of a batch, as holders. -/
def heldBy (batch : List BatchEntry) : List (Holder Int Int32) :=
  (batch.filter fun b => !b.isCrossShard).map fun b => b.request.txn.holderBoth

theorem heldBy_cons (b : BatchEntry) (batch : List BatchEntry) :
    heldBy (b :: batch) = if b.isCrossShard then heldBy batch else b.request.txn.holderBoth :: heldBy batch := by
  unfold heldBy
  cases hcross : b.isCrossShard <;> simp [hcross]

theorem heldBy_append (kept : List BatchEntry) (b : BatchEntry) :
    (heldBy (kept ++ [b])).Perm (heldBy (b :: kept)) :=
  ((List.perm_append_singleton b kept).filter _).map _

theorem pendingEntry_validateEntry {a : Admission} (hw : a.ledger.wal.Ok) (ballot : Ballot) (b : BatchEntry)
    {k : Int} (hk : k ≠ b.request.tid) (hnone : a.ledger.wal.pendingEntry k = none) :
    (validateEntry ballot a b).ledger.wal.pendingEntry k = none := by
  unfold validateEntry
  split
  · exact hnone
  · cases b.isCrossShard with
    | false => exact hnone
    | true =>
      show (a.ledger.wal.prepareTransaction b.request ballot).1.pendingEntry k = none
      rw [hw.pendingEntry_prepareTransaction, if_neg hk]
      exact hnone

theorem holding_validateEntry {a : Admission} (h : a.ledger.Holding Q (heldBy a.kept)) (ballot : Ballot)
    {b : BatchEntry} (hb : reservable Q a.ledger.isClientInCluster b.isCrossShard b.request.tid b.request.txn)
    (hnew : a.ledger.wal.pendingEntry b.request.tid = none) :
    (validateEntry ballot a b).ledger.Holding Q (heldBy (validateEntry ballot a b).kept) := by
  obtain ⟨hpos, hamount, hcrosses, hwithin⟩ := hb
  unfold validateEntry
  split
  · exact h
  · rename_i hnot
    have hnot : rejects a.ledger b.request.txn = false := by simpa using hnot
    have hkept := heldBy_append a.kept b
    rw [heldBy_cons] at hkept
    cases hcross : b.isCrossShard with
    | false =>
      rw [hcross] at hkept
      exact (h.lock hnot (hwithin hcross)).perm hkept.symm
    | true =>
      rw [hcross] at hkept
      exact (h.lock_prepare hnot hnew hpos hamount ballot).perm hkept.symm

/-- The validation loop: the entries it keeps are holders, and it prepares nothing but entries of the batch. -/
theorem holding_foldl_validateEntry (ballot : Ballot) : ∀ (batch : List BatchEntry) {a : Admission},
    a.ledger.Holding Q (heldBy a.kept) →
    (∀ b ∈ batch, reservable Q a.ledger.isClientInCluster b.isCrossShard b.request.tid b.request.txn) →
    (batch.map fun b => b.request.tid).Nodup →
    (∀ b ∈ batch, a.ledger.wal.pendingEntry b.request.tid = none) →
    (batch.foldl (validateEntry ballot) a).ledger.Holding Q (heldBy (batch.foldl (validateEntry ballot) a).kept) ∧
      ∀ k, k ∉ batch.map (fun b => b.request.tid) → a.ledger.wal.pendingEntry k = none →
        (batch.foldl (validateEntry ballot) a).ledger.wal.pendingEntry k = none := by
  intro batch
  induction batch with
  | nil => exact fun h _ _ _ => ⟨h, fun _ _ hnone => hnone⟩
  | cons b batch ih =>
    intro a h hbatch hnodup hnone
    rw [List.map_cons, List.nodup_cons] at hnodup
    have hshard : (validateEntry ballot a b).ledger.isClientInCluster = a.ledger.isClientInCluster := by
      unfold validateEntry
      split
      · rfl
      · cases b.isCrossShard <;> rfl
    have hfirst := holding_validateEntry h ballot (hbatch b List.mem_cons_self) (hnone b List.mem_cons_self)
    have hrest := ih hfirst (fun b' hb' => by rw [hshard]; exact hbatch b' (List.mem_cons_of_mem b hb')) hnodup.2 ?_
    · refine ⟨hrest.1, ?_⟩
      intro k hk hknone
      rw [List.map_cons, List.mem_cons, not_or] at hk
      exact hrest.2 k hk.2 (pendingEntry_validateEntry h.wal ballot b hk.1 hknone)
    · intro b' hb'
      refine pendingEntry_validateEntry h.wal ballot b ?_ (hnone b' (List.mem_cons_of_mem b hb'))
      intro heq
      exact hnodup.1 (heq ▸ List.mem_map.mpr ⟨b', hb', rfl⟩)

/-- At the accept quorum every intra-shard entry pays and leaves. -/
theorem holding_foldl_commitEntry (ballot : Ballot) : ∀ (batch : List BatchEntry) {l : Ledger},
    l.Holding Q (heldBy batch) →
    (∀ b ∈ batch, reservable Q l.isClientInCluster b.isCrossShard b.request.tid b.request.txn) →
    (batch.foldl (commitEntry ballot) l).Holding Q [] := by
  intro batch
  induction batch with
  | nil => exact fun h _ => h
  | cons b batch ih =>
    intro l h hbatch
    rw [heldBy_cons] at h
    have hshard : (commitEntry ballot l b).isClientInCluster = l.isClientInCluster := by
      unfold commitEntry
      split
      · rfl
      · exact isClientInCluster_commitTransaction _ b.request ballot
    refine ih ?_ fun b' hb' => by rw [hshard]; exact hbatch b' (List.mem_cons_of_mem b hb')
    unfold commitEntry
    cases hcross : b.isCrossShard with
    | true =>
      rw [hcross] at h
      exact h
    | false =>
      rw [hcross] at h
      obtain ⟨-, hamount, hbyShard⟩ := hbatch b List.mem_cons_self
      exact h.commit hamount (hbyShard.2 hcross) ballot

/-- When the accept phase is aborted every intra-shard entry leaves. -/
theorem holding_foldl_releaseEntry : ∀ (batch : List BatchEntry) {l : Ledger},
    l.Holding Q (heldBy batch) → (batch.foldl (releaseEntry false) l).Holding Q [] := by
  intro batch
  induction batch with
  | nil => exact fun h => h
  | cons b batch ih =>
    intro l h
    rw [heldBy_cons] at h
    refine ih ?_
    unfold releaseEntry
    cases hcross : b.isCrossShard with
    | true =>
      rw [hcross] at h
      exact h
    | false =>
      rw [hcross] at h
      exact h.release

/-- An aborted prepare phase has nothing to release. -/
theorem foldl_releaseEntry_prepare (batch : List BatchEntry) (l : Ledger) :
    batch.foldl (releaseEntry true) l = l := by
  induction batch with
  | nil => rfl
  | cons b batch ih => exact ih

/-! ## The events of a stable leader -/

/-- The intra-shard entries of the batch in flight hold their accounts while the accept decision is open. -/
def roundHolders (s : ServerImpl) : List (Holder Int Int32) :=
  if s.awaitAcceptDecision then heldBy s.current else []

/-- All holders of a stable leader. -/
def holders (s : ServerImpl) : List (Holder Int Int32) := s.roundHolders ++ s.ledger.pendingHolders

/-- The locks are accounted for, and no request that waits for its validation is prepared already. -/
structure Books (Q : Int → Prop) (tids : List Int) (s : ServerImpl) : Prop where
  holding : s.ledger.Holding Q s.roundHolders
  seen : ∀ k, s.ledger.wal.pendingEntry k ≠ none → k ∈ tids
  queued : ∀ b ∈ s.pending, s.ledger.wal.pendingEntry b.request.tid = none
  unvalidated : s.awaitAcceptDecision = false → ∀ b ∈ s.current, s.ledger.wal.pendingEntry b.request.tid = none

structure Accounted (Q : Int → Prop) (tids : List Int) (s : ServerImpl) : Prop where
  phase : s.Phase
  running : s.Running
  carries : s.Carries (reservable Q s.ledger.isClientInCluster)
  known : ∀ p ∈ s.callKeys, p.2 ∈ tids
  once : (s.callKeys.map Prod.snd).Nodup
  books : s.Books Q tids

theorem roundHolders_of_not_await (h : s.awaitAcceptDecision = false) : s.roundHolders = [] := by
  rw [roundHolders, h]
  rfl

theorem roundHolders_of_await (h : s.awaitAcceptDecision = true) : s.roundHolders = heldBy s.current := by
  rw [roundHolders, if_pos h]

namespace Books

variable {tids : List Int}

/-- A ledger on which fewer transactions are pending, under the same round. -/
theorem fewer (h : s.Books Q tids) {l : Ledger} (hholding : l.Holding Q s.roundHolders)
    (hfewer : ∀ k, s.ledger.wal.pendingEntry k = none → l.wal.pendingEntry k = none) :
    ({ s with ledger := l } : ServerImpl).Books Q tids where
  holding := hholding
  seen := fun k hk => h.seen k fun hnone => hk (hfewer k hnone)
  queued := fun b hb => hfewer _ (h.queued b hb)
  unvalidated := fun hawait b hb => hfewer _ (h.unvalidated hawait b hb)

/-- The round is over. -/
theorem ended (h : s.Books Q tids) (hcur : t.current = []) (hpend : t.pending = s.pending)
    (hawait : t.awaitAcceptDecision = false) (hholding : t.ledger.Holding Q [])
    (hsame : ∀ k, t.ledger.wal.pendingEntry k = s.ledger.wal.pendingEntry k) : t.Books Q tids where
  holding := by
    rw [roundHolders_of_not_await hawait]
    exact hholding
  seen := fun k hk => h.seen k (hsame k ▸ hk)
  queued := by
    intro b hb
    rw [hsame]
    exact h.queued b (hpend ▸ hb)
  unvalidated := by
    intro _ b hb
    rw [hcur] at hb
    exact absurd hb List.not_mem_nil

theorem enqueue (h : s.Books Q tids) {b : BatchEntry} (hnew : b.request.tid ∉ tids) :
    ({ s with pending := s.pending ++ [b] } : ServerImpl).Books Q tids where
  holding := h.holding
  seen := h.seen
  queued := by
    intro b' hb'
    rcases List.mem_append.mp hb' with hold | hlast
    · exact h.queued b' hold
    · rw [List.mem_singleton.mp hlast]
      by_contra hsome
      exact hnew (h.seen _ hsome)
  unvalidated := h.unvalidated

end Books

/-- What validation leaves, for a round whose prepare quorum is reached. -/
theorem Accounted.validated {tids : List Int} (h : s.Accounted Q tids) (hawait : s.awaitPrepareDecision = true) :
    (admitAll s.ledger s.promisedNum s.current).ledger.Holding Q
        (heldBy (admitAll s.ledger s.promisedNum s.current).kept) ∧
      (∀ k, (admitAll s.ledger s.promisedNum s.current).ledger.wal.pendingEntry k ≠ none → k ∈ tids) ∧
      ∀ b ∈ s.pending,
        (admitAll s.ledger s.promisedNum s.current).ledger.wal.pendingEntry b.request.tid = none := by
  have hnot := (h.phase.prepare hawait).2.2.2.2
  have hholding := h.books.holding
  rw [roundHolders_of_not_await hnot] at hholding
  -- the tids of the two batches are distinct
  have honce := h.once
  simp only [callKeys, parked, List.map_append, List.map_map] at honce
  have hparked := (List.nodup_append.mp honce).2.1
  obtain ⟨hcur, -, hapart⟩ := List.nodup_append.mp hparked
  obtain ⟨hkept, hnone⟩ := holding_foldl_validateEntry s.promisedNum s.current
    (a := { ledger := s.ledger, rejected := [], kept := [] }) hholding h.carries.current hcur
    (h.books.unvalidated hnot)
  refine ⟨hkept, ?_, ?_⟩
  · intro k hk
    by_contra hunknown
    refine hk (hnone k ?_ ?_)
    · intro hmem
      obtain ⟨b, hb, rfl⟩ := List.mem_map.mp hmem
      refine hunknown (h.known b.key ?_)
      exact List.mem_append_right _ (List.mem_map.mpr ⟨b, List.mem_append_left _ hb, rfl⟩)
    · by_contra hsome
      exact hunknown (h.books.seen k hsome)
  · intro b hb
    refine hnone _ ?_ (h.books.queued b hb)
    intro hmem
    exact hapart _ hmem _ (List.mem_map.mpr ⟨b, hb, rfl⟩) rfl

theorem Core.books {tids : List Int} (h : Core s e t) (hs : s.Accounted Q tids) (hown : e.own = true)
    (hnew : ∀ b ∈ e.entries, b.request.tid ∉ tids) : t.Books Q tids := by
  have hbooks := hs.books
  have hw := hbooks.holding.wal
  cases h with
  | promise | behind | accept | commit | synced | notSynced => cases hown
  | transfer call request => exact hbooks.enqueue (hnew _ (List.mem_singleton.mpr rfl))
  | tpcPrepare call request => exact hbooks.enqueue (hnew _ (List.mem_singleton.mpr rfl))
  | decision k isCommit =>
    refine hbooks.fewer (hbooks.holding.decide k isCommit) ?_
    intro k' hnone
    rw [Ledger.pendingEntry_processTpcDecision hw, hnone, ite_self]
  | sweep =>
    refine hbooks.fewer ?_ ?_
    · rw [Ledger.sweep_eq]
      exact List.foldlRecOn (motive := fun l : Ledger => l.Holding Q s.roundHolders) _ _ hbooks.holding
        fun l hl k _ => hl.decide k false
    · intro k hnone
      rw [Ledger.sweep_eq, (Ledger.decideAll_spec false _ hw).2.1, hnone, ite_self]
  | tick ms =>
    have hholding := hbooks.holding
    exact hbooks.fewer ⟨hholding.sound.frame (.touch _ _ _), hholding.reserved, hholding.pending, hholding.solvent,
      hholding.outside⟩ fun _ h => h
  | reject a b hawait _ _ hempty =>
    obtain ⟨hkept, hseen, hqueued⟩ := hs.validated hawait
    rw [show (admitAll s.ledger s.promisedNum s.current).kept = [] from hempty] at hkept
    exact ⟨hkept, hseen, hqueued, fun _ b hb => absurd hb List.not_mem_nil⟩
  | propose a b hawait =>
    obtain ⟨hkept, hseen, hqueued⟩ := hs.validated hawait
    exact ⟨hkept, hseen, hqueued, fun hnot => by cases hnot⟩
  | abortPrepare a b hawait =>
    have hholding := hbooks.holding
    rw [roundHolders_of_not_await (hs.phase.prepare hawait).2.2.2.2] at hholding
    have hledger : (((s.setPrepareCounts a b).abortRound true).clearRound).ledger = s.ledger :=
      foldl_releaseEntry_prepare s.current s.ledger
    exact hbooks.ended rfl rfl rfl (hledger ▸ hholding) fun k => by rw [hledger]
  | commitRound a b hawait =>
    have hholding := hbooks.holding
    rw [roundHolders_of_await hawait] at hholding
    refine hbooks.ended rfl rfl rfl ?_ ?_
    · exact holding_foldl_commitEntry s.acceptNum s.current hholding hs.carries.current
    · exact (samePending_foldl_commitEntry hw s.acceptNum s.current).pending
  | abortAccept a b hawait =>
    have hholding := hbooks.holding
    rw [roundHolders_of_await hawait] at hholding
    refine hbooks.ended rfl rfl rfl ?_ ?_
    · exact holding_foldl_releaseEntry s.current hholding
    · exact (samePending_foldl_releaseEntry hw false s.current).pending
  | _ => exact ⟨hbooks.holding, hbooks.seen, hbooks.queued, hbooks.unvalidated⟩

theorem Books.mono {tids tids' : List Int} (h : s.Books Q tids) (hsub : tids ⊆ tids') : s.Books Q tids' :=
  ⟨h.holding, fun k hk => hsub (h.seen k hk), h.queued, h.unvalidated⟩

theorem handle_books {tids : List Int} (hs : s.Accounted Q tids) (hown : e.own = true)
    (hnew : ∀ b ∈ e.entries, b.request.tid ∉ tids) : (s.handle e).Books Q tids := by
  have hclear : ({ s with outbox := [] } : ServerImpl).Accounted Q tids :=
    ⟨⟨hs.phase.prepare, hs.phase.accept⟩, hs.running, ⟨hs.carries.pending, hs.carries.current, hs.carries.acceptBatch⟩,
      hs.known, hs.once, ⟨hs.books.holding, hs.books.seen, hs.books.queued, hs.books.unvalidated⟩⟩
  generalize hu : s.handle e = u
  cases moves_of_handle hu with
  | done hcore => exact hcore.books hclear hown hnew
  | @start t hcore hrun _ _ =>
    have ht := hcore.books hclear hown hnew
    have hcur : t.current = [] := (hcore.takes hclear.running).running hrun
    have hnone : t.roundHolders = [] := by
      unfold roundHolders
      rw [hcur]
      exact ite_self _
    have hholding := ht.holding
    rw [hnone] at hholding
    exact ⟨hholding, ht.seen, fun b hb => absurd hb List.not_mem_nil, fun _ => ht.queued⟩
  | retry hpre =>
    cases hpre with
    | staleBallot a b latest hawait =>
      have hnot := (hclear.phase.prepare hawait).2.2.2.2
      have hholding := hclear.books.holding
      rw [roundHolders_of_not_await hnot] at hholding
      exact ⟨hholding, hclear.books.seen, hclear.books.queued, fun _ => hclear.books.unvalidated hnot⟩
    | synced | notSynced => cases hown

theorem Accounted.handle {tids : List Int} (hs : s.Accounted Q tids) (hown : e.own = true)
    (hentries : ∀ b ∈ e.entries, reservable Q s.ledger.isClientInCluster b.isCrossShard b.request.tid b.request.txn)
    (hnew : ∀ b ∈ e.entries, b.request.tid ∉ tids) :
    (s.handle e).Accounted Q (tids ++ e.entries.map fun b => b.request.tid) := by
  have htakes := handle_takes hs.running e
  have hshard : (s.handle e).ledger.isClientInCluster = s.ledger.isClientInCluster := by
    obtain ⟨hconst, hid⟩ := s.handle_shard e
    funext a
    rw [Ledger.isClientInCluster, Ledger.isClientInCluster, hconst, hid]
  have hcarried : e.Carries (reservable Q s.ledger.isClientInCluster) := by
    cases e with
    | input x => cases x <;> first | trivial | exact hentries _ (List.mem_singleton.mpr rfl)
    | acceptCall request => cases hown
    | _ => trivial
  refine ⟨handle_phase hs.phase e, htakes.running, ?_, ?_, ?_, (handle_books hs hown hnew).mono (List.subset_append_left _ _)⟩
  · rw [hshard]
    exact handle_carries hs.carries hcarried
  · intro p hp
    rcases List.mem_append.mp (htakes.keys.subset hp) with hold | hnew
    · exact List.mem_append_left _ (hs.known p hold)
    · obtain ⟨b, hb, rfl⟩ := List.mem_map.mp hnew
      exact List.mem_append_right _ (List.mem_map.mpr ⟨b, hb, rfl⟩)
  · obtain ⟨keys, hperm, hsub⟩ := htakes.keys
    refine (hperm.map Prod.snd).nodup_iff.mp (List.Nodup.sublist (hsub.map Prod.snd) ?_)
    rw [List.map_append]
    refine List.nodup_append.mpr ⟨hs.once, ?_, ?_⟩
    · -- an event brings one entry at most
      cases e with
      | input x =>
        show ((x.entry.toList.map BatchEntry.key).map Prod.snd).Nodup
        cases x.entry with
        | none => exact List.nodup_nil
        | some b => exact List.nodup_singleton _
      | _ => exact List.nodup_nil
    · rintro k hk _ hk' rfl
      obtain ⟨p, hp, rfl⟩ := List.mem_map.mp hk
      obtain ⟨q, hq, heq⟩ := List.mem_map.mp hk'
      obtain ⟨b, hb, rfl⟩ := List.mem_map.mp hq
      have htid : b.request.tid = p.2 := heq
      exact hnew b hb (htid ▸ hs.known p hp)

theorem Accounted.fresh (c : Constants) (serverId : Int) : (ServerImpl.fresh c serverId).Accounted Q [] where
  phase := .fresh c serverId
  running := fun _ => rfl
  carries := ⟨fun _ hb => absurd hb List.not_mem_nil, fun _ hb => absurd hb List.not_mem_nil,
    fun _ hr => absurd hr List.not_mem_nil⟩
  known := fun _ hp => absurd hp List.not_mem_nil
  once := List.nodup_nil
  books :=
    have hnone : ∀ k, (ServerImpl.fresh c serverId).ledger.wal.pendingEntry k = none := WAL.pendingEntry_empty
    { holding :=
        { sound := .fresh c _
          reserved := .nil _
          pending := fun k e he => by
            rw [hnone k] at he
            cases he
          solvent := fun _ a _ => by
            show 0 ≤ (initialBalance _ _ a).toInt + 0
            unfold initialBalance
            split <;> decide
          outside := fun a hout => if_neg fun h => Bool.false_ne_true (hout.symm.trans h.2.2) }
      seen := fun k hk => absurd (hnone k) hk
      queued := fun _ hb => absurd hb List.not_mem_nil
      unvalidated := fun _ _ hb => absurd hb List.not_mem_nil }

/-- The locks are exactly those of the holders, which share none, and each holder with its sender in the shard
finds its amount there. -/
structure ExactLocks (s : ServerImpl) : Prop where
  locks : ∀ a, a ∈ s.ledger.locks ↔ ∃ h ∈ s.holders, a ∈ h.accounts
  apart : s.holders.Pairwise fun h h' => Disjoint h.accounts h'.accounts
  leading : s.awaitAcceptDecision = true → ∀ b ∈ s.current, b.isCrossShard = false →
    b.request.txn.amount ≤ (s.ledger.balances b.request.txn.sender).toInt
  prepared : ∀ e ∈ s.ledger.wal.undecided, s.ledger.isClientInCluster e.txn.sender = true →
    e.txn.amount ≤ (s.ledger.balances e.txn.sender).toInt

theorem Accounted.exactLocks {tids : List Int} (h : s.Accounted Q tids) : s.ExactLocks where
  locks := h.books.holding.reserved.locks
  apart := h.books.holding.reserved.apart
  leading := by
    intro hawait b hb hintra
    have hmem : b.request.txn.holderBoth ∈ s.roundHolders := by
      rw [roundHolders_of_await hawait]
      exact List.mem_map.mpr ⟨b, List.mem_filter.mpr ⟨hb, by rw [hintra]; rfl⟩, rfl⟩
    exact h.books.holding.reserved.funds _ (List.mem_append_left _ hmem) b.request.txn.sender
      (Finset.mem_insert_self _ _) rfl
  prepared := by
    intro e he hin
    have hmem : e.txn.holder (s.ledger.inShard e.txn).toFinset ∈ s.ledger.pendingHolders :=
      List.mem_map.mpr ⟨e, he, rfl⟩
    exact h.books.holding.reserved.funds _ (List.mem_append_right _ hmem) e.txn.sender
      (List.mem_toFinset.mpr (Ledger.mem_inShard.mpr ⟨.inl rfl, hin⟩)) rfl

/-- With amounts that are not negative, a balance is negative only if its `int` has wrapped. -/
theorem Accounted.balance_nonneg {tids : List Int} (h : s.Accounted (0 ≤ ·) tids) {a : Int}
    (hrange : s.ledger.worth a < 2 ^ 31) : 0 ≤ (s.ledger.balances a).toInt := by
  have hholding := h.books.holding
  cases hin : s.ledger.isClientInCluster a with
  | true =>
    have hpos := hholding.solvent (fun _ hz => hz) a hin
    rw [hholding.sound.balance_eq_worth hin hpos hrange]
    exact hpos
  | false => rw [hholding.outside a hin]; decide

/-- The client calls of a run, as they are enqueued. -/
def enqueued (es : List Event) : List BatchEntry := es.flatMap Event.entries

theorem accounted_run (c : Constants) (serverId : Int) (es : List Event) (hown : ∀ e ∈ es, e.own = true)
    (hrequests : ∀ b ∈ enqueued es, reservable Q
      (fun a => isClientInCluster c a (getClusterIdFromServerId c serverId)) b.isCrossShard b.request.tid b.request.txn)
    (htids : ((enqueued es).map fun b => b.request.tid).Nodup) :
    (run c serverId es).Accounted Q ((enqueued es).map fun b => b.request.tid) := by
  induction es using List.reverseRecOn with
  | nil => exact .fresh c serverId
  | append_singleton es e ih =>
    have hsplit : enqueued (es ++ [e]) = enqueued es ++ e.entries := by
      simp [enqueued]
    rw [hsplit, List.map_append] at htids ⊢
    rw [hsplit] at hrequests
    obtain ⟨hold, -, hapart⟩ := List.nodup_append.mp htids
    have hs := ih (fun e' he' => hown e' (List.mem_append_left _ he'))
      (fun b hb => hrequests b (List.mem_append_left _ hb)) hold
    have hshard : (run c serverId es).ledger.isClientInCluster =
        fun a => isClientInCluster c a (getClusterIdFromServerId c serverId) := by
      obtain ⟨hconst, hid⟩ := run_shard c serverId es
      funext a
      rw [Ledger.isClientInCluster, hconst, hid]
    have hrun : run c serverId (es ++ [e]) = (run c serverId es).handle e := by
      simp [run]
    rw [hrun]
    refine hs.handle (hown e (List.mem_append_right _ List.mem_cons_self)) ?_ ?_
    · rw [hshard]
      exact fun b hb => hrequests b (List.mem_append_right _ hb)
    · intro b hb hmem
      exact hapart _ hmem _ (List.mem_map.mpr ⟨b, hb, rfl⟩) rfl

end ServerImpl

/-- **Exact lock accounting on a stable leader.**  Whatever it is sent by the clients, as the client routes it,
with distinct positive tids and amounts that are not negative, and whatever replies, decisions, timeouts and
disconnects it sees in whatever order: as long as no peer takes the lead and no sync comes in, the lock set is the
disjoint union of what the batch in flight and the prepared transactions hold, every holder is covered, and no
balance is negative whose account has not been paid beyond the range of an `int`. -/
theorem locks_exact (c : Constants) (serverId : Int) (es : List Event) (hown : ∀ e ∈ es, e.own = true)
    (hrequests : ∀ b ∈ ServerImpl.enqueued es, reservable (0 ≤ ·)
      (fun a => isClientInCluster c a (getClusterIdFromServerId c serverId)) b.isCrossShard b.request.tid b.request.txn)
    (htids : ((ServerImpl.enqueued es).map fun b => b.request.tid).Nodup) :
    (ServerImpl.run c serverId es).ExactLocks ∧ ∀ a, (ServerImpl.run c serverId es).ledger.worth a < 2 ^ 31 →
      0 ≤ ((ServerImpl.run c serverId es).ledger.balances a).toInt := by
  have haccounted := ServerImpl.accounted_run c serverId es hown hrequests htids
  exact ⟨haccounted.exactLocks, fun _ => haccounted.balance_nonneg⟩

/-- A round of server 1 fails.  Its next batch has a cross-shard transfer, an intra-shard one that wants the
same account and is turned away, and another one; the first then times out in the middle of the round. -/
def timedOutInRound : List Event :=
  [.input (.transfer 0 ⟨⟨1, 2, 4⟩, 11⟩),
   .prepareReply .error ⟨⟨1, 1⟩, -1⟩ (ServerImpl.plainPrepareRes false .zero),
   .input (.tpcPrepare 1 ⟨⟨3, 1001, 5⟩, 12⟩), .input (.transfer 2 ⟨⟨4, 3, 1⟩, 13⟩), .input (.transfer 3 ⟨⟨4, 5, 2⟩, 14⟩),
   .prepareReply .deadlineExceeded ⟨⟨1, 1⟩, -1⟩ (ServerImpl.plainPrepareRes false .zero),
   .prepareReply .deadlineExceeded ⟨⟨1, 1⟩, -1⟩ (ServerImpl.plainPrepareRes false .zero),
   .prepareReply .ok ⟨⟨2, 1⟩, -1⟩ (ServerImpl.plainPrepareRes true ⟨2, 1⟩),
   .input (.tick 5001), .input .sweep]

theorem locks_exact_timedOutInRound :
    (ServerImpl.run ⟨3, 3⟩ 1 timedOutInRound).ExactLocks ∧
      0 ≤ ((ServerImpl.run ⟨3, 3⟩ 1 timedOutInRound).ledger.balances 4).toInt ∧
      (ServerImpl.run ⟨3, 3⟩ 1 timedOutInRound).ledger.locks = {4, 5} ∧
      (ServerImpl.run ⟨3, 3⟩ 1 (timedOutInRound.take 8)).ledger.locks = {3, 4, 5} := by
  have hexact := locks_exact ⟨3, 3⟩ 1 timedOutInRound (by decide) (by decide) (by decide)
  exact ⟨hexact.1, hexact.2 4 (by decide +kernel), by decide +kernel, by decide +kernel⟩

/-- One that has is: account 1 ends at -2147483639. -/
theorem balance_wraps_negative :
    ¬ ∀ es : List Event, (∀ e ∈ es, e.own = true) →
      (∀ b ∈ ServerImpl.enqueued es, reservable (0 ≤ ·)
        (fun a => isClientInCluster ⟨3, 3⟩ a (getClusterIdFromServerId ⟨3, 3⟩ 1)) b.isCrossShard b.request.tid
        b.request.txn) →
      ((ServerImpl.enqueued es).map fun b => b.request.tid).Nodup →
      ∀ a, 0 ≤ ((ServerImpl.run ⟨3, 3⟩ 1 es).ledger.balances a).toInt := by
  intro h
  have hbalance := h paidTooMuch (by decide) (by decide) (by decide) 1
  revert hbalance
  decide +kernel

end MultiPaxosDB
