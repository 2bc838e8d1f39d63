/-
# MultiPaxosDB.Decisions — the Accept of a transaction and its decision, in either order.

A leader votes PREPARED after one peer has accepted, so the coordinator may decide before the other peer has seen
the Accept.  `processTpcDecision` looks the tid up in the WAL's index of prepared transactions and drops a decision
it does not find there; the Accept that comes later logs the prepare, which no decision will follow.

What comes in between is arbitrary as long as it does not concern the transaction: none of the operations that the
server may run for it is about the tid, and none commits another transaction on its accounts of the shard
(`Unconcerned`).  Then the two orders end alike exactly if the server had the transaction already, as pending or as
applied (`decision_order_iff`).
-/
import Mathlib.Algebra.BigOperators.Group.List.Basic
import MultiPaxosDB.Applications
import MultiPaxosDB.Locks
import MultiPaxosDB.Recovery

namespace MultiPaxosDB

open Lib

/-! ## Events that do not concern a transaction -/

/-- The transaction uses none of the accounts. -/
def Transaction.avoids (accounts : List Int) (txn : Transaction) : Prop :=
  txn.sender ∉ accounts ∧ txn.receiver ∉ accounts

theorem Transaction.avoids.effect {accounts : List Int} {txn : Transaction} (h : txn.avoids accounts) {a : Int}
    (ha : a ∈ accounts) : txn.effect a = 0 := by
  have hs : txn.sender ≠ a := fun heq => h.1 (heq ▸ ha)
  have hr : txn.receiver ≠ a := fun heq => h.2 (heq ▸ ha)
  rw [Transaction.effect, if_neg hr, if_neg hs, sub_zero]

/-- The operation is not about `tid`, and commits nothing on the accounts. -/
def LedgerOp.LeavesAlone (tid : Int) (accounts : List Int) (l : Ledger) : LedgerOp → Prop
  | prepare request _ => request.tid ≠ tid
  | commit request _ => request.tid ≠ tid ∧ request.txn.avoids accounts
  | decide t isCommit => t ≠ tid ∧ (isCommit = true → ∀ x, l.wal.pendingEntry t = some x → x.txn.avoids accounts)
  | insert entry => entry.tid ≠ tid ∧ (entry.status = .committed → entry.txn.avoids accounts)

/-- Nothing the server may do for the event, in its present state, concerns `tid`. -/
def ServerImpl.Unconcerned (tid : Int) (accounts : List Int) (s : ServerImpl) (e : Event) : Prop :=
  ∀ o, s.Does e o → o.LeavesAlone tid accounts s.ledger

namespace Ledger

variable {tid : Int} {accounts : List Int} {l l' l'' : Ledger}

/-- The ledgers are the same as far as `tid` and the accounts are concerned. -/
structure Alike (tid : Int) (accounts : List Int) (l l' : Ledger) : Prop where
  wal : l'.wal.Ok
  inShard : l'.isClientInCluster = l.isClientInCluster
  pending : l'.wal.pendingEntry tid = l.wal.pendingEntry tid
  applied : tid ∈ l'.balanceApplied ↔ tid ∈ l.balanceApplied
  balance : ∀ a ∈ accounts, l.isClientInCluster a = true → l'.balances a = l.balances a

theorem Alike.refl (hw : l.wal.Ok) : Alike tid accounts l l :=
  ⟨hw, rfl, rfl, Iff.rfl, fun _ _ _ => rfl⟩

theorem Alike.trans (h : Alike tid accounts l l') (h' : Alike tid accounts l' l'') : Alike tid accounts l l'' where
  wal := h'.wal
  inShard := h'.inShard.trans h.inShard
  pending := h'.pending.trans h.pending
  applied := h'.applied.trans h.applied
  balance := by
    intro a ha hin
    rw [h'.balance a ha (by rw [h.inShard]; exact hin), h.balance a ha hin]

/-- A stretch that logs no commit of `tid` and none on the accounts. -/
theorem Applies.alike {new : List WALEntry} (h : l.Applies new l') (hpending : l'.wal.pendingEntry tid = l.wal.pendingEntry tid)
    (hnew : ∀ e ∈ new, e.status = .committed → e.tid ≠ tid ∧ e.txn.avoids accounts) : Alike tid accounts l l' where
  wal := h.wal
  inShard := h.inShard
  pending := hpending
  applied := by
    rw [h.applied, Finset.mem_union, or_iff_left]
    intro hmem
    obtain ⟨e, he, hs, heq⟩ := mem_committedTids.mp hmem
    exact (hnew e he hs).1 heq
  balance := by
    intro a ha hin
    have hzero : ((appliedFrom l.balanceApplied new).map fun e => e.txn.effect a).sum = 0 := by
      refine List.sum_eq_zero ?_
      intro x hx
      obtain ⟨e, he, rfl⟩ := List.mem_map.mp hx
      have hfirst := (List.mem_filter.mp he).1
      exact (hnew e (mem_firstCommits hfirst).1 (mem_firstCommits hfirst).2).2.effect ha
    rw [h.balance a hin, hzero, add_ofInt_zero]

/-- What an operation that leaves `tid` alone leaves. -/
theorem alike_op (hw : l.wal.Ok) {o : LedgerOp} (h : o.LeavesAlone tid accounts l) :
    Alike tid accounts l (o.apply l) := by
  refine (o.applies hw).alike ?_ ?_
  · cases o with
    | prepare request ballot =>
      exact (hw.pendingEntry_prepareTransaction request ballot tid).trans (if_neg fun heq => h heq.symm)
    | commit request ballot => exact (SamePending.commitTransaction hw request ballot).pending tid
    | decide t isCommit =>
      exact (pendingEntry_processTpcDecision hw t isCommit tid).trans (if_neg fun heq => h.1 heq.symm)
    | insert entry => exact (pendingEntry_insertSynced hw entry tid).trans (if_neg fun heq => h.1 heq.symm)
  · intro e he hs
    cases o with
    | prepare request ballot =>
      rw [List.mem_singleton.mp he] at hs
      cases hs
    | commit request ballot =>
      rw [(LedgerOp.mem_entries_commit he).2]
      exact h
    | decide t isCommit =>
      obtain ⟨x, hx, -, rfl⟩ := LedgerOp.mem_entries_decide he
      cases isCommit with
      | false => cases hs
      | true =>
        refine ⟨?_, h.2 rfl x hx⟩
        rw [show (decidedEntry x true).tid = t from (hw.pendingEntry_spec hx).1]
        exact h.1
    | insert entry =>
      rw [List.mem_singleton.mp he] at hs ⊢
      exact ⟨h.1, h.2 hs⟩

/-- A commit decision on a pending transaction. -/
theorem decide_commit (hw : l.wal.Ok) {x : WALEntry} (hx : l.wal.pendingEntry tid = some x) (htid : tid ≠ -1) :
    tid ∈ (l.processTpcDecision tid true).balanceApplied ∧ ∀ a, l.isClientInCluster a = true →
      (l.processTpcDecision tid true).balances a =
        l.balances a + .ofInt (if tid ∉ l.balanceApplied then x.txn.effect a else 0) := by
  have happlies := applies_decide hw tid true
  have hxt : x.tid = tid := (hw.pendingEntry_spec hx).1
  rw [LedgerOp.entries, hx] at happlies
  dsimp only at happlies
  rw [if_neg htid] at happlies
  refine ⟨?_, ?_⟩
  · rw [happlies.applied, Finset.mem_union]
    exact .inr (by simp [committedTids, decidedEntry, decisionStatus, hxt])
  · intro a ha
    rw [happlies.balance a ha, appliedFrom_singleton]
    by_cases hold : tid ∈ l.balanceApplied
    · simp [decidedEntry, hxt, hold]
    · simp [decidedEntry, decisionStatus, hxt, hold]

/-- A decision that finds nothing, or the sentinel, moves nothing. -/
theorem decide_nothing (hw : l.wal.Ok) (h : l.wal.pendingEntry tid = none ∨ tid = -1) (isCommit : Bool) :
    (l.processTpcDecision tid isCommit).balanceApplied = l.balanceApplied ∧ ∀ a, l.isClientInCluster a = true →
      (l.processTpcDecision tid isCommit).balances a = l.balances a := by
  have happlies := applies_decide hw tid isCommit
  have hnone : (LedgerOp.decide tid isCommit).entries l = [] := by
    unfold LedgerOp.entries
    dsimp only
    split
    · rfl
    · rename_i x hx
      rcases h with hnone | rfl
      · rw [hnone] at hx
        cases hx
      · rw [if_pos rfl]
  rw [hnone] at happlies
  refine ⟨happlies.applied.trans (Finset.union_empty _), ?_⟩
  intro a ha
  exact (happlies.balance a ha).trans (add_ofInt_zero _)

/-! ### The Accept -/

/-- What accepting a batch does not touch. -/
structure Unmoved (l l' : Ledger) : Prop where
  wal : l'.wal.Ok
  inShard : l'.isClientInCluster = l.isClientInCluster
  balances : l'.balances = l.balances
  applied : l'.balanceApplied = l.balanceApplied

theorem unmoved_foldl_acceptEntry (hw : l.wal.Ok) (ballot : Ballot) (batch : List TransferReq) :
    l.Unmoved (batch.foldl (ServerImpl.acceptEntry ballot) l) := by
  refine List.foldlRecOn (motive := l.Unmoved) batch (ServerImpl.acceptEntry ballot) (b := l) ⟨hw, rfl, rfl, rfl⟩ ?_
  intro l' h r _
  unfold ServerImpl.acceptEntry
  dsimp only
  split
  · exact ⟨h.wal.prepareTransaction r ballot, h.inShard, h.balances, h.applied⟩
  · exact ⟨h.wal, h.inShard, h.balances, h.applied⟩

/-- An accepted cross-shard transaction is pending. -/
theorem pending_foldl_acceptEntry (ballot : Ballot) {r : TransferReq} : ∀ {batch : List TransferReq} {l : Ledger},
    l.wal.Ok → ServerImpl.crossHere l r.txn = true → r ∈ batch → (∀ x ∈ batch, x.tid = r.tid → x.txn = r.txn) →
      ∃ x, (batch.foldl (ServerImpl.acceptEntry ballot) l).wal.pendingEntry r.tid = some x ∧ x.txn = r.txn := by
  intro batch
  -- on the end of the batch: the last request with the tid is the one that stays pending
  induction batch using List.reverseRecOn with
  | nil => intro l _ _ hr; cases hr
  | append_singleton batch last ih =>
    intro l hw hcross hr hone
    rw [List.foldl_append, List.foldl_cons, List.foldl_nil]
    have hbefore := unmoved_foldl_acceptEntry hw ballot batch
    generalize hl' : batch.foldl (ServerImpl.acceptEntry ballot) l = l' at hbefore ⊢
    by_cases heq : last.tid = r.tid
    · have htxn := hone last (List.mem_append_right _ (List.mem_singleton_self _)) heq
      have hhere : ServerImpl.crossHere l' last.txn = true := by
        rw [htxn, ServerImpl.crossHere, hbefore.inShard]
        exact hcross
      refine ⟨WAL.preparedEntry last ballot, ?_, htxn⟩
      unfold ServerImpl.acceptEntry
      dsimp only
      rw [if_pos hhere]
      exact (hbefore.wal.pendingEntry_prepareTransaction last ballot r.tid).trans (if_pos heq.symm)
    · have hmem : r ∈ batch := by
        rcases List.mem_append.mp hr with hold | hlast
        · exact hold
        · exact absurd (by rw [List.mem_singleton.mp hlast]) heq
      obtain ⟨x, hx, htxn⟩ := ih hw hcross hmem fun y hy => hone y (List.mem_append_left _ hy)
      refine ⟨x, ?_, htxn⟩
      rw [hl'] at hx
      rw [← hx]
      unfold ServerImpl.acceptEntry
      dsimp only
      split
      · exact (hbefore.wal.pendingEntry_prepareTransaction last ballot r.tid).trans (if_neg fun h => heq h.symm)
      · rfl

end Ledger

namespace ServerImpl

variable {tid : Int} {accounts : List Int} {s : ServerImpl}

/-- An event that does not concern the transaction leaves it alone. -/
theorem alike_handle (hw : s.ledger.wal.Ok) {e : Event} (h : s.Unconcerned tid accounts e) :
    s.ledger.Alike tid accounts (s.handle e).ledger := by
  by_cases hcommit : ∃ t, e = .input (.tpcDecision t true)
  · obtain ⟨t, rfl⟩ := hcommit
    show s.ledger.Alike tid accounts (processTpcDecision { s with outbox := [] } t true).ledger
    unfold processTpcDecision
    split
    · exact .refl hw
    · exact Ledger.alike_op hw (h _ (.decided t true))
  · -- no other event decides for a commit, and only that looks at the ledger
    have hops : ∀ o, s.Does e o → ∀ l, o.LeavesAlone tid accounts l := by
      intro o ho l
      have hleaves := h o ho
      cases ho with
      | decided t isCommit =>
        cases isCommit with
        | true => exact absurd ⟨t, rfl⟩ hcommit
        | false => exact ⟨hleaves.1, fun hfalse => absurd hfalse Bool.false_ne_true⟩
      | swept => exact ⟨hleaves.1, fun hfalse => absurd hfalse Bool.false_ne_true⟩
      | _ => exact hleaves
    refine reflTransGen_invariant (motive := s.ledger.Alike tid accounts) ?_ (s.handle_does e) (.refl hw)
    intro l l' hmove hl
    cases hmove with
    | op o ho => exact hl.trans (Ledger.alike_op hl.wal (hops o ho l))
    | frame hf =>
      have hstill := Ledger.Applies.frame hl.wal hf
      exact hl.trans (hstill.alike (by rw [hf.wal]) fun e he => absurd he List.not_mem_nil)

theorem alike_run {es : List Event} (hw : s.ledger.wal.Ok) (h : okRun handle (Unconcerned tid accounts) s es) :
    s.ledger.Alike tid accounts (es.foldl handle s).ledger := by
  induction es generalizing s with
  | nil => exact .refl hw
  | cons e es ih =>
    have hfirst := alike_handle hw h.1
    exact hfirst.trans (ih hfirst.wal h.2)

/-! ## The two orders -/

/-- The Accept, the events between, and then the commit decision. -/
def acceptThenDecide (s : ServerImpl) (request : AcceptReq) (tid : Int) (between : List Event) : ServerImpl :=
  (between.foldl handle (s.handle (.acceptCall request))).handle (.input (.tpcDecision tid true))

/-- The commit decision, the events between, and then the Accept. -/
def decideThenAccept (s : ServerImpl) (request : AcceptReq) (tid : Int) (between : List Event) : ServerImpl :=
  (between.foldl handle (s.handle (.input (.tpcDecision tid true)))).handle (.acceptCall request)

/-- The Accept has been promised, and the server is not disconnected from its peers. -/
def mayAccept (s : ServerImpl) (request : AcceptReq) : Bool := !s.iAmDisconnected && s.accepts request

/-- A replica gets the Accept that carries the cross-shard transaction `r`, and the decision to commit it, in either
order, and in between events that do not concern `r`. -/
structure Exchange (s : ServerImpl) (request : AcceptReq) (r : TransferReq) (between : List Event) : Prop where
  carried : r ∈ request.batch
  oneTxn : ∀ x ∈ request.batch, x.tid = r.tid → x.txn = r.txn
  cross : crossHere s.ledger r.txn = true
  acceptedFirst : s.mayAccept request = true
  acceptedLast : (between.foldl handle (s.handle (.input (.tpcDecision r.tid true)))).mayAccept request = true
  decidedLast : (between.foldl handle (s.handle (.acceptCall request))).iAmDisconnected = false
  unconcernedFirst : okRun handle (Unconcerned r.tid (s.ledger.inShard r.txn)) (s.handle (.acceptCall request)) between
  unconcernedLast : okRun handle (Unconcerned r.tid (s.ledger.inShard r.txn))
    (s.handle (.input (.tpcDecision r.tid true))) between

/-- The two orders leave the same on the accounts of `r` in the shard, and agree on whether `r` is applied. -/
structure SameOutcome (s : ServerImpl) (request : AcceptReq) (r : TransferReq) (between : List Event) : Prop where
  balances : ∀ a ∈ s.ledger.inShard r.txn, (s.acceptThenDecide request r.tid between).ledger.balances a =
    (s.decideThenAccept request r.tid between).ledger.balances a
  applied : r.tid ∈ (s.acceptThenDecide request r.tid between).ledger.balanceApplied ↔
    r.tid ∈ (s.decideThenAccept request r.tid between).ledger.balanceApplied

theorem ledger_acceptCall {request : AcceptReq} (h : s.mayAccept request = true) :
    (s.handle (.acceptCall request)).ledger = request.batch.foldl (acceptEntry request.ballot) s.ledger := by
  simp only [mayAccept, Bool.and_eq_true, Bool.not_eq_true'] at h
  have hacc : accepts { s with outbox := [] } request = true := h.2
  show (processAcceptCall { s with outbox := [] } request).1.ledger = _
  unfold processAcceptCall
  dsimp only
  rw [if_neg (by rw [h.1]; exact Bool.false_ne_true), if_pos hacc]

theorem ledger_tpcDecision (h : s.iAmDisconnected = false) (tid : Int) (isCommit : Bool) :
    (s.handle (.input (.tpcDecision tid isCommit))).ledger = s.ledger.processTpcDecision tid isCommit := by
  show (processTpcDecision { s with outbox := [] } tid isCommit).ledger = _
  unfold processTpcDecision
  dsimp only
  rw [if_neg (by rw [h]; exact Bool.false_ne_true)]

theorem connected_of_mayAccept {request : AcceptReq} (h : s.mayAccept request = true) : s.iAmDisconnected = false := by
  simp only [mayAccept, Bool.and_eq_true, Bool.not_eq_true'] at h
  exact h.1

variable {request : AcceptReq} {r : TransferReq} {between : List Event}

/-- The order the protocol expects: the decision comes to a ledger where the transaction is pending. -/
theorem Exchange.acceptThenDecide (h : s.Exchange request r between) (hw : s.ledger.wal.Ok) :
    ∃ (l : Ledger) (x : WALEntry), (s.acceptThenDecide request r.tid between).ledger = l.processTpcDecision r.tid true ∧
      l.wal.Ok ∧ l.wal.pendingEntry r.tid = some x ∧ x.txn = r.txn ∧
      (r.tid ∈ l.balanceApplied ↔ r.tid ∈ s.ledger.balanceApplied) ∧
      ∀ a ∈ s.ledger.inShard r.txn, l.isClientInCluster a = true ∧ l.balances a = s.ledger.balances a := by
  have hunmoved := Ledger.unmoved_foldl_acceptEntry hw request.ballot request.batch
  obtain ⟨x, hx, htxn⟩ := Ledger.pending_foldl_acceptEntry request.ballot hw h.cross h.carried h.oneTxn
  rw [← ledger_acceptCall h.acceptedFirst] at hunmoved hx
  have halike := alike_run hunmoved.wal h.unconcernedFirst
  refine ⟨_, x, ledger_tpcDecision h.decidedLast r.tid true, halike.wal, halike.pending.trans hx, htxn, ?_, ?_⟩
  · rw [halike.applied, hunmoved.applied]
  · intro a ha
    have hin : (s.handle (.acceptCall request)).ledger.isClientInCluster a = true := by
      rw [hunmoved.inShard]
      exact (Ledger.mem_inShard.mp ha).2
    exact ⟨by rw [halike.inShard]; exact hin, by rw [halike.balance a ha hin, hunmoved.balances]⟩

/-- The other order: the decision comes to the ledger as it was, and nothing more happens to the transaction. -/
theorem Exchange.decideThenAccept (h : s.Exchange request r between) (hw : s.ledger.wal.Ok) :
    (r.tid ∈ (s.decideThenAccept request r.tid between).ledger.balanceApplied ↔
      r.tid ∈ (s.ledger.processTpcDecision r.tid true).balanceApplied) ∧
      ∀ a ∈ s.ledger.inShard r.txn, (s.decideThenAccept request r.tid between).ledger.balances a =
        (s.ledger.processTpcDecision r.tid true).balances a := by
  have hdecided := Ledger.applies_decide hw r.tid true
  rw [← ledger_tpcDecision (connected_of_mayAccept h.acceptedFirst)] at hdecided ⊢
  have halike := alike_run hdecided.wal h.unconcernedLast
  have hunmoved := Ledger.unmoved_foldl_acceptEntry halike.wal request.ballot request.batch
  rw [ServerImpl.decideThenAccept, ledger_acceptCall h.acceptedLast, hunmoved.applied, hunmoved.balances]
  refine ⟨halike.applied, ?_⟩
  intro a ha
  exact halike.balance a ha (by rw [hdecided.inShard]; exact (Ledger.mem_inShard.mp ha).2)

end ServerImpl

/-- **A commit decision and its Accept may come in either order exactly if the replica has the transaction
already**: applied, or pending with the same effect on its accounts.  (The tid `-1` is the sentinel of the WAL.) -/
theorem decision_order_iff (c : Constants) (serverId : Int) (es : List LifeEvent) (request : AcceptReq) (r : TransferReq)
    (between : List Event) (h : (ServerImpl.life c serverId es).Exchange request r between) :
    (ServerImpl.life c serverId es).SameOutcome request r between ↔
      r.tid = -1 ∨ r.tid ∈ (ServerImpl.life c serverId es).ledger.balanceApplied ∨
        ∃ x, (ServerImpl.life c serverId es).ledger.wal.pendingEntry r.tid = some x ∧
          ∀ a ∈ (ServerImpl.life c serverId es).ledger.inShard r.txn,
            int32 (x.txn.effect a) = int32 (r.txn.effect a) := by
  have hw := (ServerImpl.counted_life c serverId es).wal
  generalize ServerImpl.life c serverId es = s at h hw ⊢
  obtain ⟨l, y, hfirst, hlw, hy, hytxn, hlapplied, hlbalance⟩ := h.acceptThenDecide hw
  obtain ⟨happlied, hbalance⟩ := h.decideThenAccept hw
  have hin : ∀ a ∈ s.ledger.inShard r.txn, s.ledger.isClientInCluster a = true :=
    fun a ha => (Ledger.mem_inShard.mp ha).2
  by_cases htid : r.tid = -1
  · refine iff_of_true ⟨?_, ?_⟩ (.inl htid)
    · intro a ha
      rw [hfirst, hbalance a ha, (Ledger.decide_nothing hlw (.inr htid) true).2 a (hlbalance a ha).1,
        (Ledger.decide_nothing hw (.inr htid) true).2 a (hin a ha)]
      exact (hlbalance a ha).2
    · rw [hfirst, happlied, (Ledger.decide_nothing hlw (.inr htid) true).1,
        (Ledger.decide_nothing hw (.inr htid) true).1]
      exact hlapplied
  obtain ⟨hdone, hmoved⟩ := Ledger.decide_commit hlw hy htid
  have hmoved' : ∀ a ∈ s.ledger.inShard r.txn, (l.processTpcDecision r.tid true).balances a =
      s.ledger.balances a + .ofInt (if r.tid ∉ s.ledger.balanceApplied then r.txn.effect a else 0) := by
    intro a ha
    rw [hmoved a (hlbalance a ha).1, (hlbalance a ha).2, hytxn]
    simp only [hlapplied]
  constructor
  · intro hsame
    refine .inr ?_
    have hlate := happlied.mp (hsame.applied.mp (hfirst ▸ hdone))
    cases hx : s.ledger.wal.pendingEntry r.tid with
    | none => exact .inl ((Ledger.decide_nothing hw (.inl hx) true).1 ▸ hlate)
    | some x =>
      by_cases hold : r.tid ∈ s.ledger.balanceApplied
      · exact .inl hold
      · refine .inr ⟨x, rfl, ?_⟩
        intro a ha
        have heq := hsame.balances a ha
        rw [hfirst, hmoved' a ha, hbalance a ha, (Ledger.decide_commit hw hx htid).2 a (hin a ha), if_pos hold,
          if_pos hold] at heq
        exact (add_ofInt_inj.mp heq).symm
  · intro hhas
    -- the decision finds the transaction, or there is nothing left for it to do
    have hlate : r.tid ∈ (s.ledger.processTpcDecision r.tid true).balanceApplied ∧
        ∀ a ∈ s.ledger.inShard r.txn, (s.ledger.processTpcDecision r.tid true).balances a =
          s.ledger.balances a + .ofInt (if r.tid ∉ s.ledger.balanceApplied then r.txn.effect a else 0) := by
      rcases hhas with hsentinel | hold | ⟨x, hx, heffect⟩
      · exact absurd hsentinel htid
      · simp only [hold, not_true_eq_false, if_false, add_ofInt_zero]
        cases hx : s.ledger.wal.pendingEntry r.tid with
        | none =>
          obtain ⟨hsame, hstill⟩ := Ledger.decide_nothing hw (.inl hx) true
          exact ⟨hsame ▸ hold, fun a ha => hstill a (hin a ha)⟩
        | some x =>
          obtain ⟨hnow, hmove⟩ := Ledger.decide_commit hw hx htid
          simp only [hold, not_true_eq_false, if_false, add_ofInt_zero] at hmove
          exact ⟨hnow, fun a ha => hmove a (hin a ha)⟩
      · obtain ⟨hnow, hmove⟩ := Ledger.decide_commit hw hx htid
        refine ⟨hnow, ?_⟩
        intro a ha
        rw [hmove a (hin a ha)]
        split
        · exact add_ofInt_inj.mpr (heffect a ha)
        · rfl
    refine ⟨?_, ?_⟩
    · intro a ha
      rw [hfirst, hbalance a ha, hmoved' a ha, hlate.2 a ha]
    · rw [hfirst, happlied]
      exact iff_of_true hdone hlate.1

/-- Server 2 has accepted a cross-shard transaction under ballot 1 and restarted, and promised ballot 2 to another
leader, which proposes the transaction again. -/
def proposedAgain : List LifeEvent :=
  [.event (.prepareCall ⟨⟨1, 1⟩, -1⟩), .event (.acceptCall ⟨⟨1, 1⟩, [⟨⟨1, 1001, 3⟩, 7⟩]⟩), .restart,
   .event (.prepareCall ⟨⟨2, 3⟩, 0⟩)]

theorem decision_order_iff_proposedAgain :
    (ServerImpl.life ⟨3, 3⟩ 2 proposedAgain).SameOutcome ⟨⟨2, 3⟩, [⟨⟨1, 1001, 3⟩, 7⟩]⟩ ⟨⟨1, 1001, 3⟩, 7⟩
      [.input (.tick 10)] := by
  refine (decision_order_iff ⟨3, 3⟩ 2 proposedAgain ⟨⟨2, 3⟩, [⟨⟨1, 1001, 3⟩, 7⟩]⟩ ⟨⟨1, 1001, 3⟩, 7⟩
    [.input (.tick 10)] ?_).mpr (.inr (.inr ⟨⟨7, 1, 1, ⟨1, 1001, 3⟩, .cross, .prepared⟩, ?_, ?_⟩))
  · refine ⟨by decide +kernel, by decide +kernel, by decide +kernel, by decide +kernel, by decide +kernel,
      by decide +kernel, ⟨?_, trivial⟩, ⟨?_, trivial⟩⟩
    · intro o ho
      cases ho
    · intro o ho
      cases ho
  · decide +kernel
  · intro a _
    rfl

/-- Server 2 hears that transaction 7 commits before it has seen the Accept. -/
theorem decision_lost_before_accept :
    ¬ ∀ (es : List LifeEvent) (request : AcceptReq) (r : TransferReq) (between : List Event),
      (ServerImpl.life ⟨3, 3⟩ 2 es).Exchange request r between →
        (ServerImpl.life ⟨3, 3⟩ 2 es).SameOutcome request r between := by
  intro h
  have hsame := h [.event (.prepareCall ⟨⟨1, 1⟩, -1⟩)] ⟨⟨1, 1⟩, [⟨⟨1, 1001, 3⟩, 7⟩]⟩ ⟨⟨1, 1001, 3⟩, 7⟩ []
    ⟨by decide +kernel, by decide +kernel, by decide +kernel, by decide +kernel, by decide +kernel,
      by decide +kernel, trivial, trivial⟩
  have happlied := hsame.applied
  revert happlied
  decide +kernel

end MultiPaxosDB
