/-
# MultiPaxosDB.Conservation — with stable leaders, money is neither made nor lost.

Two arguments meet here.  The first is bookkeeping: the balances of a server are a function of its log
(`Ledger.Sound`), every entry of a log is a transaction the client handed in, and tids do not repeat, so
the sum over the leaders is the initial money, plus what has arrived without having left, minus what has
left without having arrived (`total_eq`).  That is so as long as each balance shows what its account is worth
(`balancesFit`): an `int` that wraps makes or loses 2^32 at once.

The second is the protocol.  A yes vote of a leader leaves its transaction pending until the decision is
handled there (`Honors.promised`), so a commit, which needs both votes, finds the transaction pending on both
leaders and is applied on each of them (`Honors.applied`).  Once every `TpcCommit` has been handled nothing
is on its way.
-/
import Mathlib.Algebra.BigOperators.Group.Finset.Basic
import Mathlib.Algebra.BigOperators.Ring.Finset
import Mathlib.Tactic.Ring
import MultiPaxosDB.Atomicity
import MultiPaxosDB.Funds
import MultiPaxosDB.Leader
import MultiPaxosDB.Lib.Sums
import MultiPaxosDB.Routing

namespace MultiPaxosDB

open Lib

/-! ## What a log has moved -/

/-- Where a log commits nothing but submitted transactions, it has moved what those have that it commits. -/
theorem movedBy_eq {log : List WALEntry} {submitted : List TransferReq}
    (htids : (submitted.map TransferReq.tid).Nodup)
    (hlog : ∀ e ∈ log, e.request ∈ submitted) (a : Int) :
    movedBy log a =
      (submitted.map fun r => if r.tid ∈ committedTids log then r.txn.effect a else 0).sum := by
  have hkeys : ((firstCommits log).map WALEntry.request).map TransferReq.tid =
      (firstCommits log).map WALEntry.tid := by
    rw [List.map_map]
    rfl
  have hsum := sum_map_of_subset_keys TransferReq.tid htids
    (hkeys ▸ nodup_firstCommits log : (((firstCommits log).map WALEntry.request).map TransferReq.tid).Nodup)
    (fun r hr => by
      obtain ⟨e, he, rfl⟩ := List.mem_map.mp hr
      exact hlog e (mem_firstCommits he).1)
    (fun r => r.txn.effect a)
  rw [List.map_map, hkeys] at hsum
  simp only [mem_firstCommits_tids] at hsum
  exact hsum

/-! ## The sum over the leaders -/

/-- The ids `1, …, n`. -/
def idsUpTo (n : Int) : Finset Int := Int.instLocallyFiniteOrder.finsetIcc 1 n

theorem mem_idsUpTo {n a : Int} : a ∈ idsUpTo n ↔ 1 ≤ a ∧ a ≤ n :=
  Int.instLocallyFiniteOrder.finset_mem_Icc 1 n a

theorem card_idsUpTo (n : Int) : (idsUpTo n).card = n.toNat := by
  calc (idsUpTo n).card = (n + 1 - 1).toNat := (Finset.card_map _).trans (Finset.card_range _)
    _ = n.toNat := by rw [Int.add_sub_cancel]

/-- The clients whose shard is one of the deployment. -/
def accounts (c : Constants) : Finset Int := (idsUpTo totalClients).filter (isAccount c)

theorem mem_accounts {c : Constants} {a : Int} : a ∈ accounts c ↔ isAccount c a := by
  rw [accounts, Finset.mem_filter, mem_idsUpTo]
  exact ⟨fun h => h.2, fun h => ⟨h.1, h⟩⟩

/-- These are all clients, unless `id * num_clusters` overflows an `int`. -/
theorem card_accounts {c : Constants} (hpos : 0 < c.numClusters) (hint : totalClients * c.numClusters < 2 ^ 31) :
    ((accounts c).card : Int) = totalClients := by
  have hall : accounts c = idsUpTo totalClients := by
    refine Finset.filter_true_of_mem ?_
    intro a ha
    obtain ⟨hlow, hhigh⟩ := mem_idsUpTo.mp ha
    have hfirst : 1 * c.numClusters ≤ a * c.numClusters := Int.mul_le_mul_of_nonneg_right hlow hpos.le
    have hlast : a * c.numClusters ≤ totalClients * c.numClusters :=
      Int.mul_le_mul_of_nonneg_right hhigh hpos.le
    have hfits : int32 (a * c.numClusters) = a * c.numClusters := int32_eq_self (by omega) (by omega)
    refine ⟨⟨hlow, hhigh⟩, ?_⟩
    rw [getClusterIdFromClientId, hfits]
    constructor
    · exact (lt_ceilDiv_iff (k := 0) (by decide)).mpr (by omega)
    · exact (ceilDiv_le_iff (by decide)).mpr hlast
  rw [hall, card_idsUpTo]
  decide

namespace System

variable {s : System} {ev : SysEvent} {leaders : List Int}

/-- The balances that server `i` holds for the clients of shard `k`. -/
def shardBalance (s : System) (i k : Int) : Int :=
  ∑ a ∈ (idsUpTo totalClients).filter (fun a => isClientInCluster s.net.constants a k),
    ((s.net.servers i).ledger.balances a).toInt

/-- The sum over the leaders of the balances of their own shards. -/
def total (leaders : List Int) (s : System) : Int :=
  ∑ k ∈ idsUpTo s.net.constants.numClusters, s.shardBalance (Client.leaderOf leaders k) k

/-- The transaction `t` has a `COMMITTED` entry on server `i`. -/
def committedOn (s : System) (i t : Int) : Prop := t ∈ committedTids (s.net.servers i).ledger.log

instance (s : System) (i t : Int) : Decidable (s.committedOn i t) := inferInstanceAs (Decidable (_ ∈ _))

/-- The amounts of the transactions that are committed at the leader of `there` but not at that of `here`. -/
def committedOnlyAt (leaders : List Int) (s : System) (there here : Transaction → Int) : Int :=
  ((s.submitted.filter fun r =>
      decide (s.committedOn (leaderFor s.net.constants leaders (there r.txn)) r.tid ∧
        ¬ s.committedOn (leaderFor s.net.constants leaders (here r.txn)) r.tid)).map
    fun r => r.txn.amount).sum

/-- What an account is worth to the leader of its shard fits an `int`.  (Only accounts that transactions were
handed in for can have moved.) -/
def balancesFit (leaders : List Int) (s : System) : Prop :=
  ∀ r ∈ s.submitted, ∀ a ∈ [r.txn.sender, r.txn.receiver],
    -2 ^ 31 ≤ (s.net.servers (leaderFor s.net.constants leaders a)).ledger.worth a ∧
      (s.net.servers (leaderFor s.net.constants leaders a)).ledger.worth a < 2 ^ 31

instance (leaders : List Int) (s : System) : Decidable (s.balancesFit leaders) := by
  unfold balancesFit
  infer_instance

/-- The sum over the leaders, account by account. -/
theorem total_accounts (leaders : List Int) (s : System) :
    s.total leaders = ∑ a ∈ accounts s.net.constants,
      ((s.net.servers (leaderFor s.net.constants leaders a)).ledger.balances a).toInt := by
  have hmaps : ∀ a ∈ accounts s.net.constants,
      getClusterIdFromClientId s.net.constants a ∈ idsUpTo s.net.constants.numClusters := fun a ha =>
    mem_idsUpTo.mpr (mem_accounts.mp ha).2
  rw [← Finset.sum_fiberwise_of_maps_to hmaps]
  refine Finset.sum_congr rfl ?_
  intro k hk
  have hshard : (idsUpTo totalClients).filter (fun a => isClientInCluster s.net.constants a k) =
      (accounts s.net.constants).filter fun a => getClusterIdFromClientId s.net.constants a = k := by
    ext a
    simp only [Finset.mem_filter, mem_accounts, isClientInCluster, beq_iff_eq]
    constructor
    · rintro ⟨ha, rfl⟩
      exact ⟨⟨mem_idsUpTo.mp ha, mem_idsUpTo.mp hk⟩, rfl⟩
    · rintro ⟨ha, heq⟩
      exact ⟨mem_idsUpTo.mpr ha.1, heq⟩
  rw [shardBalance, hshard]
  refine Finset.sum_congr rfl ?_
  intro a ha
  rw [leaderFor, (Finset.mem_filter.mp ha).2]

/-- What one transaction has moved, over all accounts: its amount at the receiver, if it is committed there,
less its amount at the sender. -/
theorem sum_effect (P : Int → Prop) [DecidablePred P] {c : Constants} {txn : Transaction}
    (hsender : isAccount c txn.sender) (hreceiver : isAccount c txn.receiver) :
    (∑ a ∈ accounts c, if P a then txn.effect a else 0) =
      (if P txn.receiver ∧ ¬ P txn.sender then txn.amount else 0) -
        if P txn.sender ∧ ¬ P txn.receiver then txn.amount else 0 := by
  have hsplit : ∀ a, (if P a then txn.effect a else 0) =
      (if txn.receiver = a then (if P txn.receiver then txn.amount else 0) else 0) -
        if txn.sender = a then (if P txn.sender then txn.amount else 0) else 0 := by
    intro a
    unfold Transaction.effect
    by_cases hr : txn.receiver = a
    · subst hr
      by_cases hs : txn.sender = txn.receiver
      · simp [hs]
      · simp [hs]
    · by_cases hs : txn.sender = a
      · subst hs
        by_cases hP : P txn.sender
        · simp [hr, hP]
        · simp [hr, hP]
      · simp [hr, hs]
  rw [Finset.sum_congr rfl fun a _ => hsplit a, Finset.sum_sub_distrib, Finset.sum_ite_eq, Finset.sum_ite_eq,
    if_pos (mem_accounts.mpr hreceiver), if_pos (mem_accounts.mpr hsender)]
  by_cases hr : P txn.receiver
  · by_cases hs : P txn.sender
    · simp [hr, hs]
    · simp [hr, hs]
  · by_cases hs : P txn.sender
    · simp [hr, hs]
    · simp [hr, hs]

/-- What a list of transactions has moved, over all accounts. -/
theorem sum_moved (P : Int → Int → Prop) [∀ a t, Decidable (P a t)] {c : Constants} :
    ∀ {rs : List TransferReq}, (∀ r ∈ rs, isAccount c r.txn.sender ∧ isAccount c r.txn.receiver) →
      (∑ a ∈ accounts c, (rs.map fun r => if P a r.tid then r.txn.effect a else 0).sum) =
        (rs.map fun r => if P r.txn.receiver r.tid ∧ ¬ P r.txn.sender r.tid then r.txn.amount else 0).sum -
          (rs.map fun r => if P r.txn.sender r.tid ∧ ¬ P r.txn.receiver r.tid then r.txn.amount else 0).sum := by
  intro rs
  induction rs with
  | nil => simp
  | cons r rs ih =>
    intro h
    obtain ⟨hsender, hreceiver⟩ := h r List.mem_cons_self
    have hrest := ih fun r' hr' => h r' (List.mem_cons_of_mem r hr')
    have hone := sum_effect (fun a => P a r.tid) hsender hreceiver
    simp only [List.map_cons, List.sum_cons]
    rw [Finset.sum_add_distrib, hone, hrest]
    ring

/-- What an account is worth to its leader. -/
theorem worth_eq (hleaders : LeaderPerCluster s.net.constants leaders) (hwf : s.net.WellFormed)
    (hrouted : s.Routed leaders) (hissued : s.Issued) {a : Int} (hacc : isAccount s.net.constants a) :
    (s.net.servers (leaderFor s.net.constants leaders a)).ledger.isClientInCluster a = true ∧
      (s.net.servers (leaderFor s.net.constants leaders a)).ledger.worth a = 10 +
        (s.submitted.map fun r => if s.committedOn (leaderFor s.net.constants leaders a) r.tid
          then r.txn.effect a else 0).sum := by
  obtain ⟨hcluster, -⟩ := hleaders.leaderFor hacc
  obtain ⟨hconst, hid⟩ := hwf.shard (leaderFor s.net.constants leaders a)
  have hin : (s.net.servers (leaderFor s.net.constants leaders a)).ledger.isClientInCluster a = true := by
    simp only [Ledger.isClientInCluster, isClientInCluster, hconst, hid, hcluster, beq_self_eq_true]
  refine ⟨hin, ?_⟩
  rw [Ledger.worth_client hacc.1.1 hacc.1.2 hin,
    movedBy_eq hrouted.tids fun e he => ((hissued.entries.ledgers _).log e he).1.1]
  rfl

/-- **The books.**  The leaders hold the initial money, plus what has arrived but not left, minus what has
left but not arrived. -/
theorem total_eq (hleaders : LeaderPerCluster s.net.constants leaders) (hwf : s.net.WellFormed)
    (hrouted : s.Routed leaders) (hissued : s.Issued) (hfit : s.balancesFit leaders) :
    s.total leaders = 10 * (accounts s.net.constants).card +
      s.committedOnlyAt leaders Transaction.receiver Transaction.sender -
        s.committedOnlyAt leaders Transaction.sender Transaction.receiver := by
  have hbalance : ∀ a ∈ accounts s.net.constants,
      ((s.net.servers (leaderFor s.net.constants leaders a)).ledger.balances a).toInt = 10 +
        (s.submitted.map fun r => if s.committedOn (leaderFor s.net.constants leaders a) r.tid
          then r.txn.effect a else 0).sum := by
    intro a ha
    obtain ⟨hin, hworth⟩ := worth_eq hleaders hwf hrouted hissued (mem_accounts.mp ha)
    rw [← hworth, (hwf.sound _).toInt_balance hin]
    by_cases hnamed : ∃ r ∈ s.submitted, a = r.txn.sender ∨ a = r.txn.receiver
    · obtain ⟨r, hr, hside⟩ := hnamed
      obtain ⟨hlow, hhigh⟩ := hfit r hr a (by simpa using hside)
      exact int32_eq_self hlow hhigh
    · -- no transaction names the account, which still has its 10
      push Not at hnamed
      have hstill : (s.submitted.map fun r => if s.committedOn (leaderFor s.net.constants leaders a) r.tid
          then r.txn.effect a else 0).sum = 0 := by
        refine List.sum_eq_zero ?_
        intro x hx
        obtain ⟨r, hr, rfl⟩ := List.mem_map.mp hx
        obtain ⟨hsender, hreceiver⟩ := hnamed r hr
        rw [Transaction.effect_of_ne hsender hreceiver, ite_self]
      rw [hworth, hstill]
      rfl
  have hmoved := sum_moved (fun a t => s.committedOn (leaderFor s.net.constants leaders a) t)
    fun r hr => (hrouted.accounts r hr).2
  rw [total_accounts, Finset.sum_congr rfl hbalance, Finset.sum_add_distrib, Finset.sum_const, hmoved,
    committedOnlyAt, committedOnlyAt, sum_map_filter, sum_map_filter, nsmul_eq_mul, mul_comm, add_sub_assoc]

/-! ## The leaders keep their word -/

/-- A commit of a pending transaction is logged. -/
theorem mem_committedTids_decision {l : Ledger} (hw : l.wal.Ok) {t : Int} (hpending : l.wal.pendingEntry t ≠ none)
    (ht : t ≠ -1) : t ∈ committedTids (l.processTpcDecision t true).log := by
  obtain ⟨e, he⟩ := Option.ne_none_iff_exists'.mp hpending
  have hlog : (l.processTpcDecision t true).log = l.log ++ [Ledger.decidedEntry e true] := by
    rw [Ledger.processTpcDecision_some hw true he ht]
    rfl
  rw [hlog, committedTids_append, if_pos (show (Ledger.decidedEntry e true).status = .committed from rfl)]
  exact Finset.mem_insert.mpr (.inl (hw.pendingEntry_spec he).1.symm)

/-- The client's decision on `t` has been handled by server `i`. -/
def Handled (s : System) (i t : Int) (isCommit : Bool) : Prop :=
  ∃ x ∈ s.calls, x.dst = i ∧ x.req = .tpcDecision t isCommit ∧ x.delivered = true

/-- The leaders are left in peace: the client goes by them, and no leader hears from another proposer,
handles the reply of a sync, is disconnected or times a transaction out. -/
def leadersStable (leaders : List Int) (s : System) (ev : SysEvent) : Prop :=
  submitsTo leaders s ev ∧
    match ev with
    | .server ev' => ∀ p ∈ s.net.actor ev', isLeader s.net.constants leaders p.1 →
        (s.net.servers p.1).quiet p.2 = true
    | _ => True

instance (leaders : List Int) (s : System) : (ev : SysEvent) → Decidable (leadersStable leaders s ev)
  | .server ev' => inferInstanceAs (Decidable (_ ∧ ∀ p ∈ s.net.actor ev', isLeader s.net.constants leaders p.1 →
      (s.net.servers p.1).quiet p.2 = true))
  | .submit _ _ _ | .deliver _ | .complete _ | .fail _ => inferInstanceAs (Decidable (_ ∧ True))

/-- What a step of the deployment is to the leader `i`. -/
inductive LeaderStep (s : System) (ev : SysEvent) (i : Int) : Prop
  | idle : (s.step ev).net.servers i = s.net.servers i →
      (∀ t b, (s.step ev).Handled i t b → s.Handled i t b) → LeaderStep s ev i
  | own (e : Event) : (s.step ev).net.servers i = (s.net.servers i).handle e →
      (s.net.servers i).quiet e = true → (∀ t b, e ≠ .input (.tpcDecision t b)) →
      (∀ t b, (s.step ev).Handled i t b → s.Handled i t b) → LeaderStep s ev i
  | decision (k : Nat) (x : ClientCall) (t : Int) (b : Bool) : s.calls[k]? = some x → x.delivered = false →
      x.dst = i → x.req = .tpcDecision t b →
      (s.step ev).net.servers i = (s.net.servers i).handle (.input (.tpcDecision t b)) →
      (s.step ev).Handled i t b →
      (∀ t' b', (s.step ev).Handled i t' b' → s.Handled i t' b' ∨ (t' = t ∧ b' = b)) → LeaderStep s ev i

theorem Handled.step {i t : Int} {b : Bool} (h : s.Handled i t b) (ev : SysEvent) : (s.step ev).Handled i t b := by
  obtain ⟨x, hx, hdst, hreq, hdel⟩ := h
  obtain ⟨k, hk⟩ := List.mem_iff_getElem?.mp hx
  obtain ⟨x', hk', hlater⟩ := s.later_step ev hk
  exact ⟨x', List.mem_of_getElem? hk', hlater.dst.trans hdst, hlater.req.trans hreq, hlater.delivered hdel⟩

/-- A step of the network is at most one event of server `i`. -/
theorem servers_step_cases (n : Net) (ev : NetEvent) (i : Int) :
    (n.step ev).servers i = n.servers i ∧ (∀ e, n.actor ev ≠ some (i, e)) ∨
      ∃ e, n.actor ev = some (i, e) ∧ (n.step ev).servers i = (n.servers i).handle e := by
  rcases n.step_cases ev with ⟨hnone, hservers⟩ | ⟨j, e, u, hactor, -, hu, hstep⟩
  · refine .inl ⟨by rw [hservers], ?_⟩
    intro e he
    rw [hnone] at he
    cases he
  · by_cases hij : i = j
    · subst hij
      refine .inr ⟨e, hactor, ?_⟩
      rw [hstep, Net.servers_after_self, hu]
    · refine .inl ⟨by rw [hstep, Net.servers_after_ne n ev u hij], ?_⟩
      intro e' he'
      rw [hactor] at he'
      exact hij (Prod.mk.inj (Option.some.inj he')).1.symm

theorem Handled.of_calls {s' : System} (hcalls : ∀ y ∈ s'.calls, y.delivered = true →
    ∃ z ∈ s.calls, z.dst = y.dst ∧ z.req = y.req ∧ z.delivered = true) (t i : Int) (b : Bool)
    (h : s'.Handled i t b) : s.Handled i t b := by
  obtain ⟨y, hy, hdst, hreq, hdel⟩ := h
  obtain ⟨z, hz, hzdst, hzreq, hzdel⟩ := hcalls y hy hdel
  exact ⟨z, hz, hzdst.trans hdst, hzreq.trans hreq, hzdel⟩

/-- New calls are not delivered. -/
theorem mem_of_delivered {calls : List ClientCall} {out : List (Int × ClientReq)} {y : ClientCall}
    (hy : y ∈ calls ++ out.map ClientCall.new) (hdel : y.delivered = true) : y ∈ calls := by
  rcases List.mem_append.mp hy with hmem | hmem
  · exact hmem
  · obtain ⟨p, -, rfl⟩ := List.mem_map.mp hmem
    cases hdel

/-- A call of the client that is delivered: to the leader it is a decision or a request, to the others nothing. -/
theorem leader_deliver {k : Nat} {x : ClientCall} (hx : s.calls[k]? = some x) (hnot : x.delivered = false)
    (hs' : s.step (.deliver k) = { s with
      net := s.net.step (.input x.dst (x.req.toInput k))
      calls := s.calls.modify k fun x => { x with delivered := true } })
    {i : Int} (hi : isLeader s.net.constants leaders i) : LeaderStep s (.deliver k) i := by
  have hcases : ∀ t b, (s.step (.deliver k)).Handled i t b →
      s.Handled i t b ∨ (x.dst = i ∧ x.req = .tpcDecision t b) := by
    rw [hs']
    rintro t b ⟨y, hy, hdst, hreq, hdel⟩
    rcases mem_modify hy with hold | ⟨z, hz, rfl⟩
    · exact .inl ⟨y, hold, hdst, hreq, hdel⟩
    · rw [hx, Option.some.injEq] at hz
      subst hz
      exact .inr ⟨hdst, hreq⟩
  by_cases hdst : x.dst = i
  · subst hdst
    have hactor : s.net.actor (.input x.dst (x.req.toInput k)) = some (x.dst, .input (x.req.toInput k)) := by
      simp only [Net.actor, if_pos hi.1]
    have hserver : (s.step (.deliver k)).net.servers x.dst =
        (s.net.servers x.dst).handle (.input (x.req.toInput k)) := by
      rw [hs']
      show (s.net.step _).servers x.dst = _
      rw [Net.step_eq_after hactor, Net.servers_after_self]
    by_cases hdec : x.req.isDecision = true
    · obtain ⟨t, b, hreq⟩ : ∃ t b, x.req = .tpcDecision t b := by
        cases hreq : x.req with
        | tpcDecision t b => exact ⟨t, b, rfl⟩
        | _ =>
          rw [hreq] at hdec
          cases hdec
      refine .decision k x t b hx hnot rfl hreq (by rw [hserver, hreq]; rfl) ?_ ?_
      · rw [hs']
        exact ⟨_, List.mem_of_getElem? (Net.getElem?_modify_some _ hx), by simp, by simpa using hreq, by simp⟩
      · intro t' b' hb
        rcases hcases t' b' hb with hold | ⟨-, heq⟩
        · exact .inl hold
        · rw [hreq] at heq
          cases heq
          exact .inr ⟨rfl, rfl⟩
    · refine .own _ hserver ?_ ?_ ?_
      · cases hreq : x.req with
        | tpcDecision t b => exact absurd (by rw [hreq]; rfl) hdec
        | _ => rfl
      · intro t b heq
        cases hreq : x.req with
        | tpcDecision t b => exact absurd (by rw [hreq]; rfl) hdec
        | _ =>
          rw [hreq] at heq
          cases heq
      · intro t b hb
        rcases hcases t b hb with hold | ⟨-, heq⟩
        · exact hold
        · exact absurd (by rw [heq]; rfl) hdec
  · refine .idle ?_ ?_
    · rw [hs']
      rcases servers_step_cases s.net (.input x.dst (x.req.toInput k)) i with ⟨hserver, -⟩ | ⟨e, hactor, -⟩
      · exact hserver
      · simp only [Net.actor] at hactor
        split at hactor
        · cases hactor
          exact absurd rfl hdst
        · cases hactor
    · intro t b hb
      rcases hcases t b hb with hold | ⟨heq, -⟩
      · exact hold
      · exact absurd heq hdst

theorem leader_step (hok : leadersStable leaders s ev) {i : Int} (hi : isLeader s.net.constants leaders i) :
    LeaderStep s ev i := by
  have hclosed : ∀ {k : Nat} {vote : Option Bool} {out : Client × List (Int × ClientReq)},
      ∀ y ∈ (s.close k vote out).calls, y.delivered = true →
        ∃ z ∈ s.calls, z.dst = y.dst ∧ z.req = y.req ∧ z.delivered = true := by
    intro k vote out y hy hdel
    rcases mem_modify (mem_of_delivered hy hdel) with hold | ⟨z, hz, rfl⟩
    · exact ⟨y, hold, rfl, rfl, hdel⟩
    · exact ⟨z, List.mem_of_getElem? hz, rfl, rfl, hdel⟩
  generalize hs' : s.step ev = s'
  cases moves_of_step hs' with
  | idle => exact .idle (by rw [hs']) (by rw [hs']; exact fun _ _ h => h)
  | submit leaders t tid =>
    refine .idle (by rw [hs']) ?_
    rw [hs']
    exact fun t b => Handled.of_calls (fun y hy hdel => ⟨y, mem_of_delivered hy hdel, rfl, rfl, hdel⟩) t i b
  | vote k x request reply =>
    refine .idle (by rw [hs']; rfl) ?_
    rw [hs']
    exact fun t b => Handled.of_calls hclosed t i b
  | close k x =>
    refine .idle (by rw [hs']; rfl) ?_
    rw [hs']
    exact fun t b => Handled.of_calls hclosed t i b
  | server ev' hev =>
    have hsame : ∀ t b, (s.step (.server ev')).Handled i t b → s.Handled i t b := by
      rw [hs']
      exact fun _ _ h => h
    rcases servers_step_cases s.net ev' i with ⟨hserver, -⟩ | ⟨e, hactor, hserver⟩
    · exact .idle (by rw [hs']; exact hserver) hsame
    · refine .own e (by rw [hs']; exact hserver) (hok.2 (i, e) hactor hi) ?_ hsame
      rintro t b rfl
      obtain ⟨rfl, -⟩ := Net.actor_input hactor
      cases hev
  | deliver k x hx hnot => exact leader_deliver hx hnot hs' hi

/-- What a leader stands for.  Its yes votes are for transactions that are pending there, or decided; and a
commit it has handled is in its log. -/
structure Honors (s : System) (i : Int) : Prop where
  connected : (s.net.servers i).iAmDisconnected = false
  pledges : (s.net.servers i).Pledges
  promised : ∀ reply ∈ (s.net.servers i).replies, reply.ack = true → ∀ x r,
    s.calls[reply.call]? = some x → x.req = .tpcPrepare r →
      (s.net.servers i).ledger.wal.pendingEntry r.tid ≠ none ∨ ∃ b, s.Handled i r.tid b
  applied : ∀ t, s.Handled i t true → s.committedOn i t

namespace Honors

theorem fresh (c : Constants) (i : Int) : (System.fresh c).Honors i where
  connected := rfl
  pledges := fun h => by cases h
  promised := fun _ h => absurd h List.not_mem_nil
  applied := by
    rintro t ⟨x, hx, -⟩
    exact absurd hx List.not_mem_nil

/-- No entry of a batch is for a transaction that the client has decided: it has counted the vote, so the
call was answered. -/
theorem not_current_of_decided (hv : s.Votes) (ht : s.Tracked) {i t : Int} {b : Bool} (hd : s.Decided t b)
    {e : BatchEntry} (he : e ∈ (s.net.servers i).current) (hcross : e.isCrossShard = true) :
    e.request.tid ≠ t := by
  rintro rfl
  have hparked : e ∈ (s.net.servers i).parked := List.mem_append_left _ he
  obtain ⟨x, hx, rfl, -, hentry⟩ := ht.parked i e hparked
  have hreq : x.req = .tpcPrepare e.request := by
    rw [(ClientReq.eq_of_entry hentry).2, ClientReq.ofEntry, if_pos hcross]
  obtain ⟨v, hvote, -⟩ := hv.polled _ b hd x (List.mem_of_getElem? hx) (by rw [hreq]; simp [ClientReq.prepares])
  obtain ⟨reply, hmem, hcall, -⟩ := ht.votes _ x v hx hvote
  exact ht.not_parked hmem hparked hcall

/-- A decision reaches a server once. -/
theorem eq_of_decision (hv : s.Votes) {x y : ClientCall} (hx : x ∈ s.calls) (hy : y ∈ s.calls)
    (hdst : x.dst = y.dst) (hreq : x.req = y.req) (hdec : x.req.isDecision = true) : x = y := by
  have honce := hv.once
  rw [requests, List.filter_map] at honce
  refine List.inj_on_of_nodup_map honce (List.mem_filter.mpr ⟨hx, hdec⟩) (List.mem_filter.mpr ⟨hy, ?_⟩) ?_
  · show y.req.isDecision = true
    rw [← hreq]
    exact hdec
  · rw [hdst, hreq]

/-- A leader that was asked to prepare a transaction that is committed has said yes, and has kept to it. -/
theorem pending_or_handled {i : Int} (h : s.Honors i) (hv : s.Votes) (ht : s.Tracked) {r : TransferReq}
    (hasked : (i, ClientReq.tpcPrepare r) ∈ s.requests) (hd : s.Decided r.tid true) :
    (s.net.servers i).ledger.wal.pendingEntry r.tid ≠ none ∨ s.Handled i r.tid true := by
  obtain ⟨y, hy, hpair⟩ := List.mem_map.mp hasked
  obtain ⟨hydst, hyreq⟩ := Prod.mk.inj hpair
  obtain ⟨k, hk⟩ := List.mem_iff_getElem?.mp hy
  obtain ⟨v, hvote, hyes⟩ := hv.polled _ true hd y hy (by rw [hyreq]; simp [ClientReq.prepares])
  obtain ⟨reply, hmem, hcall, hack⟩ := ht.votes k y v hk hvote
  rw [hydst] at hmem
  rw [← hcall] at hk
  refine (h.promised reply hmem (hack.trans (hyes rfl)) y r hk hyreq).imp_right ?_
  rintro ⟨b, z, hz, hzdst, hzreq, hzdel⟩
  have hb : b = true := hv.agreed r.tid b true ⟨z.dst, List.mem_map.mpr ⟨z, hz, by rw [hzreq]⟩⟩ hd
  exact hb ▸ ⟨z, hz, hzdst, hzreq, hzdel⟩

/-- A commit finds its transaction pending on the leader it reaches. -/
theorem pending_of_commit {i : Int} (h : s.Honors i) (hv : s.Votes) (ht : s.Tracked) (hrouted : s.Routed leaders)
    (hi : isLeader s.net.constants leaders i) {x : ClientCall} {t : Int} (hx : x ∈ s.calls)
    (hnot : x.delivered = false) (hdst : x.dst = i) (hreq : x.req = .tpcDecision t true) :
    0 < t ∧ (s.net.servers i).ledger.wal.pendingEntry t ≠ none := by
  have hrequest : (i, ClientReq.tpcDecision t true) ∈ s.requests := by
    rw [← hdst, ← hreq]
    exact List.mem_map.mpr ⟨x, hx, rfl⟩
  have hd : s.Decided t true := ⟨i, hrequest⟩
  obtain ⟨r, hr, rfl, haudience⟩ := hv.reaches t true hd
  have hcluster := (mem_broadcast.mp ((haudience i).mp hrequest)).2.1
  -- the transaction is a cross-shard one, so this leader was asked for its vote
  obtain ⟨j, r', hprepare, htid⟩ := hrouted.backed r.tid true hd
  obtain ⟨hr', hcross⟩ := hrouted.prepares j r' hprepare
  obtain rfl := hrouted.eq_of_tid hr' hr htid
  obtain ⟨hatSender, hatReceiver⟩ := hrouted.asked r' hr hcross
  have hasked : (i, ClientReq.tpcPrepare r') ∈ s.requests := by
    rcases hcluster with hk | hk
    · have hlead : leaderFor s.net.constants leaders r'.txn.sender = i := by
        rw [leaderFor, ← hk]
        exact hi.2
      rwa [hlead] at hatSender
    · have hlead : leaderFor s.net.constants leaders r'.txn.receiver = i := by
        rw [leaderFor, ← hk]
        exact hi.2
      rwa [hlead] at hatReceiver
  refine ⟨(hrouted.accounts r' hr).1, ?_⟩
  -- the decision is only coming in now
  rcases h.pending_or_handled hv ht hasked hd with hpending | ⟨z, hz, hzdst, hzreq, hzdel⟩
  · exact hpending
  · have heq := eq_of_decision hv hx hz (hdst.trans hzdst.symm) (hreq.trans hzreq.symm) (by rw [hreq]; rfl)
    rw [heq, hzdel] at hnot
    cases hnot

/-- An answered call was made before the step. -/
theorem old_call (ht : s.Tracked) {i : Int} {reply : TransferRes} (hmem : reply ∈ (s.net.servers i).replies)
    {x' : ClientCall} (hx' : (s.step ev).calls[reply.call]? = some x') :
    ∃ x, s.calls[reply.call]? = some x ∧ x'.req = x.req := by
  have hkey : reply.key ∈ (s.net.servers i).callKeys :=
    List.mem_append_left _ (List.mem_map.mpr ⟨reply, hmem, rfl⟩)
  obtain ⟨x, hx, -⟩ := ht.keys i _ hkey
  obtain ⟨x'', hx'', hlater⟩ := s.later_step ev hx
  have heq : x'' = x' := Option.some.inj (hx''.symm.trans hx')
  exact ⟨x, hx, heq ▸ hlater.req⟩

/-- A promise of before the step, if the transaction is still pending or has been decided. -/
theorem promised_step {i : Int} (h : s.Honors i) (ht : s.Tracked)
    (hpending : ∀ t, (s.net.servers i).ledger.wal.pendingEntry t ≠ none →
      ((s.step ev).net.servers i).ledger.wal.pendingEntry t ≠ none ∨ ∃ b, (s.step ev).Handled i t b)
    {reply : TransferRes} (hmem : reply ∈ (s.net.servers i).replies) (hack : reply.ack = true) {x' : ClientCall}
    {r : TransferReq} (hx' : (s.step ev).calls[reply.call]? = some x') (hreq : x'.req = .tpcPrepare r) :
    ((s.step ev).net.servers i).ledger.wal.pendingEntry r.tid ≠ none ∨ ∃ b, (s.step ev).Handled i r.tid b := by
  obtain ⟨x, hx, hsame⟩ := old_call ht hmem hx'
  rcases h.promised reply hmem hack x r hx (hsame ▸ hreq) with hold | ⟨b, hb⟩
  · exact hpending r.tid hold
  · exact .inr ⟨b, hb.step ev⟩

theorem step {i : Int} (h : s.Honors i) (hv : s.Votes) (ht : s.Tracked) (hwf : s.net.WellFormed)
    (hrouted : s.Routed leaders) (hi : isLeader s.net.constants leaders i) (hok : leadersStable leaders s ev) :
    (s.step ev).Honors i := by
  have hw := (hwf.sound i).wal
  have hlog : ∀ {e : Event}, (s.step ev).net.servers i = (s.net.servers i).handle e → ∀ t, s.committedOn i t →
      (s.step ev).committedOn i t := by
    intro e hserver t hcommitted
    unfold committedOn
    rw [hserver]
    exact committedTids_mono ((s.net.servers i).log_prefix_handle e).subset hcommitted
  cases leader_step hok hi with
  | idle hserver hhandled =>
    refine ⟨by rw [hserver]; exact h.connected, by rw [hserver]; exact h.pledges, ?_, ?_⟩
    · rw [hserver]
      intro reply hmem hack x r hx hreq
      have hstay := promised_step h ht (fun t hp => .inl (by rw [hserver]; exact hp)) hmem hack hx hreq
      rwa [hserver] at hstay
    · intro t hb
      unfold committedOn
      rw [hserver]
      exact h.applied t (hhandled t true hb)
  | own e hserver hquiet hnot hhandled =>
    refine ⟨?_, ?_, ?_, ?_⟩
    · rw [hserver]
      exact ServerImpl.handle_connected h.connected hquiet
    · rw [hserver]
      exact ServerImpl.handle_pledges hw hquiet h.pledges fun k b heq => absurd heq (hnot k b)
    · intro reply hmem hack x r hx hreq
      have hstay : ∀ t, (s.net.servers i).ledger.wal.pendingEntry t ≠ none →
          ((s.step ev).net.servers i).ledger.wal.pendingEntry t ≠ none := by
        intro t hp
        rw [hserver]
        exact ServerImpl.handle_pending hw hquiet hp fun b => hnot t b
      rw [hserver] at hmem
      rcases ServerImpl.handle_acked hmem hack with hold | ⟨-, hawait, b, hb, hcall⟩
      · exact promised_step h ht (fun t hp => .inl (hstay t hp)) hold hack hx hreq
      · -- a vote of this very quorum: its entry was pledged
        obtain ⟨y, hy, -, -, hentry⟩ := ht.parked i b (List.mem_append_left _ hb)
        obtain ⟨y', hy', hlater⟩ := s.later_step ev hy
        have heq : y' = x := Option.some.inj (hy'.symm.trans (hcall ▸ hx))
        have hof : ClientReq.tpcPrepare r = .ofEntry b := by
          rw [← (ClientReq.eq_of_entry hentry).2, ← hlater.req, heq, hreq]
        unfold ClientReq.ofEntry at hof
        split at hof
        · rename_i hcross
          cases hof
          exact .inl (hstay _ (h.pledges hawait b hb hcross))
        · cases hof
    · intro t hb
      exact hlog hserver t (h.applied t (hhandled t true hb))
  | decision k x t b hx hnot hdst hreq hserver hnow hhandled =>
    have hmem := List.mem_of_getElem? hx
    have hd : s.Decided t b := ⟨i, List.mem_map.mpr ⟨x, hmem, by rw [hdst, hreq]⟩⟩
    have hquiet : (s.net.servers i).quiet (.input (.tpcDecision t b)) = true := rfl
    refine ⟨?_, ?_, ?_, ?_⟩
    · rw [hserver]
      exact ServerImpl.handle_connected h.connected hquiet
    · rw [hserver]
      refine ServerImpl.handle_pledges hw hquiet h.pledges ?_
      intro t' b' heq e he hcross
      cases heq
      exact not_current_of_decided hv ht hd he hcross
    · intro reply hreply hack y r hy hyreq
      rw [hserver] at hreply
      rcases ServerImpl.handle_acked hreply hack with hold | ⟨hinput, -⟩
      · refine promised_step h ht ?_ hold hack hy hyreq
        intro t' hp
        by_cases heq : t' = t
        · subst heq
          exact .inr ⟨b, hnow⟩
        · left
          rw [hserver]
          refine ServerImpl.handle_pending hw hquiet hp ?_
          intro b' hb'
          cases hb'
          exact heq rfl
      · exact absurd rfl (hinput _)
    · intro t' hb
      rcases hhandled t' true hb with hold | ⟨rfl, rfl⟩
      · exact hlog hserver t' (h.applied t' hold)
      · obtain ⟨hpos, hpending⟩ := pending_of_commit h hv ht hrouted hi hmem hnot hdst hreq
        unfold committedOn
        rw [hserver]
        show t' ∈ committedTids (ServerImpl.processTpcDecision { s.net.servers i with outbox := [] } t' true).ledger.log
        rw [ServerImpl.processTpcDecision, if_neg (by simp [h.connected])]
        exact mem_committedTids_decision hw hpending (by omega)

theorem reach {c : Constants} (hr : Reach System.step (leadersStable leaders) (System.fresh c) s) {i : Int}
    (hi : isLeader c leaders i) : s.Honors i := by
  refine hr.invariant (motive := fun s => s.Honors i) (.fresh c i) ?_
  intro s ev hr h hok
  have hnet := net_reach hr
  have hfresh : ∀ s ev, leadersStable leaders s ev → s.freshTid ev := fun _ _ hok => freshTid_of_submitsTo hok.1
  refine h.step (votes_reach hfresh hr) (tracked_reach hr) (.reach hnet) (routed_reach (fun _ _ hok => hok.1) hr) ?_ hok
  rwa [Net.constants_reach hnet]

end Honors

/-! ## Nothing is lost on the way -/

/-- No `TpcCommit` is in flight. -/
def commitsDelivered (s : System) : Prop :=
  ∀ x ∈ s.calls, ∀ t, x.req = .tpcDecision t true → x.delivered = true

section Delivered

variable {c : Constants} (hleaders : LeaderPerCluster c leaders)
  (hr : Reach System.step (leadersStable leaders) (System.fresh c) s) (hall : s.commitsDelivered)
  {r : TransferReq} (hsub : r ∈ s.submitted)
include hleaders hr hall hsub

/-- A transaction that the client has decided to commit is committed on both leaders. -/
theorem committed_of_decided (hd : s.Decided r.tid true) {a : Int} (ha : a = r.txn.sender ∨ a = r.txn.receiver) :
    s.committedOn (leaderFor c leaders a) r.tid := by
  have hok : ∀ s ev, leadersStable leaders s ev → submitsTo leaders s ev := fun _ _ hok => hok.1
  have hconst := Net.constants_reach (net_reach hr)
  have hrouted := routed_reach hok hr
  have hv := votes_reach (fun _ _ hguard => freshTid_of_submitsTo (hok _ _ hguard)) hr
  obtain ⟨r', hr', htid, haudience⟩ := hv.reaches _ true hd
  obtain rfl := hrouted.eq_of_tid hr' hsub htid
  have hacc : isAccount c a := by
    have haccounts := (hrouted.accounts r' hsub).2
    rw [hconst] at haccounts
    rcases ha with rfl | rfl
    · exact haccounts.1
    · exact haccounts.2
  obtain ⟨hcluster, hleader⟩ := hleaders.leaderFor hacc
  have hrequest : (leaderFor c leaders a, ClientReq.tpcDecision r'.tid true) ∈ s.requests := by
    refine (haudience _).mpr (mem_broadcast.mpr ⟨hconst ▸ hleader.1, ?_, rfl⟩)
    rw [hconst]
    show getClusterIdFromServerId c (leaderFor c leaders a) = _ ∨
      getClusterIdFromServerId c (leaderFor c leaders a) = _
    rw [hcluster]
    exact ha.imp (congrArg _) (congrArg _)
  obtain ⟨x, hx, hpair⟩ := List.mem_map.mp hrequest
  obtain ⟨hdst, hreq⟩ := Prod.mk.inj hpair
  exact (Honors.reach hr hleader).applied _ ⟨x, hx, hdst, hreq, hall x hx _ hreq⟩

/-- A cross-shard transaction that is committed on one server is committed on both leaders. -/
theorem committed_on_leaders {i : Int} (h : s.committedOn i r.tid) (hcross : ¬ r.txn.inOneShard c) {a : Int}
    (ha : a = r.txn.sender ∨ a = r.txn.receiver) : s.committedOn (leaderFor c leaders a) r.tid := by
  have hok : ∀ s ev, leadersStable leaders s ev → submitsTo leaders s ev := fun _ _ hok => hok.1
  obtain ⟨e, he, hstatus, htid⟩ := mem_committedTids.mp h
  obtain ⟨hmem, hintra, hcommit⟩ := (((issued_reach hok hr).entries.ledgers i).log e he).1
  have heq : e.request = r := (routed_reach hok hr).eq_of_tid hmem hsub htid
  have htxn : e.txn = r.txn := by rw [← heq]; rfl
  refine committed_of_decided hleaders hr hall hsub ?_ ha
  cases htype : e.type with
  | intra =>
    have hone := hintra htype
    rw [htxn, Net.constants_reach (net_reach hr)] at hone
    exact absurd hone hcross
  | cross =>
    rw [← htid]
    exact hcommit htype hstatus

theorem committed_alike : s.committedOn (leaderFor c leaders r.txn.receiver) r.tid ↔
    s.committedOn (leaderFor c leaders r.txn.sender) r.tid := by
  by_cases hone : r.txn.inOneShard c
  · have hsame : leaderFor c leaders r.txn.receiver = leaderFor c leaders r.txn.sender := by
      unfold leaderFor
      rw [show getClusterIdFromClientId c r.txn.receiver = getClusterIdFromClientId c r.txn.sender from hone.symm]
    rw [hsame]
  · constructor
    · exact fun h => committed_on_leaders hleaders hr hall hsub h hone (.inl rfl)
    · exact fun h => committed_on_leaders hleaders hr hall hsub h hone (.inr rfl)

end Delivered

end System

/-- **Conservation of money.**  With stable leaders, the balances of the leaders' own shards sum up to 10 per
client, plus the amounts that are so far committed only at the receiver's leader, minus those committed only
at the sender's; and to 10 per client once no `TpcCommit` is in flight.  That is so in every state in which each
balance fits an `int`; and every one of the `total_clients` counts, provided that `id * num_clusters` does. -/
theorem money_conserved (c : Constants) (leaders : List Int) (hleaders : LeaderPerCluster c leaders) (s : System)
    (hr : Reach System.step (System.leadersStable leaders) (System.fresh c) s) (hfit : s.balancesFit leaders) :
    s.total leaders = 10 * (accounts c).card +
        s.committedOnlyAt leaders Transaction.receiver Transaction.sender -
        s.committedOnlyAt leaders Transaction.sender Transaction.receiver ∧
      (s.commitsDelivered → s.total leaders = 10 * (accounts c).card) ∧
      (0 < c.numClusters → totalClients * c.numClusters < 2 ^ 31 → ((accounts c).card : Int) = totalClients) := by
  have hnet := System.net_reach hr
  have hconst := Net.constants_reach hnet
  have hok : ∀ s ev, System.leadersStable leaders s ev → System.submitsTo leaders s ev := fun _ _ hok => hok.1
  have hbooks := System.total_eq (hconst.symm ▸ hleaders) (.reach hnet) (System.routed_reach hok hr)
    (System.issued_reach hok hr) hfit
  rw [hconst] at hbooks
  refine ⟨hbooks, ?_, card_accounts⟩
  intro hall
  have hnone : s.committedOnlyAt leaders Transaction.receiver Transaction.sender = 0 ∧
      s.committedOnlyAt leaders Transaction.sender Transaction.receiver = 0 := by
    unfold System.committedOnlyAt
    rw [hconst]
    refine ⟨?_, ?_⟩
    · rw [List.filter_eq_nil_iff.mpr, List.map_nil, List.sum_nil]
      intro r hsub
      rw [decide_eq_true_eq, System.committed_alike hleaders hr hall hsub]
      exact fun hboth => hboth.2 hboth.1
    · rw [List.filter_eq_nil_iff.mpr, List.map_nil, List.sum_nil]
      intro r hsub
      rw [decide_eq_true_eq, System.committed_alike hleaders hr hall hsub]
      exact fun hboth => hboth.2 hboth.1
  rw [hbooks, hnone.1, hnone.2, add_zero, sub_zero]

/-- Servers 1 and 4 lead clusters 1 and 2. -/
theorem leaderPerCluster_pair : LeaderPerCluster ⟨2, 3⟩ [1, 4] := by
  intro k hlow hhigh
  have hk : k = 1 ∨ k = 2 := by
    have hhigh : k ≤ 2 := hhigh
    omega
  rcases hk with rfl | rfl
  · decide +kernel
  · decide +kernel

/-- The transfer that both leaders have prepared is committed by the sender's leader; the `TpcCommit` to the
receiver's is still in flight. -/
def leftNotArrived : List SysEvent := preparedInBoth ++ [.complete 0, .complete 1, .deliver 2]

theorem money_conserved_leftNotArrived :
    (System.run ⟨2, 3⟩ leftNotArrived).total [1, 4] = 10 * (accounts ⟨2, 3⟩).card +
        (System.run ⟨2, 3⟩ leftNotArrived).committedOnlyAt [1, 4] Transaction.receiver Transaction.sender -
        (System.run ⟨2, 3⟩ leftNotArrived).committedOnlyAt [1, 4] Transaction.sender Transaction.receiver ∧
      (System.run ⟨2, 3⟩ leftNotArrived).committedOnlyAt [1, 4] Transaction.receiver Transaction.sender = 0 ∧
      (System.run ⟨2, 3⟩ leftNotArrived).committedOnlyAt [1, 4] Transaction.sender Transaction.receiver = 4 :=
  ⟨(money_conserved ⟨2, 3⟩ [1, 4] leaderPerCluster_pair _ (System.reach_run ⟨2, 3⟩ (by decide +kernel))
    (by decide +kernel)).1, by decide +kernel, by decide +kernel⟩

/-- A transfer of `INT_MIN` from account 1 to account 1501 is committed by all servers of both clusters. -/
def takenBeyondInt : List SysEvent :=
  .submit [1, 4] ⟨1, 1501, -2147483648⟩ 7 :: preparedInBoth.tail ++
    [.complete 0, .complete 1, .deliver 2, .deliver 3, .deliver 4, .deliver 5, .deliver 6, .deliver 7]

/-- Both balances wrap: 2^32 is lost. -/
theorem money_wraps :
    ¬ ∀ s : System, Reach System.step (System.leadersStable [1, 4]) (System.fresh ⟨2, 3⟩) s →
      s.commitsDelivered → s.total [1, 4] = 10 * (accounts ⟨2, 3⟩).card := by
  intro h
  have hall : ∀ x ∈ (System.run ⟨2, 3⟩ takenBeyondInt).calls, x.delivered = true := by decide +kernel
  have htotal := h (System.run ⟨2, 3⟩ takenBeyondInt) (System.reach_run ⟨2, 3⟩ (by decide +kernel))
    fun x hx _ _ => hall x hx
  revert htotal
  decide +kernel

end MultiPaxosDB
