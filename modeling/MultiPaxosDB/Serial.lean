/-
# MultiPaxosDB.Serial — the deployment is one bank.

`Lib.Bank` is what the store is for: one table of balances, and payments made one at a time.  With stable
leaders the sharded store is a faithful implementation of it.  The transactions that have taken effect (an
intra-shard one when its leader commits it, a cross-shard one when the client decides it) can be put in one order
in which the bank could have made them, from 10 on every account (`System.Serialized`).  The order is fixed as the
deployment goes: a step only appends to it, so a transaction that took effect before another was handed in comes
before it.

The argument is the locks.  A transaction that takes effect holds its accounts at that moment (`ServerImpl.Holds`),
and so does every decided transaction that is not applied yet.  Holders share no account, so the leader's balance
of the sender is up to date, and it covers the amount.  As no amount is negative, the bank never has more on an
account than all the clients had at the start, so its balances fit the `int` of a server.
-/
import MultiPaxosDB.Applications
import MultiPaxosDB.LeaderBooks
import MultiPaxosDB.Lib.Bank

namespace MultiPaxosDB

open Lib Payment

/-- What a transaction asks of the bank. -/
def Transaction.payment (txn : Transaction) : Payment Int Int := ⟨txn.sender, txn.receiver, txn.amount⟩

/-- The bank at the start. -/
def openingBalance (c : Constants) (a : Int) : Int := if isAccount c a then 10 else 0

/-- The amount handed in is not negative.  (The wire carries any `int32`.) -/
def SysEvent.nonneg : SysEvent → Prop
  | .submit _ t _ => 0 ≤ t.amount
  | _ => True

instance : (ev : SysEvent) → Decidable ev.nonneg
  | .submit _ t _ => inferInstanceAs (Decidable (0 ≤ t.amount))
  | .deliver _ | .complete _ | .fail _ | .server _ => .isTrue trivial

/-- All of the bank is less than an `int` can hold. -/
theorem sum_openingBalance (c : Constants) : ∑ a ∈ accounts c, openingBalance c a < 2 ^ 31 := by
  have hten : ∀ a ∈ accounts c, openingBalance c a = 10 := fun a ha => if_pos (mem_accounts.mp ha)
  have hcard : (accounts c).card ≤ (idsUpTo totalClients).card := Finset.card_filter_le _ _
  rw [card_idsUpTo] at hcard
  rw [Finset.sum_congr rfl hten, Finset.sum_const, nsmul_eq_mul]
  have hclients : totalClients.toNat = 3000 := rfl
  omega

/-- One shard, one leader. -/
theorem leaderFor_of_inOneShard {c : Constants} {leaders : List Int} {txn : Transaction} (hone : txn.inOneShard c)
    {a : Int} (ha : txn.payment.Touches a) : leaderFor c leaders a = leaderFor c leaders txn.sender := by
  rcases ha with rfl | rfl
  · rfl
  · exact congrArg (Client.leaderOf leaders) hone.symm

/-! ## Who holds an account -/

namespace ServerImpl

variable {s : ServerImpl} {e : Event}

/-- The server keeps the accounts of the transaction locked: it is in the batch whose accept decision is open, or
it is prepared. -/
def Holds (s : ServerImpl) (r : TransferReq) : Prop :=
  (s.awaitAcceptDecision = true ∧ ∃ b ∈ s.current, b.isCrossShard = false ∧ b.request = r) ∨
    ∃ x ∈ s.ledger.wal.undecided, x.request = r

theorem Accounted.holds_unique {Q : Int → Prop} {tids : List Int} (h : s.Accounted Q tids) {r r' : TransferReq} (hr : s.Holds r)
    (hr' : s.Holds r') {a : Int} (ha : r.txn.payment.Touches a) (ha' : r'.txn.payment.Touches a)
    (hin : s.ledger.isClientInCluster a = true) : r = r' := by
  have hapart := h.exactLocks.apart
  unfold holders at hapart
  obtain ⟨hround, hpending, hacross⟩ := List.pairwise_append.mp hapart
  have hboth : ∀ {txn : Transaction}, txn.payment.Touches a → a ∈ txn.holderBoth.accounts := by
    intro txn htouch
    rcases htouch with rfl | rfl
    · exact Finset.mem_insert_self _ _
    · exact Finset.mem_insert_of_mem (Finset.mem_singleton_self _)
  have hshard : ∀ {txn : Transaction}, txn.payment.Touches a → a ∈ (s.ledger.inShard txn).toFinset := fun htouch =>
    List.mem_toFinset.mpr (Ledger.mem_inShard.mpr ⟨htouch, hin⟩)
  -- a transaction of the round and a prepared one are different holders
  have hnot : ∀ {b : BatchEntry} {x : WALEntry}, s.awaitAcceptDecision = true → b ∈ s.current →
      b.isCrossShard = false → x ∈ s.ledger.wal.undecided → b.request.txn.payment.Touches a →
      x.request.txn.payment.Touches a → False := by
    intro b x hawait hb hintra hx hab hax
    have hmem : b.request.txn.holderBoth ∈ s.roundHolders := by
      rw [roundHolders_of_await hawait]
      exact List.mem_map.mpr ⟨b, List.mem_filter.mpr ⟨hb, by rw [hintra]; rfl⟩, rfl⟩
    exact Finset.disjoint_left.mp (hacross _ hmem _ (List.mem_map.mpr ⟨x, hx, rfl⟩)) (hboth hab) (hshard hax)
  rcases hr with ⟨hawait, b, hb, hintra, rfl⟩ | ⟨x, hx, rfl⟩
  · rcases hr' with ⟨-, b', hb', hintra', rfl⟩ | ⟨x', hx', rfl⟩
    · rw [roundHolders_of_await hawait] at hround
      have heq : b = b' := eq_of_shared hround (List.mem_filter.mpr ⟨hb, by rw [hintra]; rfl⟩)
        (List.mem_filter.mpr ⟨hb', by rw [hintra']; rfl⟩) (hboth ha) (hboth ha')
      rw [heq]
    · exact (hnot hawait hb hintra hx' ha ha').elim
  · rcases hr' with ⟨hawait, b', hb', hintra', rfl⟩ | ⟨x', hx', rfl⟩
    · exact (hnot hawait hb' hintra' hx ha' ha).elim
    · rw [eq_of_shared hpending hx hx' (hshard ha) (hshard ha')]

/-- What a holder takes from an account of the shard is there. -/
theorem Accounted.holds_covered {Q : Int → Prop} {tids : List Int} (h : s.Accounted Q tids) {r : TransferReq}
    (hr : s.Holds r) (hin : s.ledger.isClientInCluster r.txn.sender = true) :
    r.txn.amount ≤ (s.ledger.balances r.txn.sender).toInt := by
  rcases hr with ⟨hawait, b, hb, hintra, rfl⟩ | ⟨x, hx, rfl⟩
  · exact h.exactLocks.leading hawait b hb hintra
  · exact h.exactLocks.prepared x hx hin

/-- **What a stable leader commits**: a transaction the client decides, or one of the batch whose accept quorum is
reached. -/
theorem committed_own (hw : s.ledger.wal.Ok) (hown : e.own = true) {t : Int}
    (ht : t ∈ committedTids (s.handle e).ledger.log) :
    t ∈ committedTids s.ledger.log ∨ e = .input (.tpcDecision t true) ∨
      (∃ status request response, e = .acceptReply status request response) ∧ s.awaitAcceptDecision = true ∧
        ∃ b ∈ s.current, b.isCrossShard = false ∧ b.request.tid = t := by
  rw [(handle_applies hw e).log] at ht
  obtain ⟨x, hx, hstatus, rfl⟩ := mem_committedTids.mp ht
  rcases List.mem_append.mp hx with hold | hnew
  · exact .inl (mem_committedTids.mpr ⟨x, hold, hstatus, rfl⟩)
  · right
    obtain ⟨o, l, hdoes, hlw, hentry⟩ := mem_newEntries hw hnew
    have hcommits := LedgerOp.mem_committing hlw hentry hstatus
    cases hdoes with
    | accepted | committed | synced => cases hown
    | ledPrepare | swept => exact absurd hcommits List.not_mem_nil
    | ledCommit hawait hb hintra => exact .inr ⟨⟨_, _, _, rfl⟩, hawait, _, hb, hintra, (List.mem_singleton.mp hcommits).symm⟩
    | decided tid isCommit =>
      cases isCommit with
      | false => exact absurd hcommits List.not_mem_nil
      | true => exact .inl (by rw [List.mem_singleton.mp hcommits])

end ServerImpl

namespace System

variable {s : System} {ev : SysEvent} {leaders : List Int}

/-- The steps of a deployment with stable leaders to which no negative amount is handed in. -/
def payingStep (leaders : List Int) (s : System) (ev : SysEvent) : Prop := leadersStable leaders s ev ∧ ev.nonneg

instance (leaders : List Int) (s : System) (ev : SysEvent) : Decidable (payingStep leaders s ev) :=
  inferInstanceAs (Decidable (_ ∧ _))

/-- The transaction has taken effect: its leader has committed it, or the client has decided to. -/
def Settled (leaders : List Int) (s : System) (r : TransferReq) : Prop :=
  if r.txn.inOneShard s.net.constants then s.committedOn (leaderFor s.net.constants leaders r.txn.sender) r.tid
  else s.Decided r.tid true

/-- **The deployment as a bank.**  `history` is an order of the transactions that have taken effect in which the
bank could have made them, and `b` is where that takes it. -/
structure Serialized (leaders : List Int) (s : System) (history : List TransferReq) (b : Int → Int) : Prop where
  nodup : history.Nodup
  settled : ∀ r, r ∈ history ↔ r ∈ s.submitted ∧ s.Settled leaders r
  replays : replay (history.map fun r => r.txn.payment) (openingBalance s.net.constants) = some b

section Reached

variable {c : Constants} (hleaders : LeaderPerCluster c leaders)
  (hr : Reach System.step (leadersStable leaders) (System.fresh c) s)
include hleaders hr

/-! ## Decided and not applied -/

/-- The leader of an account has it in its shard. -/
theorem inShard_leaderFor {a : Int} (ha : isAccount c a) :
    (s.net.servers (leaderFor c leaders a)).ledger.isClientInCluster a = true := by
  have hnet := net_reach hr
  obtain ⟨hconst, hid⟩ := (Net.WellFormed.reach hnet).shard (leaderFor c leaders a)
  rw [Ledger.isClientInCluster, hconst, hid, Net.constants_reach hnet, (hleaders.leaderFor ha).1, isClientInCluster,
    beq_self_eq_true]

/-- An account of a transaction of the client is led by its leader, in its shard. -/
theorem account_led {r : TransferReq} (hsub : r ∈ s.submitted) {a : Int} (ha : r.txn.payment.Touches a) :
    isAccount c a ∧ isLeader c leaders (leaderFor c leaders a) ∧
      (s.net.servers (leaderFor c leaders a)).ledger.isClientInCluster a = true := by
  have haccounts := ((routed_stable hr).accounts r hsub).2
  rw [Net.constants_reach (net_reach hr)] at haccounts
  have hacc : isAccount c a := by
    rcases ha with rfl | rfl
    · exact haccounts.1
    · exact haccounts.2
  exact ⟨hacc, (hleaders.leaderFor hacc).2, inShard_leaderFor hleaders hr hacc⟩

omit hleaders in
/-- A cross-shard transaction is committed somewhere only after the client has decided so. -/
theorem decided_of_committed {r : TransferReq} (hsub : r ∈ s.submitted) (htwo : ¬ r.txn.inOneShard c) {i : Int}
    (h : s.committedOn i r.tid) : s.Decided r.tid true := by
  obtain ⟨x, hx, hstatus, htid⟩ := mem_committedTids.mp h
  obtain ⟨hmem, hintra, hcommit⟩ := (((issued_stable hr).entries.ledgers i).log x hx).1
  have heq : x.request = r := (routed_stable hr).eq_of_tid hmem hsub htid
  cases htype : x.type with
  | cross => exact htid ▸ hcommit htype hstatus
  | intra =>
    have hone := hintra htype
    rw [Net.constants_reach (net_reach hr), show x.txn = r.txn from congrArg TransferReq.txn heq] at hone
    exact absurd hone htwo

/-- A decided transaction that the leader of an account has not applied is prepared there. -/
theorem holds_of_decided {r : TransferReq} (hsub : r ∈ s.submitted) (htwo : ¬ r.txn.inOneShard c)
    (hd : s.Decided r.tid true) {a : Int} (ha : r.txn.payment.Touches a)
    (hnot : ¬ s.committedOn (leaderFor c leaders a) r.tid) : (s.net.servers (leaderFor c leaders a)).Holds r := by
  have hconst := Net.constants_reach (net_reach hr)
  have hrouted := routed_stable hr
  have hv := votes_stable hr
  have hhonors := Honors.reach hr (account_led hleaders hr hsub ha).2.1
  -- the leader was asked for its vote
  have hasked : (leaderFor c leaders a, ClientReq.tpcPrepare r) ∈ s.requests := by
    obtain ⟨hatSender, hatReceiver⟩ := hrouted.asked r hsub (by rw [hconst]; exact htwo)
    rw [hconst] at hatSender hatReceiver
    rcases ha with rfl | rfl
    · exact hatSender
    · exact hatReceiver
  rcases hhonors.pending_or_handled hv (tracked_reach hr) hasked hd with hpending | hhandled
  · obtain ⟨x, hx⟩ := Option.ne_none_iff_exists'.mp hpending
    refine .inr ⟨x, WAL.mem_undecided.mpr ⟨_, hx⟩, ?_⟩
    have hledger := (issued_stable hr).entries.ledgers (leaderFor c leaders a)
    exact hrouted.eq_of_tid (hledger.pending _ x hx).1 hsub (hledger.wal.pendingEntry_spec hx).1
  · -- had the decision been handled, it would have been applied
    exact absurd (hhonors.applied r.tid hhandled) hnot

/-! ## The balances -/

/-- A transaction of a history that touches an account has been committed by the leader of that account, or holds
it. -/
theorem committed_or_holds {history : List TransferReq} {b : Int → Int}
    (h : s.Serialized leaders history b) {r : TransferReq} (hmem : r ∈ history) {a : Int}
    (ha : r.txn.payment.Touches a) :
    s.committedOn (leaderFor c leaders a) r.tid ∨ (s.net.servers (leaderFor c leaders a)).Holds r := by
  obtain ⟨hsub, hsettled⟩ := (h.settled r).mp hmem
  rw [Settled, Net.constants_reach (net_reach hr)] at hsettled
  split at hsettled
  · rename_i hone
    left
    rw [leaderFor_of_inOneShard hone ha]
    exact hsettled
  · rename_i htwo
    by_cases hcommitted : s.committedOn (leaderFor c leaders a) r.tid
    · exact .inl hcommitted
    · exact .inr (holds_of_decided hleaders hr hsub htwo hsettled ha hcommitted)

/-- **Where the leader of an account is up to date, it agrees with the bank** on what the account is worth. -/
theorem Serialized.worth {history : List TransferReq} {b : Int → Int} (h : s.Serialized leaders history b) {a : Int}
    (ha : isAccount c a)
    (hall : ∀ r ∈ history, r.txn.payment.Touches a → s.committedOn (leaderFor c leaders a) r.tid) :
    (s.net.servers (leaderFor c leaders a)).ledger.worth a = b a := by
  have hnet := net_reach hr
  have hconst := Net.constants_reach hnet
  have hrouted := routed_stable hr
  have hsub : ∀ r ∈ history, r ∈ s.submitted := fun r hmem => ((h.settled r).mp hmem).1
  have hkeys : (history.map TransferReq.tid).Nodup :=
    h.nodup.map_on fun r hmem r' hmem' htid => hrouted.eq_of_tid (hsub r hmem) (hsub r' hmem') htid
  have hreplays := h.replays
  rw [hconst] at hreplays
  have hworth := (worth_eq (hconst ▸ hleaders) (.reach hnet) hrouted (issued_stable hr) (hconst ▸ ha)).2
  rw [hconst] at hworth
  rw [hworth, replay_eq_some hreplays, openingBalance, if_pos ha, List.map_map]
  show _ = 10 + (history.map fun r => r.txn.effect a).sum
  rw [sum_map_of_subset_keys TransferReq.tid hrouted.tids hkeys hsub]
  congr 2
  refine List.map_congr_left ?_
  intro r hr'
  -- a transaction that touches the account is in the history iff the leader has committed it
  by_cases htouch : r.txn.payment.Touches a
  · have hiff : s.committedOn (leaderFor c leaders a) r.tid ↔ r.tid ∈ history.map TransferReq.tid := by
      constructor
      · intro hcommitted
        refine List.mem_map.mpr ⟨r, (h.settled r).mpr ⟨hr', ?_⟩, rfl⟩
        rw [Settled, hconst]
        split
        · rename_i hone
          rw [← leaderFor_of_inOneShard hone htouch]
          exact hcommitted
        · rename_i htwo
          exact decided_of_committed hr hr' htwo hcommitted
      · intro hmem
        obtain ⟨r', hmem', htid⟩ := List.mem_map.mp hmem
        obtain rfl := hrouted.eq_of_tid (hsub r' hmem') hr' htid
        exact hall r' hmem' htouch
    exact if_congr hiff rfl rfl
  · have hzero : r.txn.effect a = 0 := effect_of_not_touches htouch
    rw [hzero, ite_self, ite_self]

/-- The balance of such a leader does not wrap, as the bank has no more on an account than it had in all. -/
theorem Serialized.balance (hpays : ∀ r ∈ s.submitted, 0 ≤ r.txn.amount) {history : List TransferReq} {b : Int → Int}
    (h : s.Serialized leaders history b) {a : Int} (ha : isAccount c a)
    (hall : ∀ r ∈ history, r.txn.payment.Touches a → s.committedOn (leaderFor c leaders a) r.tid) :
    ((s.net.servers (leaderFor c leaders a)).ledger.balances a).toInt = b a := by
  have hnet := net_reach hr
  have hreplays := h.replays
  rw [Net.constants_reach hnet] at hreplays
  have hpayments : ∀ p ∈ history.map fun r => r.txn.payment, ∃ r ∈ s.submitted, p = r.txn.payment := by
    intro p hp
    obtain ⟨r, hmem, rfl⟩ := List.mem_map.mp hp
    exact ⟨r, ((h.settled r).mp hmem).1, rfl⟩
  have hinside : ∀ p ∈ history.map fun r => r.txn.payment, p.source ∈ accounts c ∧ p.target ∈ accounts c := by
    intro p hp
    obtain ⟨r, hsub, rfl⟩ := hpayments p hp
    exact ⟨mem_accounts.mpr (account_led hleaders hr hsub (.inl rfl)).1,
      mem_accounts.mpr (account_led hleaders hr hsub (.inr rfl)).1⟩
  have hamounts : ∀ p ∈ history.map fun r => r.txn.payment, 0 ≤ p.amount := by
    intro p hp
    obtain ⟨r, hsub, rfl⟩ := hpayments p hp
    exact hpays r hsub
  have hopening : ∀ a ∈ accounts c, 0 ≤ openingBalance c a := by
    intro a _
    unfold openingBalance
    split <;> omega
  obtain ⟨hlow, hhigh⟩ := replay_bounds hreplays hinside hamounts hopening (mem_accounts.mpr ha)
  have hfits := hhigh.trans_lt (sum_openingBalance c)
  rw [((Net.WellFormed.reach hnet).sound _).toInt_balance (inShard_leaderFor hleaders hr ha),
    h.worth hleaders hr ha hall, int32_eq_self (by omega) hfits]

/-- **A holder is covered by the bank**, unless the bank has made its payment already. -/
theorem Serialized.covered (hpays : ∀ r ∈ s.submitted, 0 ≤ r.txn.amount) {history : List TransferReq} {b : Int → Int}
    (h : s.Serialized leaders history b) {r : TransferReq} (hsub : r ∈ s.submitted) (hnot : r ∉ history)
    (hholds : (s.net.servers (leaderFor c leaders r.txn.sender)).Holds r) : r.txn.amount ≤ b r.txn.sender := by
  obtain ⟨hacc, hleader, hin⟩ := account_led hleaders hr hsub (.inl rfl : r.txn.payment.Touches r.txn.sender)
  have haccounted := accounted_reach hleaders hr hleader
  rw [← h.balance hleaders hr hpays hacc]
  · exact haccounted.holds_covered hholds hin
  · intro r' hmem htouch
    rcases committed_or_holds hleaders hr h hmem htouch with hcommitted | hholds'
    · exact hcommitted
    · have heq := haccounted.holds_unique hholds hholds' (.inl rfl) htouch hin
      exact absurd (heq ▸ hmem) hnot

/-! ## One step -/

omit hleaders in
/-- What has taken effect was handed in before the step. -/
theorem submitted_of_settled (hok : leadersStable leaders s ev) {r : TransferReq} (hsub : r ∈ (s.step ev).submitted)
    (h : (s.step ev).Settled leaders r) : r ∈ s.submitted := by
  rcases s.requests_step ev with ⟨leaders', t, tid, rfl, heq, -⟩ | ⟨-, heq, -⟩
  · rw [heq] at hsub
    rcases List.mem_append.mp hsub with hold | hlast
    · exact hold
    · exfalso
      rw [List.mem_singleton.mp hlast] at h
      apply hok.1.2.2.1
      have hv := votes_stable hr
      unfold Settled at h
      split at h
      · obtain ⟨x, hx, -, htid⟩ := mem_committedTids.mp h
        have hmem := (((issued_stable hr).entries.ledgers _).log x hx).1.1
        exact List.mem_map.mpr ⟨_, hmem, htid⟩
      · rcases decided_step hv (tracked_reach hr) h with ⟨i, hd⟩ | ⟨k, x, request, reply, hev, -⟩
        · exact hv.known _ hd
        · cases hev
  · exact heq ▸ hsub

theorem Settled.step (hok : leadersStable leaders s ev) {r : TransferReq} (hsub : r ∈ s.submitted)
    (h : s.Settled leaders r) : (s.step ev).Settled leaders r := by
  have hconst := Net.constants_reach (net_reach hr)
  unfold Settled at h ⊢
  rw [constants_step]
  split at h
  · rename_i hone
    rw [if_pos hone]
    rw [hconst] at h ⊢
    have hleader := (account_led hleaders hr hsub (.inl rfl : r.txn.payment.Touches r.txn.sender)).2.1
    rw [← hconst] at hleader
    unfold committedOn at h ⊢
    rcases leader_event hok hleader with hsame | ⟨e, hserver, -⟩
    · rw [hconst] at hsame
      rw [hsame]
      exact h
    · rw [hconst] at hserver
      rw [hserver]
      exact committedTids_mono ((s.net.servers _).log_prefix_handle e).subset h
  · rename_i htwo
    rw [if_neg htwo]
    exact Decided.step h ev

/-- **A transaction that takes effect in a step holds its accounts before it.** -/
theorem holds_of_settles (hok : leadersStable leaders s ev) {r : TransferReq} (hsub : r ∈ s.submitted)
    (hnow : (s.step ev).Settled leaders r) (hnot : ¬ s.Settled leaders r) {a : Int} (ha : r.txn.payment.Touches a) :
    (s.net.servers (leaderFor c leaders a)).Holds r := by
  have hnet := net_reach hr
  have hconst := Net.constants_reach hnet
  have hrouted := routed_stable hr
  have hv := votes_stable hr
  unfold Settled at hnow hnot
  rw [constants_step, hconst] at hnow
  rw [hconst] at hnot
  split at hnow
  · -- inside a shard: its leader commits it with the batch in flight
    rename_i hone
    rw [if_pos hone] at hnot
    rw [leaderFor_of_inOneShard hone ha]
    have hleader := (account_led hleaders hr hsub (.inl rfl : r.txn.payment.Touches r.txn.sender)).2.1
    rw [← hconst] at hleader
    unfold committedOn at hnow hnot
    rcases leader_event hok hleader with hsame | ⟨e, hserver, hquiet, -, hdecides⟩
    · rw [hconst] at hsame
      rw [hsame] at hnow
      exact absurd hnow hnot
    · rw [hconst] at hserver hquiet
      rw [hserver] at hnow
      rcases ServerImpl.committed_own ((Net.WellFormed.reach hnet).sound _).wal (ServerImpl.quiet.own hquiet) hnow with
        hold | rfl | ⟨-, hawait, b, hb, hintra, htid⟩
      · exact absurd hold hnot
      · -- a decision is about a transaction between shards
        obtain ⟨i, r', hprepare, htid⟩ := hrouted.backed _ _ (hdecides _ _ rfl)
        obtain ⟨hsub', htwo⟩ := hrouted.prepares i r' hprepare
        obtain rfl := hrouted.eq_of_tid hsub' hsub htid
        rw [hconst] at htwo
        exact absurd hone htwo
      · have hcarried := (((issued_stable hr).carries.servers _).current b hb).1
        exact .inl ⟨hawait, b, hb, hintra, hrouted.eq_of_tid hcarried hsub htid⟩
  · -- between shards: the client decides, and the servers do nothing
    rename_i htwo
    rw [if_neg htwo] at hnot
    have hsame : (s.step ev).net = s.net := by
      rcases decided_step hv (tracked_reach hr) hnow with hold | ⟨k, x, request, reply, rfl, -⟩
      · exact absurd hold hnot
      · generalize hs' : s.step (.complete k) = s'
        cases moves_of_step hs' with
        | idle | vote | close => rfl
    have hholds := holds_of_decided hleaders (hr.step hok) (s.submitted_subset ev hsub) htwo hnow ha ?_
    · rwa [hsame] at hholds
    · unfold committedOn
      rw [hsame]
      exact fun hcommitted => hnot (decided_of_committed hr hsub htwo hcommitted)

/-- **The step rule.**  The bank makes the payments of the transactions that take effect in the step. -/
theorem Serialized.step (hok : leadersStable leaders s ev) (hpays : ∀ r ∈ s.submitted, 0 ≤ r.txn.amount)
    {history : List TransferReq} {b : Int → Int}
    (h : s.Serialized leaders history b) : ∃ more b', (s.step ev).Serialized leaders (history ++ more) b' := by
  classical
  have hconst := Net.constants_reach (net_reach hr)
  have hrouted := routed_stable hr
  -- in any order: they are between different accounts
  let more := s.submitted.filter fun r => decide ((s.step ev).Settled leaders r ∧ ¬ s.Settled leaders r)
  have hmore : ∀ r, r ∈ more ↔ r ∈ s.submitted ∧ (s.step ev).Settled leaders r ∧ ¬ s.Settled leaders r := by
    intro r
    rw [List.mem_filter, decide_eq_true_eq]
  have hnodup : more.Nodup := hrouted.tids.of_map.filter _
  have hfresh : ∀ r ∈ more, r ∉ history := fun r hmem hold =>
    ((hmore r).mp hmem).2.2 ((h.settled r).mp hold).2
  have hholds : ∀ r ∈ more, ∀ a, r.txn.payment.Touches a → (s.net.servers (leaderFor c leaders a)).Holds r := by
    intro r hmem a ha
    obtain ⟨hsub, hnow, hnot⟩ := (hmore r).mp hmem
    exact holds_of_settles hleaders hr hok hsub hnow hnot ha
  obtain ⟨b', hb'⟩ : ∃ b', replay (more.map fun r => r.txn.payment) b = some b' := by
    apply exists_replay_of_apart
    · refine List.pairwise_map.mpr (hnodup.pairwise_of_forall_ne ?_)
      intro r hmem r' hmem' hne a ha ha'
      obtain ⟨-, hleader, hin⟩ := account_led hleaders hr ((hmore r).mp hmem).1 ha
      exact hne ((accounted_reach hleaders hr hleader).holds_unique (hholds r hmem a ha) (hholds r' hmem' a ha')
        ha ha' hin)
    · intro p hp
      obtain ⟨r, hmem, rfl⟩ := List.mem_map.mp hp
      exact h.covered hleaders hr hpays ((hmore r).mp hmem).1 (hfresh r hmem) (hholds r hmem _ (.inl rfl))
  refine ⟨more, b', ⟨?_, ?_, ?_⟩⟩
  · refine List.nodup_append.mpr ⟨h.nodup, hnodup, ?_⟩
    rintro r hold _ hmem rfl
    exact hfresh r hmem hold
  · intro r
    rw [List.mem_append, h.settled, hmore]
    constructor
    · rintro (⟨hsub, hold⟩ | ⟨hsub, hnow, -⟩)
      · exact ⟨s.submitted_subset ev hsub, hold.step hleaders hr hok hsub⟩
      · exact ⟨s.submitted_subset ev hsub, hnow⟩
    · rintro ⟨hsub, hnow⟩
      have hbefore := submitted_of_settled hr hok hsub hnow
      by_cases hold : s.Settled leaders r
      · exact .inl ⟨hbefore, hold⟩
      · exact .inr ⟨hbefore, hnow, hold⟩
  · rw [constants_step, List.map_append, replay_append, h.replays]
    exact hb'

/-- Once no `TpcCommit` is in flight the leaders are up to date. -/
theorem Serialized.committed (hall : s.commitsDelivered) {history : List TransferReq} {b : Int → Int}
    (h : s.Serialized leaders history b) {r : TransferReq} (hmem : r ∈ history) {a : Int}
    (ha : r.txn.payment.Touches a) : s.committedOn (leaderFor c leaders a) r.tid := by
  have hconst := Net.constants_reach (net_reach hr)
  obtain ⟨hsub, hsettled⟩ := (h.settled r).mp hmem
  rw [Settled, hconst] at hsettled
  split at hsettled
  · rename_i hone
    rw [leaderFor_of_inOneShard hone ha]
    exact hsettled
  · exact committed_of_decided hleaders hr hall hsub hsettled ha

end Reached

/-- What is handed in to such a deployment has no negative amount. -/
theorem amounts_reach {c : Constants} (hr : Reach System.step (payingStep leaders) (System.fresh c) s) :
    ∀ r ∈ s.submitted, 0 ≤ r.txn.amount := by
  refine hr.invariant (motive := fun s => ∀ r ∈ s.submitted, 0 ≤ r.txn.amount)
    (fun _ hr => absurd hr List.not_mem_nil) ?_
  intro s ev _ h hok r hsub
  rcases s.requests_step ev with ⟨leaders', t, tid, rfl, heq, -⟩ | ⟨-, heq, -⟩
  · rw [heq] at hsub
    rcases List.mem_append.mp hsub with hold | hlast
    · exact h r hold
    · rw [List.mem_singleton.mp hlast]
      exact hok.2
  · exact h r (heq ▸ hsub)

end System

/-- **Strict serializability.**  Let a deployment with stable leaders go through any events, with no negative amount
handed in.  One history grows with the whole run, such that at each point of it the transactions that have taken
effect, in the order of the history, are payments that a bank with 10 on every account can make one after the
other.  The leader of an account that has committed all of those that touch it has the balance that the bank
has, and once no `TpcCommit` is in flight that is every leader. -/
theorem deployment_serializable (c : Constants) (leaders : List Int) (hleaders : LeaderPerCluster c leaders)
    (es : List SysEvent) (hrun : okRun System.step (System.payingStep leaders) (System.fresh c) es) :
    ∃ history : ℕ → List TransferReq, (∀ m n, m ≤ n → history m <+: history n) ∧
      ∀ n, ∃ b, (System.run c (es.take n)).Serialized leaders (history n) b ∧
        (∀ a, isAccount c a →
          (∀ r ∈ history n, r.txn.payment.Touches a →
            (System.run c (es.take n)).committedOn (leaderFor c leaders a) r.tid) →
          (((System.run c (es.take n)).net.servers (leaderFor c leaders a)).ledger.balances a).toInt = b a) ∧
        ((System.run c (es.take n)).commitsDelivered → ∀ a, isAccount c a →
          (((System.run c (es.take n)).net.servers (leaderFor c leaders a)).ledger.balances a).toInt = b a) := by
  have hstart : ∃ b, (System.fresh c).Serialized leaders [] b := by
    refine ⟨_, List.nodup_nil, ?_, rfl⟩
    intro r
    exact ⟨fun hmem => absurd hmem List.not_mem_nil, fun h => absurd h.1 List.not_mem_nil⟩
  obtain ⟨history, hgrows, hfits⟩ := hrun.histories (R := fun s h => ∃ b, s.Serialized leaders h b) hstart
    fun s ev h hr hR hok => by
      obtain ⟨b, hb⟩ := hR
      exact hb.step hleaders (hr.mono fun _ _ hok => hok.1) hok.1 (System.amounts_reach hr)
  refine ⟨history, hgrows, ?_⟩
  intro n
  obtain ⟨b, hb⟩ := hfits n
  have hprefix : okRun System.step (System.payingStep leaders) (System.fresh c) (es.take n) := by
    rw [← List.take_append_drop n es, okRun_append] at hrun
    exact hrun.1
  have hpays := System.amounts_reach (System.reach_run c hprefix)
  have hr := (System.reach_run c hprefix).mono fun _ _ hok => hok.1
  refine ⟨b, hb, fun a ha hall => hb.balance hleaders hr hpays ha hall, ?_⟩
  intro hdelivered a ha
  exact hb.balance hleaders hr hpays ha fun r hmem htouch => hb.committed hleaders hr hdelivered hmem htouch

theorem deployment_serializable_leftNotArrived :
    okRun System.step (System.payingStep [1, 4]) (System.fresh ⟨2, 3⟩) leftNotArrived ∧
      ∃ history : ℕ → List TransferReq, (∀ m n, m ≤ n → history m <+: history n) ∧
        ∀ n, ∃ b, (System.run ⟨2, 3⟩ (leftNotArrived.take n)).Serialized [1, 4] (history n) b := by
  have hrun : okRun System.step (System.payingStep [1, 4]) (System.fresh ⟨2, 3⟩) leftNotArrived := by decide +kernel
  obtain ⟨history, hgrows, hfits⟩ := deployment_serializable ⟨2, 3⟩ [1, 4] leaderPerCluster_pair leftNotArrived hrun
  exact ⟨hrun, history, hgrows, fun n => (hfits n).imp fun b hb => hb.1⟩

end MultiPaxosDB
