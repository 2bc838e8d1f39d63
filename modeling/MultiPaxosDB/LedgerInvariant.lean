/-
# MultiPaxosDB.LedgerInvariant — the log determines the money.

The abstract meaning of a log is a function of the log alone: the tids it commits
(`committedTids`), the first committed entry of each tid (`firstCommits`), and the balance those
entries leave on an account.  `Ledger.Sound` says that the running state of a server — the set
`balance_applied`, the balances that three different code paths move, and the counter `paxos_index`
— is that function of its log.  Every ledger operation keeps it, hence so does every run of a
server, whatever it is handed.
-/
import MultiPaxosDB.LedgerOps

namespace MultiPaxosDB

open Lib

/-! ## What a log says -/

/-- The tids of the COMMITTED entries of a log. -/
def committedTids (log : List WALEntry) : Finset Int :=
  ((log.filter fun e => decide (e.status = .committed)).map WALEntry.tid).toFinset

/-- One entry more: it is kept if it is the first COMMITTED entry of its tid. -/
def keepFirst (kept : List WALEntry) (e : WALEntry) : List WALEntry :=
  if e.status = .committed ∧ e.tid ∉ kept.map WALEntry.tid then kept ++ [e] else kept

/-- The COMMITTED entries of a log that are the first COMMITTED entry of their tid, in log order. -/
def firstCommits (log : List WALEntry) : List WALEntry := log.foldl keepFirst []

/-- The Paxos-agreed entries of a log, in order. -/
def agreed (log : List WALEntry) : List WALEntry := log.filter isPaxosEntry

/-- What the first commits of a log have moved on an account. -/
def movedBy (log : List WALEntry) (account : Int) : Int :=
  ((firstCommits log).map fun e => e.txn.effect account).sum

theorem agreed_append (log log' : List WALEntry) : agreed (log ++ log') = agreed log ++ agreed log' :=
  List.filter_append log log'

/-- Two prefixes of one list are equal as soon as they are equally long. -/
theorem agreed_eq_of_length {xs ys zs : List WALEntry} (hx : xs <+: zs) (hy : ys <+: zs)
    (hlen : xs.length = ys.length) : xs = ys := by
  rw [List.prefix_iff_eq_take.mp hx, List.prefix_iff_eq_take.mp hy, hlen]

theorem mem_committedTids {log : List WALEntry} {t : Int} :
    t ∈ committedTids log ↔ ∃ e ∈ log, e.status = .committed ∧ e.tid = t := by
  simp only [committedTids, List.mem_toFinset, List.mem_map, List.mem_filter, decide_eq_true_eq, and_assoc]

theorem committedTids_mono {log log' : List WALEntry} (h : log ⊆ log') :
    committedTids log ⊆ committedTids log' := by
  intro t ht
  obtain ⟨e, he, hs⟩ := mem_committedTids.mp ht
  exact mem_committedTids.mpr ⟨e, h he, hs⟩

theorem committedTids_append (log : List WALEntry) (e : WALEntry) :
    committedTids (log ++ [e]) =
      if e.status = .committed then insert e.tid (committedTids log) else committedTids log := by
  split
  · rename_i hs
    ext t
    rw [Finset.mem_insert, mem_committedTids, mem_committedTids]
    constructor
    · rintro ⟨e', he', hcommitted, rfl⟩
      rcases List.mem_append.mp he' with hold | hnew
      · exact .inr ⟨e', hold, hcommitted, rfl⟩
      · rw [List.mem_singleton.mp hnew]
        exact .inl rfl
    · rintro (rfl | ⟨e', he', hcommitted, rfl⟩)
      · exact ⟨e, List.mem_append_right _ (List.mem_singleton.mpr rfl), hs, rfl⟩
      · exact ⟨e', List.mem_append_left _ he', hcommitted, rfl⟩
  · rename_i hs
    unfold committedTids
    simp [hs]

theorem firstCommits_append (log : List WALEntry) (e : WALEntry) :
    firstCommits (log ++ [e]) = keepFirst (firstCommits log) e := by
  simp [firstCommits, List.foldl_append]

/-- The first commits represent every committed tid. -/
theorem mem_firstCommits_tids (log : List WALEntry) :
    ∀ t, t ∈ (firstCommits log).map WALEntry.tid ↔ t ∈ committedTids log := by
  -- on the length of the log: an appended entry is kept exactly when its tid is new
  induction log using List.reverseRecOn with
  | nil => simp [firstCommits, committedTids]
  | append_singleton log e ih =>
    intro t
    rw [firstCommits_append, committedTids_append, keepFirst]
    by_cases hs : e.status = .committed
    · rw [if_pos hs, Finset.mem_insert]
      by_cases hmem : e.tid ∈ (firstCommits log).map WALEntry.tid
      · rw [if_neg (fun h => h.2 hmem), ih t]
        constructor
        · exact Or.inr
        · rintro (rfl | ht)
          · exact (ih e.tid).mp hmem
          · exact ht
      · rw [if_pos ⟨hs, hmem⟩, List.map_append, List.mem_append, ih t, List.map_singleton,
          List.mem_singleton, or_comm]
    · rw [if_neg (fun h => hs h.1), if_neg hs]
      exact ih t

theorem mem_firstCommits {log : List WALEntry} {e : WALEntry} (h : e ∈ firstCommits log) :
    e ∈ log ∧ e.status = .committed := by
  induction log using List.reverseRecOn with
  | nil => exact absurd h List.not_mem_nil
  | append_singleton log e' ih =>
    rw [firstCommits_append, keepFirst] at h
    have hold : e ∈ firstCommits log → e ∈ log ++ [e'] ∧ e.status = .committed := fun hmem =>
      ⟨List.mem_append_left _ (ih hmem).1, (ih hmem).2⟩
    split at h
    · rename_i hkeep
      rcases List.mem_append.mp h with hmem | hnew
      · exact hold hmem
      · rw [List.mem_singleton.mp hnew]
        exact ⟨List.mem_append_right _ List.mem_cons_self, hkeep.1⟩
    · exact hold h

theorem nodup_firstCommits (log : List WALEntry) : ((firstCommits log).map WALEntry.tid).Nodup := by
  induction log using List.reverseRecOn with
  | nil => exact List.nodup_nil
  | append_singleton log e ih =>
    rw [firstCommits_append, keepFirst]
    split
    · rename_i hkeep
      rw [List.map_append]
      refine List.nodup_append.mpr ⟨ih, List.nodup_singleton _, ?_⟩
      rintro t ht _ ht' rfl
      rw [List.map_singleton, List.mem_singleton] at ht'
      exact hkeep.2 (ht' ▸ ht)
    · exact ih

/-- An appended entry moves money exactly when it is the first commit of its tid. -/
theorem movedBy_append (log : List WALEntry) (e : WALEntry) (account : Int) :
    movedBy (log ++ [e]) account = movedBy log account +
      if e.status = .committed ∧ e.tid ∉ committedTids log then e.txn.effect account else 0 := by
  unfold movedBy
  rw [firstCommits_append, keepFirst]
  simp only [mem_firstCommits_tids]
  split
  · simp
  · simp

/-! ## The index -/

/-- One entry more, counted if it is an agreed one. -/
theorem index_append {log : List WALEntry} {index index' : Int} {e : WALEntry}
    (h : index + 1 = ((agreed log).length : Int)) (hindex : index' = if isPaxosEntry e then index + 1 else index) :
    index' + 1 = ((agreed (log ++ [e])).length : Int) := by
  rw [hindex, agreed_append]
  cases hp : isPaxosEntry e with
  | true => simp [agreed, hp] at h ⊢; omega
  | false => simp [agreed, hp] at h ⊢; omega

/-- `paxos_index` is the index of the last agreed entry, in a ledger whose WAL is in order. -/
structure Ledger.Counted (l : Ledger) : Prop where
  wal : l.wal.Ok
  index : l.paxosIndex + 1 = ((agreed l.log).length : Int)
  marker : -1 ≤ l.lastInserted

namespace Ledger.Counted

variable {l l' : Ledger}

theorem fresh (c : Constants) (clusterId : Int) : (Ledger.fresh c clusterId).Counted := ⟨.empty, rfl, le_rfl⟩

theorem frame (h : l.Counted) (hf : l.Frame l') : l'.Counted :=
  ⟨hf.wal ▸ h.wal, by rw [hf.paxosIndex, hf.log]; exact h.index, h.marker.trans hf.lastInserted⟩

theorem prepareTransaction (h : l.Counted) (request : TransferReq) (ballot : Ballot) :
    (l.prepareTransaction request ballot).Counted where
  wal := h.wal.prepareTransaction request ballot
  index := index_append (e := WAL.preparedEntry request ballot) h.index rfl
  marker := by
    show -1 ≤ ((l.log ++ [WAL.preparedEntry request ballot]).length : Int) - 1
    omega

theorem commitTransaction (h : l.Counted) (request : TransferReq) (ballot : Ballot) :
    (l.commitTransaction request ballot).Counted := by
  by_cases hnew : request.tid ∈ l.balanceApplied
  · rw [commitTransaction_applied ballot hnew]
    exact h
  refine ⟨?_, ?_, ?_⟩
  · rw [wal_commitTransaction hnew]
    exact h.wal.commitTransaction request ballot
  · rw [log_commitTransaction hnew h.wal.canWrite]
    exact index_append h.index (paxosIndex_commitTransaction hnew ballot)
  · rw [lastInserted_commitTransaction hnew h.wal]
    omega

/-- A decision is logged and not counted. -/
theorem processTpcDecision (h : l.Counted) (tid : Int) (isCommit : Bool) :
    (l.processTpcDecision tid isCommit).Counted := by
  cases he : l.wal.pendingEntry tid with
  | none =>
    rw [processTpcDecision_none isCommit he]
    exact h.frame (.touch _ _ _)
  | some e =>
    by_cases htid : tid = -1
    · subst htid
      rw [processTpcDecision_sentinel h.wal isCommit he]
      exact ⟨h.wal.decideTransaction (-1) _, h.index, h.marker⟩
    · have htype : e.type = .cross := (h.wal.pendingEntry_spec he).2.1
      rw [processTpcDecision_some h.wal isCommit he htid]
      refine ⟨h.wal.decideTransaction tid _, index_append (e := decidedEntry e isCommit) h.index ?_, h.marker⟩
      rw [if_neg]
      · rfl
      · cases isCommit <;> simp [isPaxosEntry, htype, decidedEntry, decisionStatus]

theorem insertSynced (h : l.Counted) (entry : WALEntry) : (l.insertSynced entry).Counted :=
  ⟨h.wal.insertEntry entry, index_append h.index rfl, h.marker⟩

theorem move {ok : LedgerOp → Prop} (h : l.Counted) (hmove : LedgerMove ok l l') : l'.Counted := by
  cases hmove with
  | op o =>
    cases o with
    | prepare request ballot => exact h.prepareTransaction request ballot
    | commit request ballot => exact h.commitTransaction request ballot
    | decide tid isCommit => exact h.processTpcDecision tid isCommit
    | insert entry => exact h.insertSynced entry
  | frame hf => exact h.frame hf

end Ledger.Counted

/-- Whatever a server handles, its ledger stays counted. -/
theorem ServerImpl.counted_handle {s : ServerImpl} (h : s.ledger.Counted) (e : Event) : (s.handle e).ledger.Counted :=
  reflTransGen_invariant (fun _ _ hmove hl => hl.move hmove) (s.handle_does e) h

/-! ## The invariant -/

/-- What an account of the shard holds by the log, as an integer without bounds. -/
def Ledger.worth (l : Ledger) (account : Int) : Int :=
  (initialBalance l.constants l.clusterId account).toInt + movedBy l.log account

theorem Ledger.worth_append {l k : Ledger} {e : WALEntry} (hconst : k.constants = l.constants)
    (hcluster : k.clusterId = l.clusterId) (hlog : k.log = l.log ++ [e]) (account : Int) :
    k.worth account = l.worth account +
      if e.status = .committed ∧ e.tid ∉ committedTids l.log then e.txn.effect account else 0 := by
  rw [worth, worth, hconst, hcluster, hlog, movedBy_append, add_assoc]

theorem Ledger.worth_prepareTransaction (l : Ledger) (request : TransferReq) (ballot : Ballot) (account : Int) :
    (l.prepareTransaction request ballot).worth account = l.worth account := by
  rw [worth_append (l := l) (k := l.prepareTransaction request ballot) (e := WAL.preparedEntry request ballot)
    rfl rfl rfl, if_neg (by simp [WAL.preparedEntry]), add_zero]

theorem Ledger.worth_commitTransaction {l : Ledger} {request : TransferReq} (hnew : request.tid ∉ l.balanceApplied)
    (hok : l.wal.canWrite = true) (hseen : request.tid ∉ committedTids l.log) (ballot : Ballot) (account : Int) :
    (l.commitTransaction request ballot).worth account = l.worth account + request.txn.effect account := by
  rw [worth_append (by simp) (by simp) (log_commitTransaction hnew hok ballot), if_pos ⟨rfl, hseen⟩]
  rfl

/-- The settlement of a decision is in the log before it is in the balances. -/
theorem Ledger.worth_logDecision (l : Ledger) (tid : Int) (isCommit isLeader : Bool) (e : WALEntry) (account : Int) :
    ((l.logDecision tid isCommit e).settleDecision e isLeader).worth account =
      l.worth account + if e.status = .committed ∧ e.tid ∉ committedTids l.log then e.txn.effect account else 0 :=
  worth_append (l := l) (k := (l.logDecision tid isCommit e).settleDecision e isLeader) rfl rfl rfl account

theorem Ledger.worth_processTpcDecision {l : Ledger} (hw : l.wal.Ok) {tid : Int} {e : WALEntry}
    (he : l.wal.pendingEntry tid = some e) (htid : tid ≠ -1) (isCommit : Bool) (account : Int) :
    (l.processTpcDecision tid isCommit).worth account = l.worth account +
      if isCommit = true ∧ tid ∉ committedTids l.log then e.txn.effect account else 0 := by
  rw [processTpcDecision_some hw isCommit he htid, worth_logDecision]
  cases isCommit <;> simp [decidedEntry, decisionStatus, (hw.pendingEntry_spec he).1]

theorem Ledger.worth_insertSynced (l : Ledger) (entry : WALEntry) (account : Int) :
    (l.insertSynced entry).worth account = l.worth account +
      if entry.status = .committed ∧ entry.tid ∉ committedTids l.log then entry.txn.effect account else 0 :=
  worth_append (l := l) (k := l.insertSynced entry) rfl rfl rfl account

/-- The running state is what the log says. -/
structure Ledger.Sound (l : Ledger) : Prop extends l.Counted where
  applied : l.balanceApplied = committedTids l.log
  balance : ∀ account, l.isClientInCluster account = true →
    l.balances account = .ofInt (l.worth account)

namespace Ledger.Sound

variable {l : Ledger}

theorem fresh (c : Constants) (clusterId : Int) : (Ledger.fresh c clusterId).Sound where
  toCounted := .fresh c clusterId
  applied := rfl
  balance := by
    intro account _
    exact (Int32.ofInt_toInt _).symm.trans (congrArg _ (add_zero _).symm)

theorem frame {l' : Ledger} (h : l.Sound) (hf : l.Frame l') : l'.Sound where
  toCounted := h.toCounted.frame hf
  applied := by rw [hf.balanceApplied, hf.log, h.applied]
  balance := by
    intro account hin
    rw [hf.balances, worth, hf.constants, hf.clusterId, hf.log]
    refine h.balance account ?_
    rwa [isClientInCluster, hf.constants, hf.clusterId] at hin

theorem prepareTransaction (h : l.Sound) (request : TransferReq) (ballot : Ballot) :
    (l.prepareTransaction request ballot).Sound where
  toCounted := h.toCounted.prepareTransaction request ballot
  applied := by
    show l.balanceApplied = committedTids (l.log ++ [WAL.preparedEntry request ballot])
    rw [committedTids_append, if_neg (by simp [WAL.preparedEntry]), h.applied]
  balance := by
    intro account hin
    rw [worth_prepareTransaction]
    exact h.balance account hin

theorem commitTransaction (h : l.Sound) (request : TransferReq) (ballot : Ballot) :
    (l.commitTransaction request ballot).Sound := by
  by_cases hnew : request.tid ∈ l.balanceApplied
  · rw [commitTransaction_applied ballot hnew]
    exact h
  have hlog := log_commitTransaction hnew h.wal.canWrite ballot
  refine ⟨h.toCounted.commitTransaction request ballot, ?_, ?_⟩
  · rw [balanceApplied_commitTransaction, hlog, committedTids_append,
      if_pos (by simp [WAL.committedEntry]), h.applied]
    rfl
  · intro account hin
    have hbal := h.balance account (by simpa [isClientInCluster] using hin)
    rw [balances_commitTransaction hnew h.wal.canWrite,
      worth_commitTransaction hnew h.wal.canWrite (by rw [← h.applied]; exact hnew), hbal, Int32.ofInt_add]

/-- A logged decision leaves the balances behind by exactly its effect, which the settlement adds. -/
theorem processTpcDecision (h : l.Sound) (tid : Int) (isCommit : Bool) :
    (l.processTpcDecision tid isCommit).Sound := by
  cases he : l.wal.pendingEntry tid with
  | none =>
    rw [processTpcDecision_none isCommit he]
    exact h.frame (.touch _ _ _)
  | some e =>
    by_cases htid : tid = -1
    · subst htid
      rw [processTpcDecision_sentinel h.wal isCommit he]
      exact ⟨⟨h.wal.decideTransaction (-1) _, h.index, h.marker⟩, h.applied, h.balance⟩
    have het : e.tid = tid := (h.wal.pendingEntry_spec he).1
    have hcounted := h.toCounted.processTpcDecision tid isCommit
    rw [processTpcDecision_some h.wal isCommit he htid] at hcounted ⊢
    refine ⟨hcounted, ?_, ?_⟩
    · show (if isCommit then insert tid l.balanceApplied else l.balanceApplied) =
        committedTids (l.log ++ [decidedEntry e isCommit])
      rw [committedTids_append, h.applied]
      cases isCommit <;> simp [decidedEntry, decisionStatus, het]
    · intro account hin
      have hin : (l.logDecision tid isCommit (decidedEntry e isCommit)).isClientInCluster account :=
        hin
      rw [balances_settleDecision hin, worth_logDecision, Int32.ofInt_add, ← h.balance account hin, ← h.applied]
      show l.balances account + _ = l.balances account + _
      cases isCommit <;> simp [decidedEntry, decisionStatus, het]

theorem insertSynced (h : l.Sound) (entry : WALEntry) : (l.insertSynced entry).Sound where
  toCounted := h.toCounted.insertSynced entry
  applied := by
    show (if entry.status = .committed then insert entry.tid l.balanceApplied else l.balanceApplied) =
      committedTids (l.log ++ [entry])
    rw [committedTids_append, h.applied]
  balance := by
    intro account hin
    have hin : l.isClientInCluster account = true := hin
    rw [balances_insertSynced hin, worth_insertSynced, Int32.ofInt_add, h.balance account hin, h.applied]

theorem step {P : EntryPred} {S : WALEntry → Prop} {l' : Ledger} (h : l.Sound) (hstep : LedgerStep P S l l') :
    l'.Sound := by
  cases hstep with
  | prepare request ballot => exact h.prepareTransaction request ballot
  | commit request ballot => exact h.commitTransaction request ballot
  | decide tid isCommit => exact h.processTpcDecision tid isCommit
  | insert entry => exact h.insertSynced entry
  | frame hf => exact h.frame hf

end Ledger.Sound

/-- A ledger stays the ledger of its shard. -/
theorem LedgerStep.shard {P : EntryPred} {S : WALEntry → Prop} {l l' : Ledger} (h : LedgerStep P S l l') :
    l'.constants = l.constants ∧ l'.clusterId = l.clusterId := by
  cases h with
  | prepare => exact ⟨rfl, rfl⟩
  | commit => simp
  | decide => simp
  | insert => exact ⟨rfl, rfl⟩
  | frame hf => exact ⟨hf.constants, hf.clusterId⟩

/-! ## Runs of a server -/

namespace ServerImpl

/-- Nothing is asked of what is logged here: the ledger invariant holds for all of it. -/
theorem feeds_true (s : ServerImpl) (e : Event) : s.Feeds (fun _ _ _ _ => True) (fun _ => True) e :=
  ⟨fun _ _ _ => trivial, fun _ _ _ => trivial, fun _ _ _ _ _ => trivial, fun _ _ _ => trivial,
    fun _ _ _ _ _ => trivial, fun _ _ _ _ _ => trivial, fun _ _ _ _ => trivial⟩

theorem handle_chain (s : ServerImpl) (e : Event) :
    Relation.ReflTransGen (LedgerStep (fun _ _ _ _ => True) fun _ => True) s.ledger (s.handle e).ledger :=
  handle_ledger (s.feeds_true e)

theorem handle_sound {s : ServerImpl} (h : s.ledger.Sound) (e : Event) :
    (s.handle e).ledger.Sound :=
  reflTransGen_invariant (motive := Ledger.Sound) (fun _ _ hstep hl => hl.step hstep) (s.handle_chain e) h

/-- Nor does a chain of operations move a ledger to another shard. -/
theorem shard_of_chain {P : EntryPred} {S : WALEntry → Prop} {l l' : Ledger}
    (h : Relation.ReflTransGen (LedgerStep P S) l l') :
    l'.constants = l.constants ∧ l'.clusterId = l.clusterId := by
  refine reflTransGen_invariant (motive := fun l' : Ledger =>
    l'.constants = l.constants ∧ l'.clusterId = l.clusterId) ?_ h ⟨rfl, rfl⟩
  intro l₁ l₂ hstep hl
  obtain ⟨hc, hk⟩ := hstep.shard
  rw [hc, hk]
  exact hl

theorem handle_shard (s : ServerImpl) (e : Event) :
    (s.handle e).ledger.constants = s.ledger.constants ∧
      (s.handle e).ledger.clusterId = s.ledger.clusterId :=
  shard_of_chain (s.handle_chain e)

theorem Core.shard {s t : ServerImpl} {e : Event} (h : Core s e t) :
    t.ledger.isClientInCluster = s.ledger.isClientInCluster := by
  obtain ⟨hc, hk⟩ := shard_of_chain (h.ledger_chain (s.feeds_true e))
  funext a
  rw [Ledger.isClientInCluster, Ledger.isClientInCluster, hc, hk]

/-- The state of a server that started fresh and handled the events `es`. -/
def run (c : Constants) (serverId : Int) (es : List Event) : ServerImpl :=
  es.foldl handle (fresh c serverId)

theorem run_sound (c : Constants) (serverId : Int) (es : List Event) :
    (run c serverId es).ledger.Sound := by
  refine List.foldlRecOn (motive := fun s => s.ledger.Sound) es handle
    (b := fresh c serverId) (.fresh c _) ?_
  intro s hs e _
  exact handle_sound hs e

theorem run_shard (c : Constants) (serverId : Int) (es : List Event) :
    (run c serverId es).ledger.constants = c ∧
      (run c serverId es).ledger.clusterId = getClusterIdFromServerId c serverId := by
  refine List.foldlRecOn (motive := fun s : ServerImpl => s.ledger.constants = c ∧
    s.ledger.clusterId = getClusterIdFromServerId c serverId) es handle
    (b := fresh c serverId) ⟨rfl, rfl⟩ ?_
  intro s hs e _
  obtain ⟨hc, hk⟩ := s.handle_shard e
  rw [hc, hk]
  exact hs

end ServerImpl

/-- A client of the shard has 10 and what the log says. -/
theorem Ledger.worth_client {l : Ledger} {account : Int} (hlow : 1 ≤ account) (hhigh : account ≤ totalClients)
    (hin : l.isClientInCluster account = true) : l.worth account = 10 + movedBy l.log account := by
  rw [worth, initialBalance, if_pos ⟨hlow, hhigh, hin⟩]
  rfl

/-- What the balance of an account reads as. -/
theorem Ledger.Sound.toInt_balance {l : Ledger} (h : l.Sound) {account : Int}
    (hin : l.isClientInCluster account = true) : (l.balances account).toInt = int32 (l.worth account) := by
  rw [h.balance account hin, toInt_ofInt]

/-- An account that is not overdrawn shows no more than it is worth, -/
theorem Ledger.Sound.balance_le_worth {l : Ledger} (h : l.Sound) {account : Int}
    (hin : l.isClientInCluster account = true) (hpos : 0 ≤ l.worth account) :
    (l.balances account).toInt ≤ l.worth account := by
  rw [h.toInt_balance hin]
  exact int32_le_self hpos

/-- and just that in the range of an `int`. -/
theorem Ledger.Sound.balance_eq_worth {l : Ledger} (h : l.Sound) {account : Int}
    (hin : l.isClientInCluster account = true) (hpos : 0 ≤ l.worth account) (hrange : l.worth account < 2 ^ 31) :
    (l.balances account).toInt = l.worth account := by
  rw [h.toInt_balance hin, int32_eq_self (by omega) hrange]

/-- **The ledger invariant.**  After any events in any order, `balance_applied` is the set of the
committed tids of the log, and every account of the shard holds its initial 10 and what the first
commit of each tid moved — once, by whichever of the three paths it arrived — as an `int`. -/
theorem balances_determined_by_log (c : Constants) (serverId : Int) (es : List Event) :
    (ServerImpl.run c serverId es).ledger.balanceApplied =
        committedTids (ServerImpl.run c serverId es).ledger.log ∧
      ∀ account, 1 ≤ account → account ≤ totalClients →
        (ServerImpl.run c serverId es).ledger.isClientInCluster account = true →
        ((ServerImpl.run c serverId es).ledger.balances account).toInt =
          int32 (10 + movedBy (ServerImpl.run c serverId es).ledger.log account) := by
  have hsound := ServerImpl.run_sound c serverId es
  refine ⟨hsound.applied, ?_⟩
  intro account hlow hhigh hin
  rw [hsound.toInt_balance hin, Ledger.worth_client hlow hhigh hin]

/-- A 2PC transfer of 4 out of account 1, prepared and committed by a catch-up sync, whose commit is
then synced a second time. -/
def syncedTwice : List Event :=
  let entry (status : TransactionStatus) : LogEntry :=
    { txn := ⟨1, 1001, 4⟩, tid := 7, type := .cross, status := status, ballotNum := 1,
      ballotServerId := 2 }
  [.syncReply .ok { ack := true, logs := [entry .prepared, entry .committed, entry .committed],
                    lastInsertedBallot := ⟨1, 2⟩ }]

/-- The money moves once. -/
theorem balances_determined_by_log_syncedTwice :
    ((ServerImpl.run ⟨3, 3⟩ 1 syncedTwice).ledger.balances 1).toInt =
        int32 (10 + movedBy (ServerImpl.run ⟨3, 3⟩ 1 syncedTwice).ledger.log 1) ∧
      ((ServerImpl.run ⟨3, 3⟩ 1 syncedTwice).ledger.balances 1).toInt = 6 :=
  ⟨(balances_determined_by_log ⟨3, 3⟩ 1 syncedTwice).2 1 (by decide) (by decide) (by decide),
    by decide⟩

/-- Server 1 leads the prepare of a transfer of 2147483647 into its account 1 and is told to commit it. -/
def paidTooMuch : List Event :=
  [.input (.tpcPrepare 0 ⟨⟨1001, 1, 2147483647⟩, 7⟩), .prepareReply .ok ⟨⟨1, 1⟩, -1⟩ (ServerImpl.plainPrepareRes true ⟨1, 1⟩),
   .input (.tpcDecision 7 true)]

/-- A balance that leaves the range of an `int` wraps: account 1 ends at -2147483639. -/
theorem balance_wraps :
    ¬ ∀ (es : List Event) (account : Int), 1 ≤ account → account ≤ totalClients →
      (ServerImpl.run ⟨3, 3⟩ 1 es).ledger.isClientInCluster account = true →
      ((ServerImpl.run ⟨3, 3⟩ 1 es).ledger.balances account).toInt =
        10 + movedBy (ServerImpl.run ⟨3, 3⟩ 1 es).ledger.log account := by
  intro h
  have hone := h paidTooMuch 1 (by decide) (by decide) (by decide)
  revert hone
  decide +kernel

end MultiPaxosDB
