/-
# MultiPaxosDB.Applications — what an operation adds to the log, and what of it is applied.

`Sound` compares the money with the whole log, which is right until the process restarts: the log is read back,
`balance_applied` is not.  `Applies` says the same of one stretch of a ledger's life, whatever came before: the
log grows by some entries, and the balances move by the first COMMITTED entry of each tid among them that
`balance_applied` did not contain at the start of the stretch (`appliedFrom`).
-/
import Mathlib.Data.Finset.Lattice.Lemmas
import MultiPaxosDB.LedgerInvariant

namespace MultiPaxosDB

open Lib

/-! ## The commits of a continued log -/

/-- The entries of `new` that move money where the tids `seen` are applied already. -/
def appliedFrom (seen : Finset Int) (new : List WALEntry) : List WALEntry :=
  (firstCommits new).filter fun e => decide (e.tid ∉ seen)

theorem appliedFrom_nil (seen : Finset Int) : appliedFrom seen [] = [] := rfl

theorem appliedFrom_singleton (seen : Finset Int) (e : WALEntry) :
    appliedFrom seen [e] = if e.status = .committed ∧ e.tid ∉ seen then [e] else [] := by
  by_cases hs : e.status = .committed
  · by_cases hmem : e.tid ∈ seen <;> simp [appliedFrom, firstCommits, keepFirst, hs, hmem]
  · simp [appliedFrom, firstCommits, keepFirst, hs]

theorem committedTids_append_log (log new : List WALEntry) :
    committedTids (log ++ new) = committedTids log ∪ committedTids new := by
  rw [committedTids, List.filter_append, List.map_append, List.toFinset_append]
  rfl

/-- What is first in a continued log is first before, or new and first afterwards. -/
theorem firstCommits_append_log (log new : List WALEntry) :
    firstCommits (log ++ new) = firstCommits log ++ appliedFrom (committedTids log) new := by
  induction new using List.reverseRecOn with
  | nil => rw [List.append_nil, appliedFrom_nil, List.append_nil]
  | append_singleton new e ih =>
    have htids : ∀ t, t ∈ (firstCommits (log ++ new)).map WALEntry.tid ↔
        t ∈ committedTids log ∨ t ∈ (firstCommits new).map WALEntry.tid := by
      intro t
      rw [mem_firstCommits_tids, mem_firstCommits_tids, committedTids_append_log, Finset.mem_union]
    rw [← List.append_assoc, firstCommits_append, appliedFrom, firstCommits_append, keepFirst, keepFirst]
    by_cases hnew : e.status = .committed ∧ e.tid ∉ (firstCommits new).map WALEntry.tid
    · rw [if_pos hnew, List.filter_append]
      by_cases hold : e.tid ∈ committedTids log
      · rw [if_neg (fun h => h.2 ((htids _).mpr (.inl hold))), ih, List.filter_cons_of_neg (by simpa using hold),
          List.filter_nil, List.append_nil]
        rfl
      · have hboth : ¬ e.tid ∈ (firstCommits (log ++ new)).map WALEntry.tid :=
          fun h => ((htids _).mp h).elim hold hnew.2
        rw [if_pos ⟨hnew.1, hboth⟩, ih, List.filter_cons_of_pos (by simpa using hold), List.filter_nil,
          List.append_assoc]
        rfl
    · rw [if_neg hnew, if_neg (fun h => hnew ⟨h.1, fun hmem => h.2 ((htids _).mpr (.inr hmem))⟩)]
      exact ih

theorem appliedFrom_append (seen : Finset Int) (xs ys : List WALEntry) :
    appliedFrom seen (xs ++ ys) = appliedFrom seen xs ++ appliedFrom (seen ∪ committedTids xs) ys := by
  rw [appliedFrom, firstCommits_append_log, List.filter_append, appliedFrom, List.filter_filter]
  congr 1
  refine List.filter_congr fun e _ => ?_
  rw [← Bool.decide_and, decide_eq_decide, Finset.mem_union, not_or]

theorem mem_appliedFrom_tids {seen : Finset Int} {new : List WALEntry} {t : Int} :
    t ∈ (appliedFrom seen new).map WALEntry.tid ↔ t ∈ committedTids new ∧ t ∉ seen := by
  rw [← mem_firstCommits_tids]
  simp only [appliedFrom, List.mem_map, List.mem_filter, decide_eq_true_eq]
  constructor
  · rintro ⟨e, ⟨he, hseen⟩, rfl⟩
    exact ⟨⟨e, he, rfl⟩, hseen⟩
  · rintro ⟨⟨e, he, rfl⟩, hseen⟩
    exact ⟨e, ⟨he, hseen⟩, rfl⟩

/-! ## Stretches of a ledger's life -/

namespace Ledger

variable {l l' l'' : Ledger} {new new' : List WALEntry}

/-- The ledger `l` has become `l'`, and the entries `new` are what it has logged meanwhile. -/
structure Applies (l : Ledger) (new : List WALEntry) (l' : Ledger) : Prop where
  wal : l'.wal.Ok
  inShard : l'.isClientInCluster = l.isClientInCluster
  log : l'.log = l.log ++ new
  applied : l'.balanceApplied = l.balanceApplied ∪ committedTids new
  balance : ∀ a, l.isClientInCluster a = true → l'.balances a = l.balances a +
    .ofInt ((appliedFrom l.balanceApplied new).map fun e => e.txn.effect a).sum

theorem Applies.frame (hw : l.wal.Ok) (hf : l.Frame l') : l.Applies [] l' where
  wal := hf.wal ▸ hw
  inShard := by
    funext a
    rw [isClientInCluster, isClientInCluster, hf.constants, hf.clusterId]
  log := by rw [hf.log, List.append_nil]
  applied := by rw [hf.balanceApplied, show committedTids [] = ∅ from rfl, Finset.union_empty]
  balance := by
    intro a _
    rw [hf.balances, appliedFrom_nil, List.map_nil, List.sum_nil, add_ofInt_zero]

theorem Applies.refl (hw : l.wal.Ok) : l.Applies [] l := .frame hw (.touch _ _ _)

theorem Applies.trans (h : l.Applies new l') (h' : l'.Applies new' l'') : l.Applies (new ++ new') l'' where
  wal := h'.wal
  inShard := h'.inShard.trans h.inShard
  log := by rw [h'.log, h.log, List.append_assoc]
  applied := by rw [h'.applied, h.applied, committedTids_append_log, Finset.union_assoc]
  balance := by
    intro a ha
    have ha' : l'.isClientInCluster a = true := by rw [h.inShard]; exact ha
    rw [h'.balance a ha', h.balance a ha, h.applied, appliedFrom_append, List.map_append, List.sum_append, add_ofInt_add]

/-- One more entry: it moves money if it is a commit of a tid that is not applied yet. -/
theorem Applies.entry {e : WALEntry} (hw : l'.wal.Ok) (hshard : l'.isClientInCluster = l.isClientInCluster)
    (hlog : l'.log = l.log ++ [e])
    (happlied : l'.balanceApplied = if e.status = .committed then insert e.tid l.balanceApplied else l.balanceApplied)
    (hbalance : ∀ a, l.isClientInCluster a = true → l'.balances a = l.balances a +
      .ofInt (if e.status = .committed ∧ e.tid ∉ l.balanceApplied then e.txn.effect a else 0)) : l.Applies [e] l' where
  wal := hw
  inShard := hshard
  log := hlog
  applied := by
    rw [happlied]
    ext t
    by_cases hs : e.status = .committed
    · simp [committedTids, hs]
    · simp [committedTids, hs]
  balance := by
    intro a ha
    rw [hbalance a ha, appliedFrom_singleton]
    split
    · rw [List.map_singleton, List.sum_singleton]
    · rw [List.map_nil, List.sum_nil]

end Ledger

/-- The entries an operation logs, in the ledger it runs on. -/
def LedgerOp.entries (l : Ledger) : LedgerOp → List WALEntry
  | prepare request ballot => [WAL.preparedEntry request ballot]
  | commit request ballot => if request.tid ∈ l.balanceApplied then [] else [WAL.committedEntry request ballot]
  | decide tid isCommit =>
    match l.wal.pendingEntry tid with
    | none => []
    | some e => if tid = -1 then [] else [Ledger.decidedEntry e isCommit]
  | insert entry => [entry]

namespace Ledger

variable {l l' : Ledger}

theorem applies_commit (hw : l.wal.Ok) (request : TransferReq) (ballot : Ballot) :
    l.Applies ((LedgerOp.commit request ballot).entries l) (l.commitTransaction request ballot) := by
  show l.Applies (if request.tid ∈ l.balanceApplied then [] else _) _
  split
  · rename_i hold
    rw [commitTransaction_applied ballot hold]
    exact .refl hw
  · rename_i hnew
    refine .entry ?_ (ServerImpl.isClientInCluster_commitTransaction l request ballot)
      (log_commitTransaction hnew hw.canWrite ballot) ?_ ?_
    · rw [wal_commitTransaction hnew]
      exact hw.commitTransaction request ballot
    · exact balanceApplied_commitTransaction l request ballot
    · intro a _
      rw [balances_commitTransaction hnew hw.canWrite, if_pos ⟨rfl, hnew⟩]
      rfl

theorem applies_decide (hw : l.wal.Ok) (tid : Int) (isCommit : Bool) :
    l.Applies ((LedgerOp.decide tid isCommit).entries l) (l.processTpcDecision tid isCommit) := by
  cases he : l.wal.pendingEntry tid with
  | none =>
    rw [LedgerOp.entries, he, processTpcDecision_none isCommit he]
    exact .frame hw (.touch _ _ _)
  | some e =>
    have het : e.tid = tid := (hw.pendingEntry_spec he).1
    rw [LedgerOp.entries, he]
    dsimp only
    split
    · rename_i htid
      rw [htid] at he ⊢
      rw [processTpcDecision_sentinel hw isCommit he]
      refine ⟨hw.decideTransaction (-1) _, rfl, (List.append_nil _).symm, ?_, ?_⟩
      · exact (Finset.union_empty _).symm
      · intro a _
        exact (add_ofInt_zero _).symm
    · rename_i htid
      rw [processTpcDecision_some hw isCommit he htid]
      refine .entry (hw.decideTransaction tid _) rfl rfl ?_ ?_
      · show (if isCommit then insert tid l.balanceApplied else l.balanceApplied) = _
        cases isCommit <;> simp [decidedEntry, decisionStatus, het]
      · intro a ha
        rw [balances_settleDecision (l := l.logDecision tid isCommit (decidedEntry e isCommit)) ha]
        show l.balances a + _ = l.balances a + _
        cases isCommit <;> simp [decidedEntry, decisionStatus, het]

end Ledger

/-- **Every operation moves the balances by what it logs as a first commit.** -/
theorem LedgerOp.applies {l : Ledger} (hw : l.wal.Ok) (o : LedgerOp) : l.Applies (o.entries l) (o.apply l) := by
  cases o with
  | prepare request ballot =>
    refine .entry (hw.prepareTransaction request ballot) rfl rfl ?_ ?_
    · exact (if_neg (by simp [WAL.preparedEntry])).symm
    · intro a _
      rw [if_neg (by simp [WAL.preparedEntry]), add_ofInt_zero]
      rfl
  | commit request ballot => exact Ledger.applies_commit hw request ballot
  | decide tid isCommit => exact Ledger.applies_decide hw tid isCommit
  | insert entry => exact .entry (hw.insertEntry entry) rfl rfl rfl fun a ha => Ledger.balances_insertSynced ha entry

theorem LedgerOp.mem_entries_commit {request : TransferReq} {ballot : Ballot} {l : Ledger} {x : WALEntry}
    (hx : x ∈ (LedgerOp.commit request ballot).entries l) :
    request.tid ∉ l.balanceApplied ∧ x = WAL.committedEntry request ballot := by
  unfold entries at hx
  dsimp only at hx
  split at hx
  · cases hx
  · rename_i hnew
    exact ⟨hnew, List.mem_singleton.mp hx⟩

theorem LedgerOp.mem_entries_decide {tid : Int} {isCommit : Bool} {l : Ledger} {x : WALEntry}
    (hx : x ∈ (LedgerOp.decide tid isCommit).entries l) :
    ∃ e, l.wal.pendingEntry tid = some e ∧ tid ≠ -1 ∧ x = Ledger.decidedEntry e isCommit := by
  cases he : l.wal.pendingEntry tid with
  | none =>
    rw [entries, he] at hx
    cases hx
  | some e =>
    rw [entries, he] at hx
    dsimp only at hx
    split at hx
    · cases hx
    · rename_i htid
      exact ⟨e, rfl, htid, List.mem_singleton.mp hx⟩

/-- The tids an operation may commit. -/
def LedgerOp.committing : LedgerOp → List Int
  | prepare _ _ => []
  | commit request _ => [request.tid]
  | decide tid isCommit => if isCommit then [tid] else []
  | insert entry => if entry.status = .committed then [entry.tid] else []

theorem LedgerOp.mem_committing {o : LedgerOp} {l : Ledger} {x : WALEntry} (hw : l.wal.Ok) (hx : x ∈ o.entries l)
    (hs : x.status = .committed) : x.tid ∈ o.committing := by
  cases o with
  | prepare request ballot =>
    rw [List.mem_singleton.mp hx] at hs
    cases hs
  | commit request ballot =>
    rw [(mem_entries_commit hx).2]
    exact List.mem_singleton_self _
  | decide tid isCommit =>
    obtain ⟨e, he, -, rfl⟩ := mem_entries_decide hx
    cases isCommit with
    | false => cases hs
    | true => exact List.mem_singleton.mpr (hw.pendingEntry_spec he).1
  | insert entry =>
    rw [List.mem_singleton.mp hx] at hs ⊢
    rw [committing, if_pos hs]
    exact List.mem_singleton_self _

/-- A chain of operations is a stretch of a ledger's life, and what is logged in it comes from them. -/
theorem Ledger.exists_applies {ok : LedgerOp → Prop} {l l' : Ledger} (hw : l.wal.Ok)
    (h : Relation.ReflTransGen (LedgerMove ok) l l') : ∃ new, l.Applies new l' ∧
      ∀ x ∈ new, ∃ (o : LedgerOp) (m : Ledger), ok o ∧ m.wal.Ok ∧ x ∈ o.entries m := by
  refine reflTransGen_invariant (motive := fun l' => ∃ new, l.Applies new l' ∧
    ∀ x ∈ new, ∃ (o : LedgerOp) (m : Ledger), ok o ∧ m.wal.Ok ∧ x ∈ o.entries m) ?_ h
    ⟨[], .refl hw, fun _ hx => absurd hx List.not_mem_nil⟩
  rintro m m' hmove ⟨new, hnew, hsource⟩
  cases hmove with
  | op o ho =>
    refine ⟨_, hnew.trans (o.applies hnew.wal), ?_⟩
    intro x hx
    rcases List.mem_append.mp hx with hold | hlast
    · exact hsource x hold
    · exact ⟨o, m, ho, hnew.wal, hlast⟩
  | frame hf =>
    refine ⟨_, hnew.trans (.frame hnew.wal hf), ?_⟩
    rw [List.append_nil]
    exact hsource

namespace ServerImpl

variable {s : ServerImpl}

/-- The entries a server logs while it handles an event. -/
def newEntries (s : ServerImpl) (e : Event) : List WALEntry := (s.handle e).ledger.log.drop s.ledger.log.length

/-- An event is a stretch of a ledger's life, -/
theorem handle_applies (hw : s.ledger.wal.Ok) (e : Event) : s.ledger.Applies (s.newEntries e) (s.handle e).ledger := by
  obtain ⟨new, hnew, -⟩ := Ledger.exists_applies hw (s.handle_does e)
  have heq : s.newEntries e = new := by rw [newEntries, hnew.log, List.drop_left]
  rw [heq]
  exact hnew

/-- and what is logged in it comes from the operations of the event. -/
theorem mem_newEntries (hw : s.ledger.wal.Ok) {e : Event} {x : WALEntry} (hx : x ∈ s.newEntries e) :
    ∃ (o : LedgerOp) (l : Ledger), s.Does e o ∧ l.wal.Ok ∧ x ∈ o.entries l := by
  obtain ⟨new, hnew, hsource⟩ := Ledger.exists_applies hw (s.handle_does e)
  rw [newEntries, hnew.log, List.drop_left] at hx
  exact hsource x hx

end ServerImpl

end MultiPaxosDB
