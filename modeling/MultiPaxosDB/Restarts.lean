/-
# MultiPaxosDB.Restarts — the money of a tid, over the whole life of a server.

`balance_applied` guards every path on which a tid could be applied a second time, and a restart empties it: `run`
reads back the log and the balances, not the set.  From then on a tid that the recovered log has as COMMITTED is
one that the server has applied and does not know it has (`Forgotten`).  Nothing asks the log, so whatever brings
such a tid again — in practice a catch-up sync, which is cut by a raw index and may ship what the requester has —
applies it again.

`Deployment` is a network whose servers may restart between events, with all that each server has ever applied as
a history beside it.  The history of a server repeats no tid as long as no forgotten tid is brought to it
(`applied_at_most_once`); `shippedAgain` is a run in which a sync brings one.
-/
import MultiPaxosDB.Applications
import MultiPaxosDB.Cluster
import MultiPaxosDB.Provenance
import MultiPaxosDB.Recovery

namespace MultiPaxosDB

open Lib

/-! ## Deployments whose servers restart -/

/-- The entries that a server applies to its balances while it handles an event. -/
def ServerImpl.applications (s : ServerImpl) (e : Event) : List WALEntry :=
  appliedFrom s.ledger.balanceApplied (s.newEntries e)

/-- Server `i` restarts between two events.  The calls it had outstanding are gone with the process. -/
def Net.restart (n : Net) (i : Int) : Net :=
  { n with
    servers := Function.update n.servers i (n.servers i).restart
    rpcs := n.rpcs.map fun r => if r.src = i then { r with done := true } else r }

/-- A network, and what each of its servers has ever applied. -/
structure Deployment where
  net : Net
  applied : Int → List WALEntry

inductive DeployEvent
  | net (ev : NetEvent)
  | restart (server : Int)
deriving DecidableEq, Repr

namespace Deployment

def fresh (c : Constants) : Deployment := { net := .fresh c, applied := fun _ => [] }

def step (d : Deployment) : DeployEvent → Deployment
  | .net ev =>
    { net := d.net.step ev
      applied :=
        match d.net.actor ev with
        | some (i, e) => Function.update d.applied i (d.applied i ++ (d.net.servers i).applications e)
        | none => d.applied }
  | .restart i => { d with net := d.net.restart i }

def run (c : Constants) (es : List DeployEvent) : Deployment := es.foldl step (fresh c)

end Deployment

/-- The client requests of a run. -/
def DeployEvent.request? : DeployEvent → Option TransferReq
  | .net ev => ev.request?
  | .restart _ => none

/-! ## Forgotten tids -/

/-- The log has a commit of the tid, and `balance_applied` does not know. -/
def Ledger.Forgotten (l : Ledger) (t : Int) : Prop := t ∈ committedTids l.log ∧ t ∉ l.balanceApplied

instance (l : Ledger) (t : Int) : Decidable (l.Forgotten t) := inferInstanceAs (Decidable (_ ∧ _))

/-- The tids an event brings to a server that may commit there. -/
def Event.bringsToCommit : Event → List Int
  | .input (.transfer _ request) => [request.tid]
  | .input (.tpcPrepare _ request) => [request.tid]
  | .input (.tpcDecision tid isCommit) => if isCommit then [tid] else []
  | .acceptCall request => request.batch.map TransferReq.tid
  | .syncReply .ok response => (response.logs.filter fun x => decide (x.status = .committed)).map LogEntry.tid
  | _ => []

/-- The event brings no forgotten tid to the server. -/
def ServerImpl.remembers (s : ServerImpl) (e : Event) : Prop := ∀ t ∈ e.bringsToCommit, ¬ s.ledger.Forgotten t

instance (s : ServerImpl) (e : Event) : Decidable (s.remembers e) :=
  inferInstanceAs (Decidable (∀ t ∈ e.bringsToCommit, ¬ s.ledger.Forgotten t))

/-- No server is brought a tid that it has forgotten. -/
def Deployment.remembers (d : Deployment) : DeployEvent → Prop
  | .net ev =>
    match d.net.actor ev with
    | some (i, e) => (d.net.servers i).remembers e
    | none => True
  | .restart _ => True

instance (d : Deployment) (ev : DeployEvent) : Decidable (d.remembers ev) := by
  unfold Deployment.remembers
  split
  · split <;> infer_instance
  · infer_instance

namespace Ledger

variable {l l' : Ledger} {new : List WALEntry}

/-- What is logged as committed from now on is known as applied. -/
theorem Applies.not_forgotten (h : l.Applies new l') {t : Int} (ht : ¬ l.Forgotten t) : ¬ l'.Forgotten t := by
  rintro ⟨hlog, happlied⟩
  rw [h.log, committedTids_append_log, Finset.mem_union] at hlog
  rw [h.applied, Finset.mem_union, not_or] at happlied
  rcases hlog with hold | hnew
  · exact ht ⟨hold, happlied.1⟩
  · exact happlied.2 hnew

/-- The commits of the log can be read back. -/
def Recovers (l : Ledger) : Prop := ∀ b, committedTids l.log ⊆ committedTids (Recovery.scan b l.wal.file).log

/-- One line that is read back with the commits logged with it. -/
theorem Recovers.append (h : l.Recovers) {line : WalLine} (hfile : l'.wal.file = l.wal.file ++ [line])
    (hlog : l'.log = l.log ++ new)
    (hline : ∀ r : Recovery, committedTids r.log ∪ committedTids new ⊆
      committedTids (r.readLine line l.wal.file.length).log) : l'.Recovers := by
  intro b
  rw [hlog, committedTids_append_log, hfile, Recovery.scan_append]
  exact (Finset.union_subset_union_left (h b)).trans (hline _)

theorem Recovers.decide (h : l.Recovers) (hw : l.wal.Ok) (tid : Int) (isCommit : Bool) :
    (l.processTpcDecision tid isCommit).Recovers := by
  have happlies := applies_decide hw tid isCommit
  cases hindex : l.wal.transferIndex[tid]? with
  | none =>
    rw [processTpcDecision_none isCommit (WAL.pendingEntry_of_not_indexed hindex)]
    exact h
  | some p =>
    have he : l.wal.pendingEntry tid = some (l.wal.getTransactionFromFile p) := WAL.pendingEntry_of_index hindex
    refine h.append (file_processTpcDecision hw hindex isCommit) happlies.log ?_
    intro r
    rw [show (r.readLine _ l.wal.file.length).log = r.log ++ [WalLine.entry _ .cross (decisionStatus isCommit)] by
      cases isCommit <;> rfl, committedTids_append_log]
    refine Finset.union_subset_union_right ?_
    rw [LedgerOp.entries, he]
    dsimp only
    split
    · -- a decision on the sentinel is written and not logged: the file has more than the log
      exact Finset.empty_subset _
    · cases isCommit <;>
        simp [committedTids, decidedEntry, decisionStatus, WalLine.entry, (hw.pendingEntry_spec he).1]

theorem Recovers.op (h : l.Recovers) (hw : l.wal.Ok) (o : LedgerOp) : (o.apply l).Recovers := by
  cases o with
  | prepare request ballot =>
    have hfile : (l.prepareTransaction request ballot).wal.file = l.wal.file ++
        [{ op := .keyed .cross .prepared, tid := request.tid, ballotNum := ballot.num,
           ballotServerId := ballot.serverId, txn := request.txn }] := if_pos hw.canWrite
    have hlog : (l.prepareTransaction request ballot).log = l.log ++ [WAL.preparedEntry request ballot] := rfl
    refine h.append hfile hlog fun r => ?_
    rw [← committedTids_append_log]
    exact subset_rfl
  | commit request ballot =>
    by_cases hnew : request.tid ∈ l.balanceApplied
    · show (l.commitTransaction request ballot).Recovers
      rw [commitTransaction_applied ballot hnew]
      exact h
    · refine h.append (file_commitTransaction hw hnew ballot) (log_commitTransaction hnew hw.canWrite ballot) fun r => ?_
      rw [← committedTids_append_log]
      exact subset_rfl
  | decide tid isCommit => exact h.decide hw tid isCommit
  | insert entry =>
    have hlog : (l.insertSynced entry).log = l.log ++ [entry] := rfl
    refine h.append (file_insertSynced hw entry) hlog fun r => ?_
    obtain ⟨_, _, _, _, type, status⟩ := entry
    cases type <;> cases status <;>
      simp [Recovery.readLine, Recovery.push, WalLine.entry, committedTids]

end Ledger

namespace ServerImpl

variable {s : ServerImpl} {e : Event} {history : List WALEntry}

theorem recovers_handle (h : s.ledger.Recovers) (hw : s.ledger.wal.Ok) (e : Event) : (s.handle e).ledger.Recovers := by
  refine (reflTransGen_invariant (motive := fun l : Ledger => l.wal.Ok ∧ l.Recovers) ?_ (s.handle_does e) ⟨hw, h⟩).2
  rintro l l' hmove ⟨hlw, hl⟩
  cases hmove with
  | op o ho => exact ⟨(o.applies hlw).wal, hl.op hlw o⟩
  | frame hf =>
    refine ⟨hf.wal ▸ hlw, ?_⟩
    intro b
    rw [hf.wal, hf.log]
    exact hl b

/-- The log that a restart recovers. -/
theorem log_restart (s : ServerImpl) (b : Int) : s.restart.ledger.log = (Recovery.scan b s.ledger.wal.file).log :=
  (Recovery.log_scan _ _).trans (Recovery.log_scan b _).symm

/-! ## One server -/

/-- What a server has applied repeats no tid, and the log has a commit of each; and the requests the server holds
have no forgotten tid. -/
structure Once (history : List WALEntry) (s : ServerImpl) : Prop where
  wal : s.ledger.wal.Ok
  recovers : s.ledger.Recovers
  nodup : (history.map WALEntry.tid).Nodup
  logged : ∀ t ∈ history.map WALEntry.tid, t ∈ committedTids s.ledger.log
  held : s.Carries fun _ t _ => ¬ s.ledger.Forgotten t

/-- What an event commits was brought by it, or by an earlier one. -/
theorem Once.not_forgotten (h : s.Once history) (hok : s.remembers e) {o : LedgerOp} (ho : s.Does e o) {t : Int}
    (ht : t ∈ o.committing) : ¬ s.ledger.Forgotten t := by
  cases ho with
  | ledPrepare | accepted | swept => cases ht
  | ledCommit _ hb _ =>
    rw [List.mem_singleton.mp ht]
    exact h.held.current _ hb
  | committed _ _ hr _ =>
    rw [List.mem_singleton.mp ht]
    exact (h.held.acceptBatch _ hr).elim fun _ hq => hq
  | decided tid isCommit => exact hok t ht
  | synced _ hx =>
    refine hok t ?_
    unfold LedgerOp.committing at ht
    dsimp only at ht
    split at ht
    · rename_i hs
      rw [List.mem_singleton.mp ht]
      exact List.mem_map.mpr ⟨_, List.mem_filter.mpr ⟨hx, decide_eq_true hs⟩, rfl⟩
    · cases ht

theorem Once.carries (hok : s.remembers e) : e.Carries fun _ t _ => ¬ s.ledger.Forgotten t := by
  cases e with
  | input i =>
    cases i with
    | transfer call request => exact hok request.tid (List.mem_singleton_self _)
    | tpcPrepare call request => exact hok request.tid (List.mem_singleton_self _)
    | _ => trivial
  | acceptCall request => exact fun r hr => ⟨false, hok r.tid (List.mem_map_of_mem hr)⟩
  | _ => trivial

theorem Once.handle (h : s.Once history) (hok : s.remembers e) : (s.handle e).Once (history ++ s.applications e) := by
  have happlies := handle_applies h.wal e
  have hnew : ∀ t ∈ (s.applications e).map WALEntry.tid, t ∈ committedTids (s.newEntries e) ∧
      t ∉ committedTids s.ledger.log := by
    intro t ht
    obtain ⟨hlogged, hunapplied⟩ := mem_appliedFrom_tids.mp ht
    refine ⟨hlogged, fun hold => ?_⟩
    obtain ⟨x, hx, hs, rfl⟩ := mem_committedTids.mp hlogged
    obtain ⟨o, l, ho, hlw, hentry⟩ := mem_newEntries h.wal hx
    exact h.not_forgotten hok ho (o.mem_committing hlw hentry hs) ⟨hold, hunapplied⟩
  refine ⟨happlies.wal, recovers_handle h.recovers h.wal e, ?_, ?_, ?_⟩
  · rw [List.map_append]
    refine List.nodup_append.mpr ⟨h.nodup, ?_, ?_⟩
    · exact (nodup_firstCommits _).sublist (List.filter_sublist.map _)
    · rintro t ht t' ht' rfl
      exact (hnew t ht').2 (h.logged t ht)
  · intro t ht
    rw [happlies.log, committedTids_append_log, Finset.mem_union]
    rw [List.map_append] at ht
    rcases List.mem_append.mp ht with hold | hlast
    · exact .inl (h.logged t hold)
    · exact .inr (hnew t hlast).1
  · have hcarried := handle_carries h.held (Once.carries hok)
    exact ⟨fun b hb => happlies.not_forgotten (hcarried.pending b hb),
      fun b hb => happlies.not_forgotten (hcarried.current b hb),
      fun r hr => (hcarried.acceptBatch r hr).imp fun _ hq => happlies.not_forgotten hq⟩

/-- A restart forgets what was applied, and drops the requests. -/
theorem Once.restart (h : s.Once history) : s.restart.Once history where
  wal := Recovery.ok_scan _ s.ledger.wal.file
  recovers := by
    intro b
    rw [log_restart s b]
    exact subset_rfl
  nodup := h.nodup
  logged := by
    intro t ht
    rw [log_restart s 0]
    exact h.recovers 0 (h.logged t ht)
  held := ⟨fun _ hb => absurd hb List.not_mem_nil, fun _ hb => absurd hb List.not_mem_nil,
    fun _ hr => absurd hr List.not_mem_nil⟩

theorem Once.fresh (c : Constants) (serverId : Int) : (ServerImpl.fresh c serverId).Once [] where
  wal := .empty
  recovers := fun _ => subset_rfl
  nodup := List.nodup_nil
  logged := fun _ ht => absurd ht List.not_mem_nil
  held := ⟨fun _ hb => absurd hb List.not_mem_nil, fun _ hb => absurd hb List.not_mem_nil,
    fun _ hr => absurd hr List.not_mem_nil⟩

end ServerImpl

/-! ## All servers -/

namespace Deployment

variable {d : Deployment}

/-- A fact about every server and its history, kept by the event that a server handles and by a restart. -/
theorem forall_servers_step {P : List WALEntry → ServerImpl → Prop} (ev : DeployEvent)
    (h : ∀ j, P (d.applied j) (d.net.servers j))
    (hhandle : ∀ i e nev, ev = .net nev → d.net.actor nev = some (i, e) →
      P (d.applied i ++ (d.net.servers i).applications e) ((d.net.servers i).handle e))
    (hrestart : ∀ i, P (d.applied i) (d.net.servers i).restart) :
    ∀ j, P ((d.step ev).applied j) ((d.step ev).net.servers j) := by
  intro j
  cases ev with
  | restart i =>
    show P (d.applied j) (Function.update d.net.servers i (d.net.servers i).restart j)
    by_cases hj : j = i
    · rw [hj, Function.update_self]
      exact hrestart i
    · rw [Function.update_of_ne hj]
      exact h j
  | net nev =>
    show P ((match d.net.actor nev with
      | some (i, e) => Function.update d.applied i (d.applied i ++ (d.net.servers i).applications e)
      | none => d.applied) j) ((d.net.step nev).servers j)
    cases hactor : d.net.actor nev with
    | none =>
      rw [Net.servers_step_none hactor]
      exact h j
    | some p =>
      obtain ⟨i, e⟩ := p
      rw [Net.step_eq_after hactor]
      by_cases hj : j = i
      · rw [hj, Net.servers_after_self]
        dsimp only
        rw [Function.update_self]
        exact hhandle i e nev rfl hactor
      · rw [Net.servers_after_ne _ _ _ hj]
        dsimp only
        rw [Function.update_of_ne hj]
        exact h j

end Deployment

/-- **No tid is applied twice** to the balances of a server in its whole life, restarts included, as long as no
event brings it a tid that the log it has read back already has as COMMITTED. -/
theorem applied_at_most_once (c : Constants) (es : List DeployEvent)
    (h : okRun Deployment.step Deployment.remembers (.fresh c) es) (i : Int) :
    (((Deployment.run c es).applied i).map WALEntry.tid).Nodup := by
  have honce : ∀ j, ((Deployment.run c es).net.servers j).Once ((Deployment.run c es).applied j) := by
    have hr : Reach Deployment.step Deployment.remembers (.fresh c) (Deployment.run c es) := Reach.start.foldl h
    refine hr.invariant (motive := fun d : Deployment => ∀ j, (d.net.servers j).Once (d.applied j))
      (fun j => .fresh c j) ?_
    intro d ev _ hd hok
    refine Deployment.forall_servers_step (P := ServerImpl.Once) ev hd ?_ fun j => (hd j).restart
    rintro j e nev rfl hactor
    simp only [Deployment.remembers, hactor] at hok
    exact (hd j).handle hok
  exact (honce i).nodup

/-- Server 1 leads a cross-shard prepare and, after its decision, which has not reached the other servers, a transfer;
all three servers take part in both rounds. -/
def twoRounds : List NetEvent :=
  [.input 1 (.tpcPrepare 0 ⟨⟨1, 1001, 3⟩, 1⟩), .deliver 0, .deliver 1, .complete 0, .deliver 2, .deliver 3, .complete 2,
   .deliver 4, .deliver 5, .input 1 (.tpcDecision 1 true), .input 1 (.transfer 1 ⟨⟨2, 3, 4⟩, 2⟩), .deliver 6, .deliver 7,
   .complete 6, .deliver 8, .deliver 9, .complete 8, .deliver 10, .deliver 11]

/-- Server 2 restarts, and takes part in a third round. -/
def restartedInQuiet : List DeployEvent :=
  twoRounds.map .net ++ .restart 2 :: [.input 1 (.transfer 2 ⟨⟨4, 5, 1⟩, 3⟩), .deliver 12, .complete 12, .deliver 14,
    .complete 14, .deliver 16].map .net

theorem applied_at_most_once_restartedInQuiet :
    (((Deployment.run ⟨3, 3⟩ restartedInQuiet).applied 2).map WALEntry.tid).Nodup :=
  applied_at_most_once ⟨3, 3⟩ restartedInQuiet (by decide +kernel) 2

/-- Server 2 restarts, misses a third round, and catches up when it hears of a fourth.  The decision that it has not
heard of makes the log of server 1 longer than its own by one, so the sync ships the transfer of the second round
once more. -/
def shippedAgain : List DeployEvent :=
  twoRounds.map .net ++ .restart 2 :: [.input 1 (.transfer 2 ⟨⟨4, 5, 1⟩, 3⟩), .deliver 13, .complete 13, .deliver 15,
    .complete 15, .input 1 (.transfer 3 ⟨⟨6, 7, 1⟩, 4⟩), .deliver 18, .deliver 20, .complete 20].map .net

theorem applied_twice_after_restart :
    ¬ ∀ es : List DeployEvent, ((es.filterMap DeployEvent.request?).map TransferReq.tid).Nodup →
      ∀ i, (((Deployment.run ⟨3, 3⟩ es).applied i).map WALEntry.tid).Nodup := by
  intro h
  have htwice := h shippedAgain (by decide +kernel) 2
  revert htwice
  decide +kernel

end MultiPaxosDB
