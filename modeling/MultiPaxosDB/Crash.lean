/-
# MultiPaxosDB.Crash — the process stops inside a handler.

`Effects` lists what a handler writes and answers, in order, and the process may stop anywhere in the list; then `run`
starts again, takes the balances as they are saved and the log as it is written.  A life of a server is a list of such
stops (`afterStops`), and a restart between two events is one in which nothing of the last handler is out.

A stop between two transfers leaves log and balances in step.  Two things do not.  A stop inside a transfer loses what
the puts still missing were due (`Disk.due`): the line is read back, and a start replays no balance.  And a start empties
`balance_applied`, so a tid that is committed again moves its money again, where the log counts it once.  `drift` adds
both up; log and balances agree exactly if it comes to nothing as an `int` (`crash_consistent_iff`).
-/
import MultiPaxosDB.Effects

namespace MultiPaxosDB

open Lib

/-- The events handled since a start, the one in whose handler the process stops, and how many of its effects are out. -/
structure Stop where
  events : List Event
  last : Event
  out : Nat
deriving DecidableEq, Repr

namespace ServerImpl

/-- The server as it enters the handler in which the process stops. -/
def upTo (s : ServerImpl) (x : Stop) : ServerImpl := x.events.foldl handle s

/-- What is on disk when the process stops. -/
def stopDisk (s : ServerImpl) (x : Stop) : Disk :=
  cutAt Disk.effect (s.upTo x).disk ((s.upTo x).effects x.last) x.out

/-- The puts still to come for the transfer in progress. -/
def missingPuts (s : ServerImpl) (x : Stop) : List Effect :=
  restOfBlock Effect.isPut ((s.upTo x).effects x.last) x.out

/-- The process stops, and `run` starts again. -/
def stop (s : ServerImpl) (x : Stop) : ServerImpl := boot s.ledger.constants s.serverId (s.stopDisk x)

/-- What is logged from a start up to a stop, as the next start reads it back. -/
def loggedUntil (s : ServerImpl) (x : Stop) : List WALEntry := (s.stop x).ledger.log.drop s.ledger.log.length

/-- By how much a balance gets out of step with the log between a start and a stop. -/
def offBy (s : ServerImpl) (x : Stop) (a : Int) : Int :=
  -- what was committed before this start, and is committed and applied again
  (((firstCommits (s.loggedUntil x)).filter fun e => decide (e.tid ∈ committedTids s.ledger.log)).map fun e =>
    e.txn.effect a).sum - (s.stopDisk x).due (s.missingPuts x) a

/-- The same over all stops. -/
def drift (a : Int) : ServerImpl → List Stop → Int
  | _, [] => 0
  | s, x :: xs => s.offBy x a + drift a (s.stop x) xs

/-- Every balance of the shard is what the log says. -/
def Balanced (s : ServerImpl) : Prop :=
  ∀ a, isShardClient s.ledger.constants s.ledger.clusterId a →
    (s.ledger.balances a).toInt = 10 + movedBy s.ledger.log a

/-- A server after its stops. -/
def afterStops (c : Constants) (serverId : Int) (stops : List Stop) : ServerImpl :=
  stops.foldl stop (fresh c serverId)

end ServerImpl

/-! ## The money of a log -/

/-- Only the COMMITTED entries of a log move money. -/
theorem movedBy_commits (log : List WALEntry) (a : Int) : movedBy (commits log) a = movedBy log a := by
  induction log using List.reverseRecOn with
  | nil => rfl
  | append_singleton log e ih =>
    have htids : committedTids (commits log) = committedTids log := by
      simp [committedTids, commits]
    rw [commits_append, movedBy_append]
    by_cases hs : e.status = .committed
    · rw [show commits [e] = [e] by simp [commits, hs], movedBy_append, ih, htids]
    · rw [show commits [e] = [] by simp [commits, hs], List.append_nil, ih, if_neg (fun h => hs h.1), add_zero]

/-- A continued log counts once what it commits again. -/
theorem movedBy_append_log (log new : List WALEntry) (a : Int) : movedBy (log ++ new) a +
    (((firstCommits new).filter fun e => decide (e.tid ∈ committedTids log)).map fun e => e.txn.effect a).sum =
      movedBy log a + movedBy new a := by
  rw [movedBy, firstCommits_append_log, List.map_append, List.sum_append, add_assoc]
  congr 1
  rw [movedBy, appliedFrom]
  induction firstCommits new with
  | nil => rfl
  | cons e es ih =>
    by_cases hold : e.tid ∈ committedTids log
    · simp only [List.filter_cons, hold, decide_true, not_true, decide_false, if_true, List.map_cons, List.sum_cons,
        Bool.false_eq_true, if_false]
      omega
    · simp only [List.filter_cons, hold, decide_true, not_false_iff, decide_false, if_true, List.map_cons, List.sum_cons,
        Bool.false_eq_true, if_false]
      omega

/-! ## From a start to the next -/

namespace ServerImpl

variable {c : Constants} {serverId : Int} {d : Disk}

theorem records_upTo {s : ServerImpl} (hw : s.ledger.wal.Ok) (x : Stop) : s.ledger.Records (s.upTo x).ledger := by
  refine List.foldlRecOn (motive := fun t => s.ledger.Records t.ledger) x.events handle (.frame hw (.touch _ _ _)) ?_
  intro t ht e _
  exact ht.trans (leads_effects ht.wal e).records

theorem log_boot (c : Constants) (serverId : Int) (d : Disk) :
    (boot c serverId d).ledger.log = d.file.filterMap WalLine.recovered :=
  Recovery.log_scan _ d.file

theorem saved_boot (c : Constants) (serverId : Int) (d : Disk) : (boot c serverId d).ledger.Saved := by
  intro a ha
  have ha : isShardClient c (getClusterIdFromServerId c serverId) a := ha
  show (if _ then _ else _) = some (if _ then _ else _)
  rw [if_pos ha, if_pos ha]

/-- **One stop**: the lines written since the start are read back, and the balances have moved by their commits but for
what the missing puts were due. -/
theorem boot_stop (c : Constants) (serverId : Int) (d : Disk) (x : Stop) :
    ∃ lines, ((boot c serverId d).stopDisk x).file = d.file ++ lines ∧ ((∀ line ∈ lines, line.tid ≠ -1) →
      ∀ a, isShardClient c (getClusterIdFromServerId c serverId) a →
        ((boot c serverId d).stop x).ledger.balances a = (boot c serverId d).ledger.balances a +
          .ofInt (movedBy (lines.filterMap WalLine.recovered) a -
            ((boot c serverId d).stopDisk x).due ((boot c serverId d).missingPuts x) a)) := by
  have hup := records_upTo (s := boot c serverId d) (Recovery.ok_scan _ d.file) x
  obtain ⟨m, b, hm, hdisk, hdue⟩ : ((boot c serverId d).upTo x).ledger.Stops ((boot c serverId d).stopDisk x)
    ((boot c serverId d).missingPuts x) := (leads_effects hup.wal x.last).cuts.good x.out
  have hrecords := hup.trans hm
  obtain ⟨new, lines, happlies, hfile, hcommits⟩ := hrecords.booked
  have hcut : ((boot c serverId d).stopDisk x).file = m.wal.file := by
    have hputs : ∀ w ∈ (boot c serverId d).missingPuts x, w.isPut = true := fun w hw => List.mem_takeWhile_imp hw
    rw [← Disk.file_foldl_puts hputs, hdisk]
    rfl
  refine ⟨lines, hcut.trans hfile, ?_⟩
  intro htids a ha
  have hshard : isShardClient ((boot c serverId d).upTo x).ledger.constants
      ((boot c serverId d).upTo x).ledger.clusterId a := by
    rw [hup.constants, hup.clusterId]
    exact ha
  obtain ⟨v, hv, hv'⟩ := hdue (hup.saved (saved_boot c serverId d)) a hshard
  have hbalance : ((boot c serverId d).stop x).ledger.balances a = v := by
    refine (if_pos ha).trans ?_
    rw [hv]
    rfl
  -- what is saved with the missing puts is what the ledger has in memory
  have hmoved : m.balances a = (boot c serverId d).ledger.balances a + .ofInt (movedBy new a) := by
    have h := happlies.balance a ha.2.2
    rwa [show appliedFrom (boot c serverId d).ledger.balanceApplied new = firstCommits new from
      List.filter_eq_self.mpr (by simp [boot, persistBallotNum, bootLedger])] at h
  rw [hrecords.saved (saved_boot c serverId d) a (by rw [hrecords.constants, hrecords.clusterId]; exact ha), hmoved,
    ← movedBy_commits new, ← hcommits htids, movedBy_commits] at hv'
  rw [hbalance, sub_eq_add_neg, add_ofInt_add, Option.some.inj hv', ← add_ofInt_add, add_neg_cancel, add_ofInt_zero]

/-- **Any stops**: what the balances have moved by is what the log says, and the drift. -/
theorem balances_stops (c : Constants) (serverId : Int) (stops : List Stop) (d : Disk) :
    ∃ d' lines, stops.foldl stop (boot c serverId d) = boot c serverId d' ∧ d'.file = d.file ++ lines ∧
      ((∀ line ∈ lines, line.tid ≠ -1) → ∀ a, isShardClient c (getClusterIdFromServerId c serverId) a →
        (boot c serverId d').ledger.balances a = (boot c serverId d).ledger.balances a +
          .ofInt (movedBy (boot c serverId d').ledger.log a - movedBy (boot c serverId d).ledger.log a +
            drift a (boot c serverId d) stops)) := by
  induction stops generalizing d with
  | nil => exact ⟨d, [], rfl, (List.append_nil _).symm, fun _ a _ => by simp [drift]⟩
  | cons x stops ih =>
    have hstop : (boot c serverId d).stop x = boot c serverId ((boot c serverId d).stopDisk x) := rfl
    obtain ⟨lines, hfile, hbalance⟩ := boot_stop c serverId d x
    obtain ⟨d', lines', hboot, hfile', hbalance'⟩ := ih ((boot c serverId d).stopDisk x)
    refine ⟨d', lines ++ lines', hboot, by rw [hfile', hfile, List.append_assoc], ?_⟩
    intro htids a ha
    have hlog : ((boot c serverId d).stop x).ledger.log =
        (boot c serverId d).ledger.log ++ lines.filterMap WalLine.recovered := by
      rw [hstop, log_boot, hfile, List.filterMap_append, log_boot]
    have hlogged : (boot c serverId d).loggedUntil x = lines.filterMap WalLine.recovered := by
      rw [loggedUntil, hlog, List.drop_left]
    have hcounted := movedBy_append_log (boot c serverId d).ledger.log (lines.filterMap WalLine.recovered) a
    rw [← hlog, hstop] at hcounted
    rw [hbalance' (fun line hline => htids line (List.mem_append_right _ hline)) a ha, ← hstop,
      hbalance (fun line hline => htids line (List.mem_append_left _ hline)) a ha, ← add_ofInt_add, drift, offBy, hlogged,
      hstop]
    congr 2
    omega

/-- A stop between two transfers, with nothing committed again since the start. -/
def cleanStop (s : ServerImpl) (x : Stop) : Prop :=
  s.missingPuts x = [] ∧ ∀ e ∈ firstCommits (s.loggedUntil x), e.tid ∉ committedTids s.ledger.log

instance (s : ServerImpl) (x : Stop) : Decidable (s.cleanStop x) := inferInstanceAs (Decidable (_ ∧ _))

theorem drift_eq_zero {s : ServerImpl} {stops : List Stop} (h : okRun stop cleanStop s stops) (a : Int) :
    drift a s stops = 0 := by
  induction stops generalizing s with
  | nil => rfl
  | cons x stops ih =>
    obtain ⟨⟨hputs, hnew⟩, hrest⟩ := h
    have hagain : (firstCommits (s.loggedUntil x)).filter (fun e => decide (e.tid ∈ committedTids s.ledger.log)) = [] :=
      List.filter_eq_nil_iff.mpr fun e he => by simpa using hnew e he
    rw [drift, offBy, hagain, hputs, Disk.due_nil, ih hrest]
    rfl

end ServerImpl

/-- **Crash consistency inside a handler.**  Let a server stop any number of times, anywhere inside its handlers.  After
the last start log and balances agree exactly if, for every client of the shard, what its accounts have drifted by is
nothing as an `int`, and what the log says is in the range of an `int`. -/
theorem crash_consistent_iff (c : Constants) (serverId : Int) (stops : List Stop)
    (htids : ∀ line ∈ (ServerImpl.afterStops c serverId stops).ledger.wal.file, line.tid ≠ -1) :
    (ServerImpl.afterStops c serverId stops).Balanced ↔
      ∀ a, isShardClient c (getClusterIdFromServerId c serverId) a →
        (2 ^ 32 : Int) ∣ (ServerImpl.fresh c serverId).drift a stops ∧
        -2 ^ 31 ≤ 10 + movedBy (ServerImpl.afterStops c serverId stops).ledger.log a ∧
        10 + movedBy (ServerImpl.afterStops c serverId stops).ledger.log a < 2 ^ 31 := by
  obtain ⟨d, lines, hboot, hfile, hbalance⟩ :=
    ServerImpl.balances_stops c serverId stops Disk.empty
  have hend : ServerImpl.afterStops c serverId stops = ServerImpl.boot c serverId d := hboot
  rw [hend] at htids ⊢
  have hlines : ∀ line ∈ lines, line.tid ≠ -1 := by
    intro line hline
    refine htids line ?_
    show line ∈ d.file
    rw [hfile]
    exact List.mem_append_right _ hline
  refine forall₂_congr fun a ha => ?_
  have hfresh : (ServerImpl.fresh c serverId).ledger.balances a = 10 := if_pos ha
  have hnone : movedBy (ServerImpl.fresh c serverId).ledger.log a = 0 := rfl
  rw [hbalance hlines a ha, ServerImpl.boot_empty, hfresh, hnone, sub_zero, show (10 : Int32) = .ofInt 10 from rfl,
    ← Int32.ofInt_add, toInt_ofInt, ← add_assoc, int32_add_eq_iff]

/-- Server 2 commits a transfer and restarts.  It accepts two more, and stops while it commits them, between the two. -/
def stoppedBetween : List Stop :=
  [⟨[.prepareCall ⟨⟨1, 1⟩, -1⟩, .acceptCall ⟨⟨1, 1⟩, [⟨⟨5, 6, 2⟩, 6⟩]⟩, .commitCall ⟨⟨1, 1⟩⟩], .input .sweep, 0⟩,
   ⟨[.prepareCall ⟨⟨2, 1⟩, 0⟩, .acceptCall ⟨⟨2, 1⟩, [⟨⟨1, 2, 3⟩, 7⟩, ⟨⟨3, 4, 5⟩, 8⟩]⟩], .commitCall ⟨⟨2, 1⟩⟩, 3⟩]

theorem crash_consistent_iff_stoppedBetween : (ServerImpl.afterStops ⟨3, 3⟩ 2 stoppedBetween).Balanced := by
  refine (crash_consistent_iff ⟨3, 3⟩ 2 stoppedBetween (by decide +kernel)).mpr fun a _ => ?_
  have hcommits : firstCommits (ServerImpl.afterStops ⟨3, 3⟩ 2 stoppedBetween).ledger.log =
      [⟨6, 1, 1, ⟨5, 6, 2⟩, .intra, .committed⟩, ⟨7, 2, 1, ⟨1, 2, 3⟩, .intra, .committed⟩] := by
    decide +kernel
  rw [ServerImpl.drift_eq_zero (by decide +kernel), movedBy, hcommits]
  simp only [Transaction.effect, List.map_cons, List.map_nil, List.sum_cons, List.sum_nil]
  split_ifs <;> omega

/-- Server 2 has accepted two transfers of its shard, and stops after the WAL line of the second one and before its
puts: the log has the transfer, the balances do not. -/
theorem crash_inside_transfer :
    ¬ ∀ stops : List Stop, (∀ line ∈ (ServerImpl.afterStops ⟨3, 3⟩ 2 stops).ledger.wal.file, line.tid ≠ -1) →
      (ServerImpl.afterStops ⟨3, 3⟩ 2 stops).Balanced := by
  intro h
  have hsender := h [⟨[.prepareCall ⟨⟨1, 1⟩, -1⟩, .acceptCall ⟨⟨1, 1⟩, [⟨⟨1, 2, 3⟩, 7⟩, ⟨⟨3, 4, 5⟩, 8⟩]⟩],
    .commitCall ⟨⟨1, 1⟩⟩, 4⟩] (by decide +kernel) 3 (by decide +kernel)
  revert hsender
  decide +kernel

end MultiPaxosDB
