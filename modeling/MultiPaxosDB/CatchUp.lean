/-
# MultiPaxosDB.CatchUp — what a catch-up sync transfers.

A lagging server is detected by `paxos_index`, the number of agreed entries, but asks for the missing
entries by `last_inserted`, a raw log index, and the responder cuts its own raw log there.  2PC
decisions sit at different raw positions on different replicas, so the cut need not fall between the
agreed entries the requester has and those it lacks.  `catch_up_complete_iff` says exactly when it
does; `three_prepares` is a run of one cluster in which it does not, and the lagging server is told
that it lacks nothing.
-/
import MultiPaxosDB.Cluster
import MultiPaxosDB.Recovery

namespace MultiPaxosDB

open Lib

/-- `r` sends its `SyncReq` to `p`, `p` answers, `r` handles the answer, and nothing else happens. -/
def ServerImpl.catchUp (r p : ServerImpl) : ServerImpl :=
  r.handle (.syncReply .ok (p.ledger.processSyncCall r.syncReq))

/-- The agreed entries the responder holds before the raw index at which it cuts its log. -/
def agreedBeforeCut (r p : ServerImpl) : List WALEntry :=
  agreed (p.ledger.log.take (r.ledger.lastInserted + 1).toNat)

/-! ## What the responder sends -/

namespace ServerImpl

variable {r p : ServerImpl}

/-- A responder that is not ahead by raw index sends nothing. -/
theorem ledger_catchUp_of_le (h : p.ledger.lastInserted ≤ r.ledger.lastInserted) :
    (r.catchUp p).ledger = r.ledger := by
  have hnack : (p.ledger.processSyncCall r.syncReq).ack = false := by
    unfold Ledger.processSyncCall
    rw [if_neg (show ¬p.ledger.lastInserted > r.syncReq.lastInserted from not_lt.mpr h)]
  show (resumeAfterSync _).ledger = _
  rw [ledger_resumeAfterSync]
  simp [hnack]

/-- Otherwise it sends its raw log from the cut on. -/
theorem log_catchUp_of_lt (hmark : -1 ≤ r.ledger.lastInserted)
    (h : r.ledger.lastInserted < p.ledger.lastInserted) :
    (r.catchUp p).ledger.log =
      r.ledger.log ++ p.ledger.log.drop (r.ledger.lastInserted + 1).toNat := by
  have hres : p.ledger.processSyncCall r.syncReq =
      { ack := true
        logs := (p.ledger.log.drop (r.ledger.lastInserted + 1).toNat).map getLogEntryFromLocalLog
        lastInsertedBallot := p.ledger.lastInsertedBallot } := by
    unfold Ledger.processSyncCall syncReq
    dsimp only
    rw [if_pos h, if_pos (show (0 : Int) ≤ r.ledger.lastInserted + 1 by omega)]
  show (resumeAfterSync _).ledger.log = _
  rw [ledger_resumeAfterSync, hres]
  simp only [decide_true, Bool.and_true, if_true]
  show (r.ledger.applySync _).log = _
  rw [Ledger.log_applySync, map_toWALEntry]

end ServerImpl

/-! ## When the sync is complete -/

/-- **Catch-up completeness, exactly.**  For a requester whose agreed entries are a proper prefix of
the responder's, whatever both have lived through, one sync makes the two sequences (and the indices
that count them) equal if and only if the responder's raw index is the larger one and the agreed
entries before its cut are as many as the requester has. -/
theorem catch_up_complete_iff (c : Constants) (i j : Int) (es es' : List LifeEvent)
    (hbehind : agreed (ServerImpl.life c i es).ledger.log <+:
      agreed (ServerImpl.life c j es').ledger.log)
    (hproper : agreed (ServerImpl.life c i es).ledger.log ≠
      agreed (ServerImpl.life c j es').ledger.log) :
    (agreed ((ServerImpl.life c i es).catchUp (ServerImpl.life c j es')).ledger.log =
          agreed (ServerImpl.life c j es').ledger.log ∧
        ((ServerImpl.life c i es).catchUp (ServerImpl.life c j es')).ledger.paxosIndex =
          (ServerImpl.life c j es').ledger.paxosIndex) ↔
      (ServerImpl.life c i es).ledger.lastInserted < (ServerImpl.life c j es').ledger.lastInserted ∧
        (agreedBeforeCut (ServerImpl.life c i es) (ServerImpl.life c j es')).length =
          (agreed (ServerImpl.life c i es).ledger.log).length := by
  have hr := ServerImpl.counted_life c i es
  have hp := ServerImpl.counted_life c j es'
  generalize ServerImpl.life c i es = r at *
  generalize ServerImpl.life c j es' = p at *
  by_cases hlt : r.ledger.lastInserted < p.ledger.lastInserted
  · have hlog : agreed (r.catchUp p).ledger.log = agreed r.ledger.log ++
        agreed (p.ledger.log.drop (r.ledger.lastInserted + 1).toNat) := by
      rw [ServerImpl.log_catchUp_of_lt hr.marker hlt, agreed_append]
    -- the cut splits the responder's agreed entries into those it keeps back and those it sends
    have hsplit : agreed p.ledger.log = agreedBeforeCut r p ++
        agreed (p.ledger.log.drop (r.ledger.lastInserted + 1).toNat) := by
      rw [agreedBeforeCut, ← agreed_append, List.take_append_drop]
    constructor
    · rintro ⟨heq, -⟩
      rw [hlog, hsplit] at heq
      exact ⟨hlt, by rw [List.append_cancel_right heq]⟩
    · rintro ⟨-, hlen⟩
      have hcut : agreedBeforeCut r p = agreed r.ledger.log :=
        agreed_eq_of_length (hsplit ▸ List.prefix_append _ _) hbehind hlen
      have heq : agreed (r.catchUp p).ledger.log = agreed p.ledger.log := by
        rw [hlog, hsplit, hcut]
      have hidx : (r.catchUp p).ledger.paxosIndex + 1 = (agreed (r.catchUp p).ledger.log).length :=
        (ServerImpl.counted_handle hr (.syncReply .ok (p.ledger.processSyncCall r.syncReq))).index
      refine ⟨heq, ?_⟩
      have hpidx := hp.index
      rw [heq] at hidx
      omega
  · have hsame := ServerImpl.ledger_catchUp_of_le (not_lt.mp hlt)
    constructor
    · rintro ⟨heq, -⟩
      rw [hsame] at heq
      exact absurd heq hproper
    · rintro ⟨h, -⟩
      exact absurd h hlt

/-- Server 2 has accepted a prepare and heard its decision when it restarts. -/
def oneDecided : List LifeEvent :=
  [.event (.prepareCall ⟨⟨1, 3⟩, -1⟩), .event (.acceptCall ⟨⟨1, 3⟩, [⟨⟨1, 1001, 4⟩, 7⟩]⟩),
   .event (.input (.tpcDecision 7 true)), .restart]

/-- Server 1 has accepted it too, and another one, and has heard both decisions. -/
def twoDecided : List LifeEvent :=
  [.event (.prepareCall ⟨⟨1, 3⟩, -1⟩), .event (.acceptCall ⟨⟨1, 3⟩, [⟨⟨1, 1001, 4⟩, 7⟩]⟩),
   .event (.input (.tpcDecision 7 true)), .event (.acceptCall ⟨⟨1, 3⟩, [⟨⟨2, 1002, 4⟩, 8⟩]⟩),
   .event (.input (.tpcDecision 8 false))]

/-- Server 2 gets what it lacks. -/
theorem catch_up_complete_iff_twoDecided :
    let r := ServerImpl.life ⟨3, 3⟩ 2 oneDecided
    let p := ServerImpl.life ⟨3, 3⟩ 1 twoDecided
    agreed (r.catchUp p).ledger.log = agreed p.ledger.log ∧
      (r.catchUp p).ledger.paxosIndex = p.ledger.paxosIndex :=
  (catch_up_complete_iff ⟨3, 3⟩ 2 1 oneDecided twoDecided (by decide +kernel) (by decide +kernel)).mpr
    (by decide +kernel)

/-- Server 1 leads three cross-shard prepares in a row; server 2 logs the commit of the first between
the first and the second, and has not seen the accept of the third. -/
def threePrepares : List NetEvent :=
  [.input 1 (.tpcPrepare 0 ⟨⟨1, 1001, 1⟩, 1⟩), .deliver 0, .complete 0, .deliver 2, .complete 2,
   .input 2 (.tpcDecision 1 true),
   .input 1 (.tpcPrepare 1 ⟨⟨2, 1002, 1⟩, 2⟩), .deliver 6, .complete 6, .deliver 8, .complete 8,
   .input 1 (.tpcPrepare 2 ⟨⟨3, 1003, 1⟩, 3⟩), .deliver 12, .complete 12]

/-- Both raw indices are then 2, so the responder denies that anything is missing. -/
theorem catch_up_misses_entry :
    ¬ ∀ (es : List NetEvent) (i j : Int),
      getClusterIdFromServerId ⟨3, 3⟩ i = getClusterIdFromServerId ⟨3, 3⟩ j →
      agreed ((Net.run ⟨3, 3⟩ es).servers i).ledger.log <+:
        agreed ((Net.run ⟨3, 3⟩ es).servers j).ledger.log →
      agreed ((Net.run ⟨3, 3⟩ es).servers i).ledger.log ≠
        agreed ((Net.run ⟨3, 3⟩ es).servers j).ledger.log →
      agreed (((Net.run ⟨3, 3⟩ es).servers i).catchUp ((Net.run ⟨3, 3⟩ es).servers j)).ledger.log =
          agreed ((Net.run ⟨3, 3⟩ es).servers j).ledger.log ∧
        (((Net.run ⟨3, 3⟩ es).servers i).catchUp ((Net.run ⟨3, 3⟩ es).servers j)).ledger.paxosIndex =
          ((Net.run ⟨3, 3⟩ es).servers j).ledger.paxosIndex := by
  intro h
  have hmissed := (h threePrepares 2 1 (by decide) (by decide +kernel) (by decide +kernel)).1
  revert hmissed
  decide +kernel

end MultiPaxosDB
