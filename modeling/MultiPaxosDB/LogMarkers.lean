/-
# MultiPaxosDB.LogMarkers — the three numbers a server keeps about its log.

`paxos_index` is what rounds compare; `last_inserted` and `last_inserted_ballot` are what a sync asks by and
answers with.  All three are kept by hand beside the log they describe, and recomputed by `run`.

`paxos_index` is in step with the log at every event boundary of every life (`paxosIndex_counts`).  The other two
are not.  `SyncRange` says what they are for: the marker points into the log, at the entry whose ballot is recorded,
and nothing agreed stands behind it.  A prepare or a commit moves the marker to the end of the log, decisions stay
behind it, and a restart recomputes it; only `handleSyncReply` moves it by a number that is not an index, the count
of entries it has received.  If `k` decisions stand behind the marker, that lands `k` entries short of the end, and
the recorded ballot is the sender's.  So the range holds along a life exactly if every sync that is applied ships no
agreed entry among its last `k` and lands on an entry with the ballot it names (`syncRange_along_iff`).
-/
import MultiPaxosDB.Locks
import MultiPaxosDB.Recovery

namespace MultiPaxosDB

open Lib

/-! ## `paxos_index` -/

/-- **`paxos_index` counts the agreed entries**, in every state of every life. -/
theorem paxosIndex_counts (c : Constants) (serverId : Int) (es : List LifeEvent) :
    (ServerImpl.life c serverId es).ledger.paxosIndex + 1 =
      ((ServerImpl.life c serverId es).ledger.log.countP isPaxosEntry : Int) := by
  rw [(ServerImpl.counted_life c serverId es).index, agreed, List.countP_eq_length_filter]

/-! ## The sync range -/

/-- The ballot under which an entry was logged. -/
def WALEntry.ballot (e : WALEntry) : Ballot := { num := e.ballotNum, serverId := e.ballotServerId }

namespace Ledger

variable {l l' : Ledger}

/-- `last_inserted` points into the log, at an entry of the recorded ballot, and what stands behind it is not agreed. -/
structure SyncRange (l : Ledger) : Prop where
  low : -1 ≤ l.lastInserted
  high : l.lastInserted < l.log.length
  behind : ∀ (i : Nat) (e : WALEntry), l.log[i]? = some e → l.lastInserted < i → isPaxosEntry e = false
  ballot : 0 ≤ l.lastInserted → ∃ e, l.log[l.lastInserted.toNat]? = some e ∧ l.lastInsertedBallot = e.ballot

namespace SyncRange

/-- A marker at the end of the log has nothing behind it. -/
theorem of_end {e : WALEntry} (hlog : l'.log = l.log ++ [e]) (hlast : l'.lastInserted = l.log.length)
    (hballot : l'.lastInsertedBallot = e.ballot) : l'.SyncRange := by
  have hlen : l'.log.length = l.log.length + 1 := by rw [hlog, List.length_append, List.length_singleton]
  refine ⟨by omega, by omega, ?_, ?_⟩
  · intro i x hx hi
    have hbound := (List.getElem?_eq_some_iff.mp hx).1
    omega
  · intro _
    refine ⟨e, ?_, hballot⟩
    rw [hlast, hlog, Int.toNat_natCast, List.getElem?_concat_length]

/-- An entry that is not agreed may be logged behind the marker. -/
theorem append (h : l.SyncRange) {e : WALEntry} (he : isPaxosEntry e = false) (hlog : l'.log = l.log ++ [e])
    (hlast : l'.lastInserted = l.lastInserted) (hballot : l'.lastInsertedBallot = l.lastInsertedBallot) :
    l'.SyncRange := by
  have hhigh := h.high
  refine ⟨hlast ▸ h.low, ?_, ?_, ?_⟩
  · rw [hlast, hlog, List.length_append, List.length_singleton]
    omega
  · intro i x hx hi
    rw [hlog, List.getElem?_append] at hx
    rw [hlast] at hi
    split at hx
    · exact h.behind i x hx hi
    · rw [List.mem_singleton.mp (List.mem_of_getElem? hx)]
      exact he
  · intro hpos
    rw [hlast] at hpos
    obtain ⟨x, hx, hb⟩ := h.ballot hpos
    refine ⟨x, ?_, hballot.trans hb⟩
    rw [hlast, hlog, List.getElem?_append_left (by omega)]
    exact hx

/-- Its markers are all it reads besides the log. -/
theorem congr (h : l.SyncRange) (hlog : l'.log = l.log) (hlast : l'.lastInserted = l.lastInserted)
    (hballot : l'.lastInsertedBallot = l.lastInsertedBallot) : l'.SyncRange := by
  obtain ⟨hlow, hhigh, hbehind, hb⟩ := h
  rw [← hlog] at hhigh hbehind hb
  rw [← hlast] at hlow hhigh hbehind hb
  exact ⟨hlow, hhigh, hbehind, hballot ▸ hb⟩

theorem prepareTransaction (l : Ledger) (request : TransferReq) (ballot : Ballot) :
    (l.prepareTransaction request ballot).SyncRange := by
  refine of_end (l := l) (e := WAL.preparedEntry request ballot) rfl ?_ rfl
  show ((l.log ++ [_]).length : Int) - 1 = l.log.length
  simp

theorem commitTransaction (h : l.SyncRange) (hw : l.wal.Ok) (request : TransferReq) (ballot : Ballot) :
    (l.commitTransaction request ballot).SyncRange := by
  by_cases hnew : request.tid ∈ l.balanceApplied
  · rw [commitTransaction_applied ballot hnew]
    exact h
  · refine of_end (l := l) (log_commitTransaction hnew hw.canWrite ballot) (lastInserted_commitTransaction hnew hw ballot) ?_
    simp only [Ledger.commitTransaction, if_neg hnew]
    rfl

/-- A decision is logged behind the marker. -/
theorem processTpcDecision (h : l.SyncRange) (hw : l.wal.Ok) (tid : Int) (isCommit : Bool) :
    (l.processTpcDecision tid isCommit).SyncRange := by
  cases he : l.wal.pendingEntry tid with
  | none =>
    rw [processTpcDecision_none isCommit he]
    exact h.congr rfl rfl rfl
  | some e =>
    by_cases htid : tid = -1
    · subst htid
      rw [processTpcDecision_sentinel hw isCommit he]
      exact h.congr rfl rfl rfl
    · have htype : e.type = .cross := (hw.pendingEntry_spec he).2.1
      rw [processTpcDecision_some hw isCommit he htid]
      refine h.append (e := decidedEntry e isCommit) ?_ rfl rfl rfl
      cases isCommit <;> simp [isPaxosEntry, htype, decidedEntry, decisionStatus]

/-- A start puts the marker at the end of the recovered log. -/
theorem restart (s : ServerImpl) : s.restart.ledger.SyncRange := by
  have hend : ∀ b file, (Recovery.scan b file).lastInserted + 1 = (Recovery.scan b file).log.length := by
    intro b file
    induction file using List.reverseRecOn with
    | nil => rfl
    | append_singleton file line ih =>
      rw [Recovery.scan_append]
      unfold Recovery.readLine
      dsimp only
      split <;> simp [Recovery.push, ih]
  have hballot : ∀ e, 0 ≤ s.restart.ledger.lastInserted →
      s.restart.ledger.log[s.restart.ledger.lastInserted.toNat]? = some e →
      s.restart.ledger.lastInsertedBallot = e.ballot := by
    intro e hpos he
    refine (if_pos hpos).trans ?_
    split
    · rename_i heq
      cases heq.symm.trans he
      rfl
    · rename_i heq
      cases heq.symm.trans he
  generalize hr : Recovery.scan (s.disk.ballotNum.getD 0) s.ledger.wal.file = r
  have hlog : s.restart.ledger.log = r.log := hr ▸ rfl
  have hlast : s.restart.ledger.lastInserted = r.lastInserted := hr ▸ rfl
  have hlen : r.lastInserted + 1 = r.log.length := hr ▸ hend _ _
  refine ⟨by omega, by rw [hlog]; omega, ?_, ?_⟩
  · intro i e he hi
    rw [hlog] at he
    have hbound := (List.getElem?_eq_some_iff.mp he).1
    omega
  · intro hpos
    rw [hlast] at hpos
    have hin : r.lastInserted.toNat < r.log.length := by omega
    refine ⟨r.log[r.lastInserted.toNat], ?_, ?_⟩
    · rw [hlog, hlast, List.getElem?_eq_getElem hin]
    · exact hballot _ (hlast ▸ hpos) (by rw [hlog, hlast, List.getElem?_eq_getElem hin])

end SyncRange

/-! ## What a sync does to the marker -/

/-- How many entries stand behind the marker. -/
def trailing (l : Ledger) : Nat := l.log.length - (l.lastInserted + 1).toNat

/-- The entry `handleSyncReply` moves the marker to. -/
def syncedEntry? (l : Ledger) (response : SyncRes) : Option WALEntry :=
  (l.log ++ response.logs.map LogEntry.toWALEntry)[(l.lastInserted + response.logs.length).toNat]?

/-- The reply ships nothing agreed among its last `trailing` entries, and the marker lands, if anywhere, on an entry
of the ballot that the reply names. -/
def syncsInRange (l : Ledger) (response : SyncRes) : Prop :=
  (∀ x ∈ response.logs.drop (response.logs.length - l.trailing), isPaxosEntry x.toWALEntry = false) ∧
    (0 ≤ l.lastInserted + response.logs.length →
      (l.syncedEntry? response).map WALEntry.ballot = some response.lastInsertedBallot)

instance (l : Ledger) (response : SyncRes) : Decidable (l.syncsInRange response) :=
  inferInstanceAs (Decidable (_ ∧ _))

theorem lastInserted_applySync (l : Ledger) (response : SyncRes) :
    (l.applySync response).lastInserted = l.lastInserted + response.logs.length := by
  have hkept : ((response.logs.map LogEntry.toWALEntry).foldl insertSynced l).lastInserted = l.lastInserted :=
    List.foldlRecOn (motive := fun l' : Ledger => l'.lastInserted = l.lastInserted) _ insertSynced rfl
      fun _ hl' _ _ => hl'
  show ((response.logs.map LogEntry.toWALEntry).foldl insertSynced l).lastInserted + _ = _
  rw [hkept]

/-- Behind an index of an appended list: what stood there in the first part, and the end of the second. -/
theorem drop_applySync (l : Ledger) (response : SyncRes) (h : l.SyncRange) :
    (l.applySync response).log.drop (l.lastInserted + response.logs.length + 1).toNat =
      l.log.drop ((l.lastInserted + 1).toNat + response.logs.length) ++
        (response.logs.drop (response.logs.length - l.trailing)).map LogEntry.toWALEntry := by
  have hlow := h.low
  have hhigh := h.high
  have hstart : (l.lastInserted + response.logs.length + 1).toNat = (l.lastInserted + 1).toNat + response.logs.length := by
    omega
  have hcut : (l.lastInserted + 1).toNat + response.logs.length - l.log.length = response.logs.length - l.trailing := by
    rw [trailing]
    omega
  rw [log_applySync, hstart, List.drop_append, hcut, List.map_drop]

theorem behind_iff (hlow : -1 ≤ l.lastInserted) :
    (∀ (i : Nat) (e : WALEntry), l.log[i]? = some e → l.lastInserted < i → isPaxosEntry e = false) ↔
      ∀ e ∈ l.log.drop (l.lastInserted + 1).toNat, isPaxosEntry e = false := by
  constructor
  · intro h e he
    obtain ⟨j, hj⟩ := List.mem_iff_getElem?.mp he
    rw [List.getElem?_drop] at hj
    exact h _ e hj (by omega)
  · intro h i e he hi
    refine h e (List.mem_iff_getElem?.mpr ⟨i - (l.lastInserted + 1).toNat, ?_⟩)
    rw [List.getElem?_drop, Nat.add_sub_cancel' (by omega)]
    exact he

/-- **A sync keeps the range exactly if it syncs in range.** -/
theorem syncRange_applySync_iff (h : l.SyncRange) (response : SyncRes) :
    (l.applySync response).SyncRange ↔ l.syncsInRange response := by
  have hlow := h.low
  have hhigh := h.high
  have hlast := l.lastInserted_applySync response
  have hlog := l.log_applySync response
  have hlen : (l.applySync response).log.length = l.log.length + response.logs.length := by
    rw [hlog, List.length_append, List.length_map]
  -- of the entries behind the new marker, those that were there before are no agreed ones
  have hold : ∀ e ∈ l.log.drop ((l.lastInserted + 1).toNat + response.logs.length), isPaxosEntry e = false := by
    intro e he
    rw [← List.drop_drop] at he
    exact (behind_iff hlow).mp h.behind e (List.mem_of_mem_drop he)
  have hbehind : (∀ e ∈ (l.applySync response).log.drop ((l.applySync response).lastInserted + 1).toNat,
      isPaxosEntry e = false) ↔
        ∀ x ∈ response.logs.drop (response.logs.length - l.trailing), isPaxosEntry x.toWALEntry = false := by
    rw [hlast, drop_applySync l response h, List.forall_mem_append, List.forall_mem_map]
    exact and_iff_right hold
  have hentry : (l.applySync response).log[(l.applySync response).lastInserted.toNat]? = l.syncedEntry? response := by
    rw [hlast, hlog, syncedEntry?]
  constructor
  · intro hnew
    refine ⟨hbehind.mp ((behind_iff hnew.low).mp hnew.behind), ?_⟩
    intro hpos
    obtain ⟨e, he, hb⟩ := hnew.ballot (hlast ▸ hpos)
    rw [hentry] at he
    rw [he, Option.map_some, ← hb]
    rfl
  · rintro ⟨hshipped, hballot⟩
    have hlow' : -1 ≤ (l.applySync response).lastInserted := by omega
    refine ⟨hlow', by omega, (behind_iff hlow').mpr (hbehind.mpr hshipped), ?_⟩
    intro hpos
    obtain ⟨e, he, hb⟩ := Option.map_eq_some_iff.mp (hballot (hlast ▸ hpos))
    exact ⟨e, hentry.trans he, hb.symm⟩

/-- A counted ledger with its marker in range. -/
structure Marked (l : Ledger) : Prop where
  counted : l.Counted
  range : l.SyncRange

namespace Marked

theorem touch (h : l.Marked) (locks : Finset Int) (clock : Int) (prepareTimestamps : TidMap Int) :
    Marked { l with locks := locks, clock := clock, prepareTimestamps := prepareTimestamps } :=
  ⟨⟨h.counted.wal, h.counted.index, h.counted.marker⟩, h.range.congr rfl rfl rfl⟩

theorem prepareTransaction (h : l.Marked) (request : TransferReq) (ballot : Ballot) :
    (l.prepareTransaction request ballot).Marked :=
  ⟨h.counted.prepareTransaction request ballot, .prepareTransaction l request ballot⟩

theorem commitTransaction (h : l.Marked) (request : TransferReq) (ballot : Ballot) :
    (l.commitTransaction request ballot).Marked :=
  ⟨h.counted.commitTransaction request ballot, h.range.commitTransaction h.counted.wal request ballot⟩

theorem decideAll (h : l.Marked) (isCommit : Bool) (tids : List Int) : (l.decideAll isCommit tids).Marked := by
  refine List.foldlRecOn (motive := Marked) tids _ h ?_
  intro l' hl' tid _
  exact ⟨hl'.counted.processTpcDecision tid isCommit, hl'.range.processTpcDecision hl'.counted.wal tid isCommit⟩

theorem foldl_acceptEntry (h : l.Marked) (ballot : Ballot) (batch : List TransferReq) :
    (batch.foldl (ServerImpl.acceptEntry ballot) l).Marked := by
  refine List.foldlRecOn (motive := Marked) batch _ h ?_
  intro l' hl' r _
  unfold ServerImpl.acceptEntry
  dsimp only
  split
  · exact (hl'.touch _ _ _).prepareTransaction r ballot
  · exact hl'.touch _ _ _

theorem foldl_commitAccepted (h : l.Marked) (ballot : Ballot) (batch : List TransferReq) :
    (batch.foldl (ServerImpl.commitAccepted ballot) l).Marked := by
  refine List.foldlRecOn (motive := Marked) batch _ h ?_
  intro l' hl' r _
  unfold ServerImpl.commitAccepted
  dsimp only
  split
  · exact (hl'.touch _ _ _).commitTransaction r ballot
  · exact hl'.touch _ _ _

theorem admitAll (h : l.Marked) (ballot : Ballot) (batch : List BatchEntry) :
    (ServerImpl.admitAll l ballot batch).ledger.Marked := by
  refine List.foldlRecOn (motive := fun a : ServerImpl.Admission => a.ledger.Marked) batch
    (ServerImpl.validateEntry ballot) h ?_
  intro a ha b _
  unfold ServerImpl.validateEntry
  split
  · exact ha
  · dsimp only
    split
    · exact (ha.touch _ _ _).prepareTransaction b.request ballot
    · exact ha.touch _ _ _

theorem foldl_commitEntry (h : l.Marked) (ballot : Ballot) (batch : List BatchEntry) :
    (batch.foldl (ServerImpl.commitEntry ballot) l).Marked := by
  refine List.foldlRecOn (motive := Marked) batch _ h ?_
  intro l' hl' b _
  unfold ServerImpl.commitEntry
  split
  · exact hl'
  · exact (hl'.touch _ _ _).commitTransaction b.request ballot

theorem foldl_releaseEntry (h : l.Marked) (preparePhase : Bool) (batch : List BatchEntry) :
    (batch.foldl (ServerImpl.releaseEntry preparePhase) l).Marked := by
  obtain ⟨locks, heq⟩ := ServerImpl.foldl_releaseEntry_eq preparePhase batch l
  rw [heq]
  exact h.touch locks _ _

end Marked

end Ledger

/-! ## Lives -/

namespace ServerImpl

variable {s t : ServerImpl} {e : Event}

/-- The applied syncs of the event are in range. -/
def keepsRange (s : ServerImpl) : LifeEvent → Prop
  | .event (.syncReply status response) => status = .ok → response.ack = true → s.ledger.syncsInRange response
  | _ => True

instance (s : ServerImpl) : (ev : LifeEvent) → Decidable (s.keepsRange ev)
  | .event (.syncReply _ _) => inferInstanceAs (Decidable (_ → _ → _))
  | .event (.input _) | .event (.prepareCall _) | .event (.acceptCall _) | .event (.commitCall _)
  | .event (.syncCall _) | .event (.prepareReply _ _ _) | .event (.acceptReply _ _ _)
  | .restart => inferInstanceAs (Decidable True)

/-- Every move but a sync keeps the range. -/
theorem Core.marked (h : Core s e t) (hs : s.ledger.Marked) (hno : ∀ status response, e ≠ .syncReply status response) :
    t.ledger.Marked := by
  cases h with
  | idle | refuse | transfer | tpcPrepare | disconnect | promise | behind => exact hs
  | countPrepare | staleLog | countAccept => exact hs
  | tick ms => exact hs.touch _ _ _
  | decision tid isCommit => exact hs.decideAll isCommit [tid]
  | sweep =>
    rw [Ledger.sweep_eq]
    exact hs.decideAll false _
  | accept request => exact hs.foldl_acceptEntry request.ballot request.batch
  | commit request => exact hs.foldl_commitAccepted s.acceptNum s.acceptBatch
  | reject => exact hs.admitAll s.promisedNum s.current
  | propose => exact hs.admitAll s.promisedNum s.current
  | abortPrepare => exact hs.foldl_releaseEntry true s.current
  | commitRound => exact hs.foldl_commitEntry s.acceptNum s.current
  | abortAccept => exact hs.foldl_releaseEntry false s.current
  | synced response => exact absurd rfl (hno .ok response)
  | notSynced => exact absurd rfl (hno _ _)

theorem marked_handle (hs : s.ledger.Marked) (hno : ∀ status response, e ≠ .syncReply status response) :
    (s.handle e).ledger.Marked := by
  generalize hu : s.handle e = u
  cases moves_of_handle hu with
  | done hcore => exact hcore.marked hs hno
  | @start t hcore =>
    show t.ledger.Marked
    exact hcore.marked hs hno
  | retry hpre =>
    cases hpre with
    | staleBallot => exact hs
    | synced response => exact absurd rfl (hno .ok response)
    | notSynced => exact absurd rfl (hno _ _)

/-- **One event or restart, exactly.** -/
theorem syncRange_live_iff (hcounted : s.ledger.Counted) (hs : s.ledger.SyncRange) (ev : LifeEvent) :
    (s.live ev).ledger.SyncRange ↔ s.keepsRange ev := by
  have hothers : ∀ {P : Prop}, P → (P ↔ True) := fun h => ⟨fun _ => trivial, fun _ => h⟩
  cases ev with
  | restart => exact hothers (.restart s)
  | event e =>
    cases e with
    | syncReply status response =>
      show (handleSyncReply { s with outbox := [] } status response).ledger.SyncRange ↔
        (status = .ok → response.ack = true → s.ledger.syncsInRange response)
      rw [handleSyncReply, ledger_resumeAfterSync]
      by_cases hok : status = .ok
      · cases hack : response.ack with
        | true =>
          simp only [hok, decide_true, Bool.and_self, if_true, true_imp_iff]
          exact Ledger.syncRange_applySync_iff hs response
        | false => simpa [hok] using hs
      · simpa [hok] using hs
    | _ => exact hothers (marked_handle ⟨hcounted, hs⟩ fun _ _ h => by cases h).range

end ServerImpl

/-- **The sync range along a life**, exactly: it holds in every state that a life passes through if and only if every
sync that is applied is in range. -/
theorem syncRange_along_iff (c : Constants) (serverId : Int) (es : List LifeEvent) :
    Along ServerImpl.live (fun s => s.ledger.SyncRange) (ServerImpl.fresh c serverId) es ↔
      okRun ServerImpl.live ServerImpl.keepsRange (ServerImpl.fresh c serverId) es := by
  refine along_iff_okRun (I := fun s => s.ledger.Counted) ?_ ?_ es (.fresh c _) ?_
  · intro s ev hs
    cases ev with
    | event e => exact ServerImpl.counted_handle hs e
    | restart => exact s.counted_restart
  · intro s ev hs hrange
    exact ServerImpl.syncRange_live_iff hs hrange ev
  · refine ⟨le_rfl, Int.negSucc_lt_zero 0, ?_, ?_⟩
    · intro i e he
      exact absurd he (by simp [ServerImpl.fresh, Ledger.fresh])
    · intro hpos
      exact absurd (Int.negSucc_lt_zero 0) (not_lt.mpr hpos)

/-- Server 1 prepares tid 7 on all three servers of its cluster, and servers 1 and 3 hear its decision.  Server 1
commits tid 8 with server 2.  The prepare of its next round shows server 3 to be behind, and server 3 syncs: it asks
from its marker 0 and is sent the decision it has logged behind the marker, and tid 8. -/
def syncsPastADecision : List NetEvent :=
  [.input 1 (.tpcPrepare 0 ⟨⟨1, 1001, 3⟩, 7⟩), .deliver 0, .deliver 1, .complete 0, .deliver 2, .deliver 3, .complete 2,
   .input 1 (.tpcDecision 7 true), .input 3 (.tpcDecision 7 true),
   .input 1 (.transfer 1 ⟨⟨2, 3, 4⟩, 8⟩), .deliver 6, .complete 6, .deliver 8, .complete 8,
   .input 1 (.transfer 2 ⟨⟨4, 5, 1⟩, 9⟩), .deliver 13, .deliver 14, .complete 14]

/-- Its marker is then at the second copy of the decision, and the agreed entry of tid 8 stands behind. -/
theorem agreed_behind_marker :
    ¬ ∀ (es : List NetEvent) (i : Int), ((Net.run ⟨3, 3⟩ es).servers i).ledger.SyncRange := by
  intro h
  have hbehind := (h syncsPastADecision 3).behind 3
    { tid := 8, ballotNum := 2, ballotServerId := 1, txn := ⟨2, 3, 4⟩, type := .intra, status := .committed }
    (by decide +kernel) (by decide +kernel)
  exact absurd hbehind (by decide)

end MultiPaxosDB
