/-
# MultiPaxosDB.WriteAhead — what a client has been told outlives the process.

A yes cannot be taken back: once `completeTransfer(true, …)` has run, the client counts on a transfer, or on a prepare
that can be committed.  The process may stop at any point all the same, and start again on what is on disk: `Process` is
a server that may stop anywhere among the `effects` of a handler, any number of times, with all it has ever answered as
a history.

The rule of write-ahead logging is `justified_effects`: at each yes the file has the line for it, of a commit or of a
prepare.  The WAL lines of a commit come before its answer in the same loop body.  Those of a prepare are older, and what
connects the two is the batch in flight (`Vouched.proposed`).
-/
import MultiPaxosDB.Effects
import MultiPaxosDB.Restarts

namespace MultiPaxosDB

open Lib

/-! ## A yes is on disk -/

namespace Disk

/-- What an entry that was answered with yes is due to find on disk: a commit of its tid, or its prepare. -/
def Vouches (d : Disk) (b : BatchEntry) : Prop :=
  if b.isCrossShard then
    ∃ x ∈ (Recovery.scan 0 d.file).log, x.type = .cross ∧ x.status = .prepared ∧ x.tid = b.request.tid ∧
      x.txn = b.request.txn
  else b.request.tid ∈ committedTids (Recovery.scan 0 d.file).log

/-- A yes is justified by the disk. -/
def Justifies (d : Disk) : Effect → Prop
  | .answer b true => d.Vouches b
  | _ => True

/-- One line more takes nothing out of the log. -/
theorem log_scan_concat (b : Int) (file : List WalLine) (line : WalLine) :
    (Recovery.scan b file).log <+: (Recovery.scan b (file ++ [line])).log := by
  rw [Recovery.scan_append, Recovery.log_readLine]
  exact List.prefix_append _ _

theorem Vouches.of_prefix {d d' : Disk} {b : BatchEntry}
    (hlog : (Recovery.scan 0 d.file).log <+: (Recovery.scan 0 d'.file).log) (h : d.Vouches b) : d'.Vouches b := by
  obtain ⟨new, hnew⟩ := hlog
  unfold Vouches at h ⊢
  split
  · rename_i hcross
    rw [if_pos hcross] at h
    obtain ⟨x, hx, hprepared⟩ := h
    exact ⟨x, hnew ▸ List.mem_append_left _ hx, hprepared⟩
  · rename_i hintra
    rw [if_neg hintra] at h
    rw [← hnew, committedTids_append_log]
    exact Finset.mem_union_left _ h

theorem Vouches.effect {d : Disk} {b : BatchEntry} (h : d.Vouches b) (x : Effect) : (d.effect x).Vouches b := by
  cases x with
  | answer b' ack => exact h
  | write w =>
    cases w with
    | append line => exact h.of_prefix (log_scan_concat 0 d.file line)
    | putBalance | putBallotNum => exact h.of_prefix List.prefix_rfl

theorem Vouches.foldl {d : Disk} {b : BatchEntry} (h : d.Vouches b) (fx : List Effect) :
    (fx.foldl Disk.effect d).Vouches b :=
  List.foldlRecOn (motive := fun d' : Disk => d'.Vouches b) fx Disk.effect h fun _ hd x _ => hd.effect x

theorem Justifies.effect {d : Disk} {w : Effect} (h : d.Justifies w) (x : Effect) : (d.effect x).Justifies w := by
  cases w with
  | write w => trivial
  | answer b ack =>
    cases ack with
    | false => trivial
    | true => exact Vouches.effect h x

end Disk

namespace Ledger

variable {l : Ledger}

/-- What the ledger has applied can be read back as committed. -/
structure Backed (l : Ledger) : Prop where
  wal : l.wal.Ok
  recovers : l.Recovers
  applied : l.balanceApplied ⊆ committedTids l.log

theorem Backed.of_applies {l' : Ledger} {new : List WALEntry} (h : l.Backed) (happlies : l.Applies new l')
    (hrecovers : l'.Recovers) : l'.Backed where
  wal := happlies.wal
  recovers := hrecovers
  applied := by
    rw [happlies.applied, happlies.log, committedTids_append_log]
    exact Finset.union_subset_union_left h.applied

theorem Backed.unlockBoth (h : l.Backed) (txn : Transaction) : (l.unlockBoth txn).Backed :=
  ⟨h.wal, h.recovers, h.applied⟩

theorem Backed.commitTransaction (h : l.Backed) (request : TransferReq) (ballot : Ballot) :
    (l.commitTransaction request ballot).Backed :=
  h.of_applies (applies_commit h.wal request ballot) (h.recovers.op h.wal (.commit request ballot))

/-- A commit is on disk when it is done, whether it was applied before or not. -/
theorem Backed.vouches_commit (h : l.Backed) {e : BatchEntry} (hintra : e.isCrossShard = false) (ballot : Ballot)
    (b : Option Int) : ((l.commitTransaction e.request ballot).disk b).Vouches e := by
  have hdone : e.request.tid ∈ (l.commitTransaction e.request ballot).balanceApplied := by
    unfold Ledger.commitTransaction
    split
    · assumption
    · exact Finset.mem_insert_self _ _
  have hbacked := h.commitTransaction e.request ballot
  rw [Disk.Vouches, if_neg (by simp [hintra])]
  exact hbacked.recovers 0 (hbacked.applied hdone)

end Ledger

namespace ServerImpl

variable {s t : ServerImpl} {e : Event}

/-- What the answers of a server rest on. -/
structure Vouched (s : ServerImpl) : Prop where
  ledger : s.ledger.Backed
  /-- The cross-shard entries of a proposed batch are prepared on disk. -/
  proposed : s.awaitAcceptDecision = true → ∀ b ∈ s.current, b.isCrossShard = true → s.disk.Vouches b

/-- **Write ahead**: at the point where an entry is answered with yes, the disk vouches for it. -/
theorem justified_commitEffects (h : s.Vouched) (hawait : s.awaitAcceptDecision = true) :
    Justified Disk.effect Disk.Justifies s.disk s.commitEffects := by
  -- the loop keeps the books backed, and the prepares it found on disk are still there
  have hloop : ∀ (batch : List BatchEntry) (l : Ledger), l.Backed →
      (∀ b ∈ batch, b.isCrossShard = true → (l.disk s.dbBallotNum).Vouches b) →
      Justified Disk.effect Disk.Justifies (l.disk s.dbBallotNum) (loopEffects (commitEntry s.acceptNum)
        (fun l e => (if e.isCrossShard then []
          else ((l.unlockBoth e.request.txn).commitWrites e.request s.acceptNum).map .write) ++ [.answer e true])
        l batch) := by
    intro batch
    induction batch with
    | nil => exact fun _ _ _ => trivial
    | cons e batch ih =>
      intro l hl hprepared
      have hturn := yields_commitTurn hl.wal s.acceptNum e
      rw [loopEffects, justified_append, (hturn.answer e true).disk]
      refine ⟨?_, ih _ ?_ ?_⟩
      · rw [justified_append, hturn.disk]
        refine ⟨?_, ?_, trivial⟩
        · -- writes need no justification
          refine .of_forall fun w hw _ => ?_
          split at hw
          · cases hw
          · obtain ⟨w, -, rfl⟩ := List.mem_map.mp hw
            trivial
        · show Disk.Vouches _ e
          unfold commitEntry
          cases hcross : e.isCrossShard with
          | true =>
            rw [if_pos rfl]
            exact hprepared e List.mem_cons_self hcross
          | false =>
            rw [if_neg Bool.false_ne_true]
            exact (hl.unlockBoth e.request.txn).vouches_commit hcross s.acceptNum s.dbBallotNum
      · unfold commitEntry
        split
        · exact hl
        · exact (hl.unlockBoth e.request.txn).commitTransaction e.request s.acceptNum
      · intro b hb hcross
        rw [← hturn.disk]
        exact (hprepared b (List.mem_cons_of_mem e hb) hcross).foldl _
  exact hloop s.current s.ledger h.ledger (h.proposed hawait)

/-- No handler but that of the accept quorum says yes. -/
def SaysNoYes (fx : List Effect) : Prop := ∀ b, Effect.answer b true ∉ fx

theorem SaysNoYes.justified {fx : List Effect} (h : SaysNoYes fx) (d : Disk) :
    Justified Disk.effect Disk.Justifies d fx := by
  refine .of_forall fun w hw d' => ?_
  match w with
  | .write _ => trivial
  | .answer _ false => trivial
  | .answer b true => exact absurd hw (h b)

theorem saysNoYes_map_write (ws : List Write) : SaysNoYes (ws.map .write) := by
  intro b hb
  obtain ⟨w, -, hw⟩ := List.mem_map.mp hb
  cases hw

theorem SaysNoYes.append {fx fx' : List Effect} (h : SaysNoYes fx) (h' : SaysNoYes fx') : SaysNoYes (fx ++ fx') := by
  intro b hb
  rcases List.mem_append.mp hb with hleft | hright
  · exact h b hleft
  · exact h' b hright

theorem saysNoYes_loop {α : Type} {body : Ledger → α → Ledger} {effects : Ledger → α → List Effect}
    (h : ∀ l x, SaysNoYes (effects l x)) (l : Ledger) (xs : List α) : SaysNoYes (loopEffects body effects l xs) := by
  induction xs generalizing l with
  | nil => exact fun b hb => absurd hb List.not_mem_nil
  | cons x xs ih => exact (h l x).append (ih _)

theorem saysNoYes_roundAbort (s : ServerImpl) (preparePhase : Bool) : SaysNoYes (s.roundAbortEffects preparePhase) := by
  refine SaysNoYes.append ?_ (saysNoYes_map_write _)
  intro b hb
  obtain ⟨b', -, hb'⟩ := List.mem_map.mp hb
  cases hb'

theorem saysNoYes_nil : SaysNoYes [] := fun _ hb => absurd hb List.not_mem_nil

theorem saysNoYes_decidePrepare (s : ServerImpl) : SaysNoYes s.decidePrepareEffects := by
  unfold decidePrepareEffects
  split
  · refine SaysNoYes.append (saysNoYes_loop ?_ _ _) ?_
    · intro l e b hb
      split at hb
      · simp at hb
      · split at hb <;> simp at hb
    · split
      · exact saysNoYes_map_write _
      · exact saysNoYes_nil
  · split
    · exact saysNoYes_roundAbort s true
    · exact saysNoYes_nil

theorem saysNoYes_prepareReply (s : ServerImpl) (status : Status) (request : PrepareReq) (response : PrepareRes) :
    SaysNoYes (s.prepareReplyEffects status request response) := by
  unfold prepareReplyEffects
  split
  · exact saysNoYes_nil
  · split
    · exact saysNoYes_decidePrepare _
    · split
      · unfold countPrepareEffects
        dsimp only
        generalize (if response.ack then { s with prepareSuccesses := s.prepareSuccesses + 1 }
          else { s with prepareFailures := s.prepareFailures + 1 }) = counted
        split
        · exact saysNoYes_map_write [.putBallotNum _, .putBallotNum _]
        · split
          · split
            · exact saysNoYes_nil
            · exact saysNoYes_decidePrepare _
          · exact saysNoYes_decidePrepare _
      · exact saysNoYes_decidePrepare _

theorem justified_decideAccept (h : s.Vouched) (hawait : s.awaitAcceptDecision = true) :
    Justified Disk.effect Disk.Justifies s.disk s.decideAcceptEffects := by
  unfold decideAcceptEffects
  split
  · rw [acceptQuorumEffects, justified_append]
    exact ⟨justified_commitEffects h hawait, (saysNoYes_map_write _).justified _⟩
  · split
    · exact (saysNoYes_roundAbort s false).justified _
    · trivial

theorem justified_dispatch (h : s.Vouched) (e : Event) :
    Justified Disk.effect Disk.Justifies s.disk (s.dispatchEffects e) := by
  have henqueue : ∀ b, SaysNoYes (s.enqueueEffects b) := by
    intro b
    unfold enqueueEffects
    split
    · intro b' hb'
      simp at hb'
    · exact saysNoYes_map_write _
  cases e with
  | input i =>
    cases i with
    | transfer call request => exact (henqueue _).justified _
    | tpcPrepare call request => exact (henqueue _).justified _
    | _ => exact (saysNoYes_map_write _).justified _
  | prepareCall request =>
    refine SaysNoYes.justified ?_ _
    show SaysNoYes (if _ then _ else _)
    split
    · exact saysNoYes_nil
    · split
      · exact saysNoYes_map_write [_]
      · exact saysNoYes_nil
  | acceptCall request =>
    refine SaysNoYes.justified ?_ _
    show SaysNoYes (if _ then _ else _)
    split
    · exact saysNoYes_nil
    · split
      · refine saysNoYes_loop ?_ _ _
        intro l r
        split
        · exact saysNoYes_map_write [_]
        · exact saysNoYes_nil
      · exact saysNoYes_nil
  | prepareReply status request response => exact (saysNoYes_prepareReply s status request response).justified _
  | acceptReply status request response =>
    -- whatever is counted, the batch and the disk are those of `s`
    show Justified _ _ s.disk (if _ then _ else _)
    split
    · trivial
    · rename_i hnot
      have hawait : s.awaitAcceptDecision = true := by simpa using hnot
      split
      · exact justified_decideAccept (s := { s with acceptFailures := s.acceptFailures + 1 })
          ⟨h.ledger, h.proposed⟩ hawait
      · split
        · cases response.ack with
          | true =>
            exact justified_decideAccept (s := { s with acceptSuccesses := s.acceptSuccesses + 1 })
              ⟨h.ledger, h.proposed⟩ hawait
          | false =>
            exact justified_decideAccept (s := { s with acceptFailures := s.acceptFailures + 1 })
              ⟨h.ledger, h.proposed⟩ hawait
        · exact justified_decideAccept h hawait
  | _ => exact (saysNoYes_map_write _).justified _

theorem justified_effects (h : s.Vouched) (e : Event) :
    Justified Disk.effect Disk.Justifies s.disk (s.effects e) :=
  justified_dispatch (s := { s with outbox := [] }) ⟨h.ledger, h.proposed⟩ e

/-! ## The batch in flight -/

/-- The validation has prepared on disk what it has kept of the cross-shard entries. -/
theorem vouches_admitAll {l : Ledger} (hw : l.wal.Ok) (ballot : Ballot) (batch : List BatchEntry) (n : Option Int) :
    ∀ b ∈ (admitAll l ballot batch).kept, b.isCrossShard = true →
      ((admitAll l ballot batch).ledger.disk n).Vouches b := by
  refine (List.foldlRecOn (motive := fun a : Admission => a.ledger.wal.Ok ∧
    ∀ b ∈ a.kept, b.isCrossShard = true → (a.ledger.disk n).Vouches b) batch (validateEntry ballot) (b := ⟨l, [], []⟩)
    ⟨hw, fun b hb => absurd hb List.not_mem_nil⟩ ?_).2
  rintro a ⟨ha, hkept⟩ e -
  unfold validateEntry
  split
  · exact ⟨ha, hkept⟩
  · cases hcross : e.isCrossShard with
    | false =>
      refine ⟨ha, ?_⟩
      intro b hb hbcross
      rcases List.mem_append.mp hb with hold | hnew
      · exact hkept b hold hbcross
      · rw [List.mem_singleton.mp hnew, hcross] at hbcross
        cases hbcross
    | true =>
      have hyields := Ledger.yields_prepareTransaction
        (l := (a.ledger.lockInShard e.request.txn.sender).lockInShard e.request.txn.receiver) ha e.request ballot
      refine ⟨hyields.wal, ?_⟩
      intro b hb hbcross
      dsimp only
      rw [if_pos rfl, ← hyields.disk]
      rcases List.mem_append.mp hb with hold | hnew
      · exact (hkept b hold hbcross).foldl _
      · obtain rfl := List.mem_singleton.mp hnew
        show Disk.Vouches { (a.ledger.disk n) with file := a.ledger.wal.file ++ [_] } b
        rw [Disk.Vouches, if_pos hcross]
        dsimp only
        rw [Recovery.scan_append]
        exact ⟨_, List.mem_append_right _ (List.mem_singleton.mpr rfl), rfl, rfl, rfl, rfl⟩

theorem Core.proposed (h : Core s e t) (hs : s.Vouched) (hkeep : ∀ b, s.disk.Vouches b → t.disk.Vouches b)
    (hawait : t.awaitAcceptDecision = true) : ∀ b ∈ t.current, b.isCrossShard = true → t.disk.Vouches b := by
  cases h with
  | propose a b => exact vouches_admitAll hs.ledger.wal s.promisedNum s.current s.dbBallotNum
  | reject | abortPrepare | commitRound | abortAccept => cases hawait
  | _ => exact fun b hb hcross => hkeep b (hs.proposed hawait b hb hcross)

/-- **The step rule.** -/
theorem Vouched.handle (h : s.Vouched) (e : Event) : (s.handle e).Vouched := by
  have hleads := leads_effects h.ledger.wal e
  have hkeep : ∀ b, s.disk.Vouches b → (s.handle e).disk.Vouches b := by
    intro b hb
    rw [← hleads.disk]
    exact hb.foldl _
  refine ⟨h.ledger.of_applies (handle_applies h.ledger.wal e) (recovers_handle h.ledger.recovers h.ledger.wal e), ?_⟩
  have hclear : ({ s with outbox := [] } : ServerImpl).Vouched := ⟨h.ledger, h.proposed⟩
  intro hawait
  generalize hu : s.handle e = u at hawait hkeep ⊢
  cases moves_of_handle hu with
  | done hcore => exact hcore.proposed hclear hkeep hawait
  | start | retry => cases hawait

/-- A server that starts has proposed nothing, and what it has applied in its life is nothing yet. -/
theorem Vouched.boot (c : Constants) (serverId : Int) (d : Disk) : (boot c serverId d).Vouched where
  ledger :=
    { wal := Recovery.ok_scan _ d.file
      recovers := fun b => (congrArg committedTids ((Recovery.log_scan _ _).trans (Recovery.log_scan b _).symm)).subset
      applied := Finset.empty_subset _ }
  proposed := fun hawait => by cases hawait

end ServerImpl

/-! ## A process that may stop anywhere -/

structure Process where
  server : ServerImpl
  /-- History: all that the clients have been told, in this life of the process and in those before. -/
  told : List (BatchEntry × Bool)

inductive ProcessEvent
  | handle (e : Event)
  /-- The process stops inside the handler, when `k` of its effects are out, and starts again. -/
  | crash (e : Event) (k : Nat)
deriving DecidableEq, Repr

namespace Process

def fresh (c : Constants) (serverId : Int) : Process := { server := .boot c serverId .empty, told := [] }

def step (p : Process) : ProcessEvent → Process
  | .handle e => { server := p.server.handle e, told := p.told ++ (p.server.effects e).filterMap Effect.told }
  | .crash e k =>
    { server := .boot p.server.ledger.constants p.server.serverId
        (((p.server.effects e).take k).foldl Disk.effect p.server.disk)
      told := p.told ++ ((p.server.effects e).take k).filterMap Effect.told }

def run (c : Constants) (serverId : Int) (es : List ProcessEvent) : Process := es.foldl step (fresh c serverId)

/-- What the clients count on is on disk, and they have been told what the server has replied. -/
structure Keeps (p : Process) : Prop where
  vouched : p.server.Vouched
  promises : ∀ b, (b, true) ∈ p.told → p.server.disk.Vouches b
  replies : ∀ r ∈ p.server.replies, ∃ b, (b, r.ack) ∈ p.told ∧ r = replyOf (b, r.ack)

variable {p : Process}

/-- What some justified effects tell is on disk when they are out. -/
theorem Keeps.promises_effects (h : p.Keeps) {fx : List Effect}
    (hfx : Justified Disk.effect Disk.Justifies p.server.disk fx) {b : BatchEntry}
    (hb : (b, true) ∈ p.told ++ fx.filterMap Effect.told) : (fx.foldl Disk.effect p.server.disk).Vouches b := by
  rcases List.mem_append.mp hb with hold | hnew
  · exact (h.promises b hold).foldl fx
  · obtain ⟨w, hw, htold⟩ := List.mem_filterMap.mp hnew
    cases w with
    | write => cases htold
    | answer b' ack =>
      cases htold
      exact hfx.mem (fun _ _ x hd => hd.effect x) hw

theorem Keeps.step (h : p.Keeps) (ev : ProcessEvent) : (p.step ev).Keeps := by
  cases ev with
  | handle e =>
    have hleads := ServerImpl.leads_effects h.vouched.ledger.wal e
    refine ⟨h.vouched.handle e, ?_, ?_⟩
    · intro b hb
      show (p.server.handle e).disk.Vouches b
      rw [← hleads.disk]
      exact h.promises_effects (ServerImpl.justified_effects h.vouched e) hb
    · intro r hr
      have hr' : r ∈ (p.server.handle e).replies := hr
      rw [hleads.replies] at hr'
      rcases List.mem_append.mp hr' with hold | hnew
      · obtain ⟨b, hb, heq⟩ := h.replies r hold
        exact ⟨b, List.mem_append_left _ hb, heq⟩
      · obtain ⟨⟨b, ack⟩, hb, rfl⟩ := List.mem_map.mp hnew
        exact ⟨b, List.mem_append_right _ hb, rfl⟩
  | crash e k =>
    refine ⟨.boot _ _ _, ?_, fun r hr => absurd hr List.not_mem_nil⟩
    intro b hb
    -- the start does not write to the file
    exact h.promises_effects ((ServerImpl.justified_effects h.vouched e).take k) hb

theorem keeps_run (c : Constants) (serverId : Int) (es : List ProcessEvent) : (run c serverId es).Keeps := by
  refine List.foldlRecOn (motive := Keeps) es step ?_ fun p hp ev _ => hp.step ev
  exact ⟨.boot c serverId .empty, fun b hb => absurd hb List.not_mem_nil, fun r hr => absurd hr List.not_mem_nil⟩

end Process

/-! ## After the next start -/

/-- What is read back as prepared is pending, or its decision is read back as well. -/
theorem Recovery.pending_or_decided (b : Int) (file : List WalLine) : ∀ x ∈ (scan b file).log, x.type = .cross →
    x.status = .prepared → (scan b file).transferIndex[x.tid]? ≠ none ∨
      ∃ y ∈ (scan b file).log, y.type = .cross ∧ y.tid = x.tid ∧ (y.status = .committed ∨ y.status = .aborted) := by
  induction file using List.reverseRecOn with
  | nil => exact fun x hx => absurd hx List.not_mem_nil
  | append_singleton file l ih =>
    intro x hx htype hstatus
    rw [scan_append] at hx ⊢
    -- a line after which the tid is indexed as before
    have hkeep : ∀ {r : Recovery}, (scan b file).log <+: r.log →
        r.transferIndex[x.tid]? = (scan b file).transferIndex[x.tid]? → x ∈ (scan b file).log →
        r.transferIndex[x.tid]? ≠ none ∨
          ∃ y ∈ r.log, y.type = .cross ∧ y.tid = x.tid ∧ (y.status = .committed ∨ y.status = .aborted) := by
      intro r hlog hindex hold
      rw [hindex]
      refine (ih x hold htype hstatus).imp_right ?_
      rintro ⟨y, hy, hdecided⟩
      exact ⟨y, hlog.subset hy, hdecided⟩
    have hold : ∀ {y : WALEntry}, (y.type = .cross → y.status ≠ .prepared) → x ∈ (scan b file).log ++ [y] →
        x ∈ (scan b file).log := by
      intro y hy hmem
      refine (List.mem_append.mp hmem).resolve_right fun hnew => ?_
      rw [List.mem_singleton.mp hnew] at htype hstatus
      exact hy htype hstatus
    -- a decision takes its tid out of the index, and is logged
    have hdecide : ∀ {status : TransactionStatus}, (status = .committed ∨ status = .aborted) →
        x ∈ (scan b file).log ++ [l.entry .cross status] →
        ((scan b file).transferIndex.erase l.tid)[x.tid]? ≠ none ∨
          ∃ y ∈ (scan b file).log ++ [l.entry .cross status],
            y.type = .cross ∧ y.tid = x.tid ∧ (y.status = .committed ∨ y.status = .aborted) := by
      intro status hdecided hmem
      by_cases htid : x.tid = l.tid
      · exact .inr ⟨_, List.mem_append_right _ (List.mem_singleton.mpr rfl), rfl, htid.symm, hdecided⟩
      · rw [WAL.getElem?_erase_tid, if_neg htid]
        refine hkeep (r := ⟨_, 0, 0, _⟩) (List.prefix_append _ _) rfl (hold ?_ hmem)
        rintro - hprepared
        rcases hdecided with h | h <;> cases h.symm.trans hprepared
    unfold readLine at hx ⊢
    dsimp only at hx ⊢
    split at hx
    · exact hkeep (List.prefix_append _ _) rfl (hold (fun h => by cases h) hx)
    · exact hkeep (List.prefix_append _ _) rfl (hold (fun h => by cases h) hx)
    · -- the line of a prepare indexes its tid
      show ((scan b file).transferIndex.insert l.tid (file.length : Int))[x.tid]? ≠ none ∨ _
      rw [WAL.getElem?_insert_tid]
      by_cases htid : x.tid = l.tid
      · rw [if_pos htid]
        exact .inl (by simp)
      · rw [if_neg htid]
        refine hkeep (r := ⟨_, 0, 0, _⟩) (List.prefix_append _ _) rfl ?_
        refine (List.mem_append.mp hx).resolve_right fun hnew => htid ?_
        rw [List.mem_singleton.mp hnew]
        rfl
    · exact hdecide (.inl rfl) hx
    · exact hdecide (.inr rfl) hx
    · exact hkeep List.prefix_rfl rfl hx

/-- What a server knows of an entry: an intra-shard one as committed; a cross-shard one as prepared, and as pending
unless its decision is logged too. -/
def ServerImpl.Remembers (s : ServerImpl) (b : BatchEntry) : Prop :=
  if b.isCrossShard then
    (∃ x ∈ s.ledger.log, x.type = .cross ∧ x.status = .prepared ∧ x.tid = b.request.tid ∧ x.txn = b.request.txn) ∧
      (s.ledger.wal.pendingEntry b.request.tid ≠ none ∨
        ∃ y ∈ s.ledger.log, y.type = .cross ∧ y.tid = b.request.tid ∧ (y.status = .committed ∨ y.status = .aborted))
  else b.request.tid ∈ committedTids s.ledger.log

theorem Disk.Vouches.remembers {d : Disk} {b : BatchEntry} (h : d.Vouches b) (c : Constants) (serverId : Int) :
    (ServerImpl.boot c serverId d).Remembers b := by
  have hlog : (ServerImpl.boot c serverId d).ledger.log = (Recovery.scan 0 d.file).log :=
    (Recovery.log_scan _ _).trans (Recovery.log_scan 0 _).symm
  unfold Disk.Vouches at h
  unfold ServerImpl.Remembers
  rw [hlog]
  split
  · rename_i hcross
    rw [if_pos hcross] at h
    refine ⟨h, ?_⟩
    obtain ⟨x, hx, htype, hstatus, htid, -⟩ := h
    rw [← hlog] at hx ⊢
    rw [← htid]
    refine (Recovery.pending_or_decided _ d.file x hx htype hstatus).imp_left ?_
    intro hindex hnone
    have hnot : (ServerImpl.boot c serverId d).ledger.wal.transferIndex[x.tid]? = none := by
      simpa [WAL.pendingEntry] using hnone
    exact hindex hnot
  · rename_i hintra
    rw [if_neg hintra] at h
    exact h

/-- **Durability.**  Let a server handle any events, and stop at any points inside their handlers any number of times.
Whatever it has ever answered with yes, it knows of after its next start: a transfer as committed, and a prepared
transaction as prepared, and pending unless decided.  And the answers it has given in its present life are among those
it has given. -/
theorem acknowledged_survives (c : Constants) (serverId : Int) (es : List ProcessEvent) :
    (∀ b, (b, true) ∈ (Process.run c serverId es).told → (Process.run c serverId es).server.restart.Remembers b) ∧
      ∀ r ∈ (Process.run c serverId es).server.replies, ∃ b, (b, r.ack) ∈ (Process.run c serverId es).told ∧
        r = replyOf (b, r.ack) := by
  have hkeeps := Process.keeps_run c serverId es
  exact ⟨fun b hb => (hkeeps.promises b hb).remembers _ _, hkeeps.replies⟩

/-- Server 1 commits a transfer, has a prepare accepted, and stops as soon as the yes to it is out.  Told to commit what
it has prepared, it stops again, between the line of the commit and the put of the balance. -/
def stoppedTwice : List ProcessEvent :=
  [.handle (.input (.transfer 0 ⟨⟨1, 2, 3⟩, 11⟩)),
   .handle (.prepareReply .ok ⟨⟨1, 1⟩, -1⟩ (ServerImpl.plainPrepareRes true ⟨1, 1⟩)),
   .handle (.input (.tpcPrepare 1 ⟨⟨3, 1001, 5⟩, 12⟩)), .handle (.acceptReply .ok ⟨⟨1, 1⟩, []⟩ ⟨true, ⟨1, 1⟩⟩),
   .handle (.prepareReply .ok ⟨⟨2, 1⟩, 0⟩ (ServerImpl.plainPrepareRes true ⟨2, 1⟩)),
   .crash (.acceptReply .ok ⟨⟨2, 1⟩, []⟩ ⟨true, ⟨2, 1⟩⟩) 1, .crash (.input (.tpcDecision 12 true)) 1]

example : ((Process.run ⟨3, 3⟩ 1 stoppedTwice).told.map fun p => (p.1.request.tid, p.2)) = [(11, true), (12, true)] ∧
    (Process.run ⟨3, 3⟩ 1 stoppedTwice).server.ledger.log.map (fun x => (x.tid, x.status)) =
      [(11, .committed), (12, .prepared), (12, .committed)] ∧
    (Process.run ⟨3, 3⟩ 1 stoppedTwice).server.ledger.balances 3 = 10 := by
  decide +kernel

end MultiPaxosDB
