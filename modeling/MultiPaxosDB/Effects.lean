/-
# MultiPaxosDB.Effects — what a handler lets out, and what a stop leaves of it.

One transfer is a line of the WAL and two LevelDB puts, written one after the other; batches and syncs chain many of
them, with answers to the clients in between.  `effects` lists all that the handler of an event lets out, in program
order, and the list is complete (`leads_effects`): its writes take the disk to that of the state the handler leaves, and
its answers are the replies that the handler adds.

The process may stop anywhere in the list.  Between two transfers the disk is that of a ledger that has `Records` of
every line; inside one, the puts still missing are due what the last line says (`Disk.due`, `Stops`).
-/
import MultiPaxosDB.Lib.Cuts
import MultiPaxosDB.Applications
import MultiPaxosDB.Locks
import MultiPaxosDB.Recovery

namespace MultiPaxosDB

open Lib

/-! ## Durable writes -/

/-- One durable write: a line of the WAL, or a LevelDB put. -/
inductive Write
  | append (line : WalLine)
  | putBalance (account : Int) (balance : Int32)
  | putBallotNum (num : Int)
deriving DecidableEq, Repr

/-- The put of a balance, which belongs to the line written before it. -/
def Write.isPut : Write → Bool
  | .putBalance _ _ => true
  | _ => false

def Disk.write (d : Disk) : Write → Disk
  | .append line => { d with file := d.file ++ [line] }
  | .putBalance account balance => { d with balances := Function.update d.balances account (some balance) }
  | .putBallotNum num => { d with ballotNum := some num }

namespace Ledger

/-- The put of `applyInShard`. -/
def applyWrites (l : Ledger) (firstApply : Bool) (clientId delta : Int) : List Write :=
  if firstApply && l.isClientInCluster clientId then [.putBalance clientId (l.balances clientId + .ofInt delta)] else []

/-- The puts for both sides of a transaction, the second after the first has moved. -/
def settleWrites (l : Ledger) (firstApply : Bool) (txn : Transaction) : List Write :=
  l.applyWrites firstApply txn.sender (-txn.amount) ++
    (l.applyInShard firstApply txn.sender (-txn.amount)).applyWrites firstApply txn.receiver txn.amount

/-- The writes of `commitTransaction`: both puts save what both moves have left. -/
def commitWrites (l : Ledger) (request : TransferReq) (ballot : Ballot) : List Write :=
  if request.tid ∈ l.balanceApplied then []
  else
    [.append { op := .inCommit, tid := request.tid, ballotNum := ballot.num, ballotServerId := ballot.serverId,
               txn := request.txn },
     .putBalance request.txn.sender ((l.commitTransaction request ballot).balances request.txn.sender),
     .putBalance request.txn.receiver ((l.commitTransaction request ballot).balances request.txn.receiver)]

/-- The writes of `processTpcDecision`. -/
def decisionWrites (l : Ledger) (tid : Int) (isCommit : Bool) : List Write :=
  match l.wal.transferIndex[tid]? with
  | none => []
  | some position =>
    let txn := l.wal.getTransactionFromFile position
    .append { op := .keyed .cross (decisionStatus isCommit), tid := tid, ballotNum := txn.ballotNum,
              ballotServerId := txn.ballotServerId, txn := txn.txn } ::
      if txn.tid ≠ -1 then l.settleWrites (isCommit && decide (txn.tid ∉ l.balanceApplied)) txn.txn else []

/-- The writes of the loop body of `handleSyncReply`. -/
def insertWrites (l : Ledger) (entry : WALEntry) : List Write :=
  .append { op := .keyed entry.type entry.status, tid := entry.tid, ballotNum := entry.ballotNum,
            ballotServerId := entry.ballotServerId, txn := entry.txn } ::
    l.settleWrites (decide (entry.status = .committed) && decide (entry.tid ∉ l.balanceApplied)) entry.txn

/-- The writes of a loop: those of its body, turn by turn. -/
def loopWrites {α : Type} (body : Ledger → α → Ledger) (writes : Ledger → α → List Write) :
    Ledger → List α → List Write
  | _, [] => []
  | l, x :: xs => writes l x ++ loopWrites body writes (body l x) xs

end Ledger

namespace ServerImpl

open Ledger (loopWrites)

/-- The put of `maybeStartRound`. -/
def startWrites (s : ServerImpl) : List Write :=
  if s.isPaxosRunning || s.inSync || s.pending.isEmpty then [] else [.putBallotNum (s.ballotNum + 1)]

/-- The writes of `processCommitCall`. -/
def commitCallWrites (s : ServerImpl) (request : CommitReq) : List Write :=
  if s.iAmDisconnected then []
  else if s.commits request then
    loopWrites (commitAccepted s.acceptNum)
      (fun l r => if intraHere l r.txn then
        ((l.unlockInShard r.txn.sender).unlockInShard r.txn.receiver).commitWrites r s.acceptNum else [])
      s.ledger s.acceptBatch
  else []

/-- The put at the end of `handleSyncReply`, if a round goes on or starts. -/
def resumeWrites (s : ServerImpl) : List Write :=
  if !s.current.isEmpty then [.putBallotNum (s.ballotNum + 1)] else startWrites { s with inSync := false }

/-- The writes of `handleSyncReply`. -/
def syncReplyWrites (s : ServerImpl) (status : Status) (response : SyncRes) : List Write :=
  if status = .ok && response.ack then
    loopWrites Ledger.insertSynced Ledger.insertWrites s.ledger (response.logs.map LogEntry.toWALEntry) ++
      .putBallotNum response.lastInsertedBallot.num :: (s.applySync response).resumeWrites
  else s.resumeWrites

/-- The durable writes of the handlers that answer no client. -/
def moneyWrites (s : ServerImpl) : Event → List Write
  | .input (.tpcDecision tid isCommit) => if s.iAmDisconnected then [] else s.ledger.decisionWrites tid isCommit
  | .input .sweep =>
    loopWrites (fun l tid => l.processTpcDecision tid false) (fun l tid => l.decisionWrites tid false) s.ledger
      s.ledger.expired
  | .commitCall request => s.commitCallWrites request
  | .syncReply status response => s.syncReplyWrites status response
  | _ => []

end ServerImpl

/-! ## What a handler lets out -/

inductive Effect
  | write (w : Write)
  | answer (b : BatchEntry) (ack : Bool)
deriving DecidableEq, Repr

/-- What the client of an entry has been told. -/
def Effect.told : Effect → Option (BatchEntry × Bool)
  | .write _ => none
  | .answer b ack => some (b, ack)

/-- The reply of an answer. -/
def replyOf (p : BatchEntry × Bool) : TransferRes := { call := p.1.call, ack := p.2, tid := p.1.request.tid }

def Effect.isPut : Effect → Bool
  | .write w => w.isPut
  | .answer _ _ => false

def Disk.effect (d : Disk) : Effect → Disk
  | .write w => d.write w
  | .answer _ _ => d

/-- The line of `WAL::prepareTransaction`. -/
def prepareWrite (request : TransferReq) (ballot : Ballot) : Write :=
  .append { op := .keyed .cross .prepared, tid := request.tid, ballotNum := ballot.num,
            ballotServerId := ballot.serverId, txn := request.txn }

/-- The effects of a loop: those of its body, turn by turn. -/
def loopEffects {α : Type} (body : Ledger → α → Ledger) (effects : Ledger → α → List Effect) :
    Ledger → List α → List Effect
  | _, [] => []
  | l, x :: xs => effects l x ++ loopEffects body effects (body l x) xs

namespace ServerImpl

def startEffects (s : ServerImpl) : List Effect := s.startWrites.map .write

/-- The effects of `enqueueClientTxn`. -/
def enqueueEffects (s : ServerImpl) (b : BatchEntry) : List Effect :=
  if s.iAmDisconnected then [.answer b false] else startEffects { s with pending := s.pending ++ [b] }

/-- The effects of the validation loop, entry by entry: a no, or the line of a prepare. -/
def validateEffects (s : ServerImpl) : List Effect :=
  loopEffects (fun l e => (validateEntry s.promisedNum ⟨l, [], []⟩ e).ledger)
    (fun l e => if rejects l e.request.txn then [.answer e false]
      else if e.isCrossShard then [.write (prepareWrite e.request s.promisedNum)] else [])
    s.ledger s.current

/-- The effects of `onPrepareQuorum`. -/
def prepareQuorumEffects (s : ServerImpl) : List Effect :=
  s.validateEffects ++ if s.validate.current.isEmpty then s.validate.clearRound.startEffects else []

/-- The effects of the commit loop, entry by entry: the writes of an intra-shard commit, then the yes. -/
def commitEffects (s : ServerImpl) : List Effect :=
  loopEffects (commitEntry s.acceptNum)
    (fun l e => (if e.isCrossShard then []
      else ((l.unlockBoth e.request.txn).commitWrites e.request s.acceptNum).map .write) ++ [.answer e true])
    s.ledger s.current

/-- The effects of `onAcceptQuorum`. -/
def acceptQuorumEffects (s : ServerImpl) : List Effect := s.commitEffects ++ s.commitRound.clearRound.startEffects

/-- The effects of `onRoundAbort`. -/
def roundAbortEffects (s : ServerImpl) (preparePhase : Bool) : List Effect :=
  s.current.map (.answer · false) ++ (s.abortRound preparePhase).clearRound.startEffects

def decidePrepareEffects (s : ServerImpl) : List Effect :=
  if majority ≤ s.prepareSuccesses then s.prepareQuorumEffects
  else if majority ≤ s.prepareFailures then s.roundAbortEffects true
  else []

def countPrepareEffects (s : ServerImpl) (response : PrepareRes) : List Effect :=
  let counted := if response.ack then { s with prepareSuccesses := s.prepareSuccesses + 1 }
    else { s with prepareFailures := s.prepareFailures + 1 }
  match response.latestBallotNum with
  -- `persistBallotNum` runs twice, here and in `reissuePrepareForCurrent`
  | some latest => [.write (.putBallotNum latest), .write (.putBallotNum (latest + 1))]
  | none =>
    match response.paxosIndex with
    | some index => if index > counted.ledger.paxosIndex then [] else counted.decidePrepareEffects
    | none => counted.decidePrepareEffects

/-- The effects of `handlePrepareReply`. -/
def prepareReplyEffects (s : ServerImpl) (status : Status) (request : PrepareReq) (response : PrepareRes) :
    List Effect :=
  if !s.awaitPrepareDecision then []
  else if status = .deadlineExceeded && s.answersPrepare request.ballot then
    decidePrepareEffects { s with prepareFailures := s.prepareFailures + 1 }
  else if status = .ok && s.answersPrepare response.ballot then s.countPrepareEffects response
  else s.decidePrepareEffects

def decideAcceptEffects (s : ServerImpl) : List Effect :=
  if majority ≤ s.acceptSuccesses then s.acceptQuorumEffects
  else if majority ≤ s.acceptFailures then s.roundAbortEffects false
  else []

/-- The effects of `handleAcceptReply`. -/
def acceptReplyEffects (s : ServerImpl) (status : Status) (request : AcceptReq) (response : AcceptRes) : List Effect :=
  if !s.awaitAcceptDecision then []
  else if status = .deadlineExceeded && s.answersAccept request.ballot then
    decideAcceptEffects { s with acceptFailures := s.acceptFailures + 1 }
  else if status = .ok && s.answersAccept response.ballot then
    decideAcceptEffects (if response.ack then { s with acceptSuccesses := s.acceptSuccesses + 1 }
      else { s with acceptFailures := s.acceptFailures + 1 })
  else s.decideAcceptEffects

/-- The effects of `processPrepareCall`. -/
def prepareCallEffects (s : ServerImpl) (request : PrepareReq) : List Effect :=
  if s.iAmDisconnected then []
  else if s.promises request then [.write (.putBallotNum request.ballot.num)] else []

/-- The effects of `processAcceptCall`. -/
def acceptCallEffects (s : ServerImpl) (request : AcceptReq) : List Effect :=
  if s.iAmDisconnected then []
  else if s.accepts request then
    loopEffects (acceptEntry request.ballot)
      (fun l r => if crossHere l r.txn then [.write (prepareWrite r request.ballot)] else []) s.ledger request.batch
  else []

def dispatchEffects (s : ServerImpl) : Event → List Effect
  | .input (.transfer call request) => s.enqueueEffects { request := request, call := call, isCrossShard := false }
  | .input (.tpcPrepare call request) => s.enqueueEffects { request := request, call := call, isCrossShard := true }
  | .prepareCall request => s.prepareCallEffects request
  | .acceptCall request => s.acceptCallEffects request
  | .prepareReply status request response => s.prepareReplyEffects status request response
  | .acceptReply status request response => s.acceptReplyEffects status request response
  | e => (s.moneyWrites e).map .write

/-- What the handler of an event lets out. -/
def effects (s : ServerImpl) (e : Event) : List Effect := dispatchEffects { s with outbox := [] } e

end ServerImpl

/-! ## What a stop leaves -/

/-- What puts of a line that are still missing, for these accounts, were to add to an account. -/
def WalLine.due (line : WalLine) (missing : List Int) (a : Int) : Int :=
  if a ∈ missing then
    -- of a decision or a synced commit from an account to itself, the first put has saved the debit
    if line.op ≠ .inCommit ∧ line.txn.sender = line.txn.receiver ∧ missing.length = 1 then line.txn.amount
    else line.txn.effect a
  else 0

/-- The account of a put. -/
def Effect.account : Effect → Option Int
  | .write (.putBalance account _) => some account
  | _ => none

/-- What the puts `rest` were to add to an account, for the last line on disk. -/
def Disk.due (d : Disk) (rest : List Effect) (a : Int) : Int :=
  match d.file.getLast? with
  | some line => line.due (rest.filterMap Effect.account) a
  | none => 0

/-- Puts leave the file as it is. -/
theorem Disk.file_foldl_puts {puts : List Effect} (h : ∀ x ∈ puts, x.isPut = true) {d : Disk} :
    (puts.foldl Disk.effect d).file = d.file := by
  refine List.foldlRecOn (motive := fun d' : Disk => d'.file = d.file) puts Disk.effect (b := d) rfl ?_
  intro d' hd' x hx
  match x with
  | .write (.putBalance _ _) => exact hd'
  | .write (.append _) | .write (.putBallotNum _) | .answer _ _ => exact absurd (h _ hx) Bool.false_ne_true

@[simp]
theorem Disk.due_nil (d : Disk) (a : Int) : d.due [] a = 0 := by
  unfold due
  split
  · simp [WalLine.due]
  · rfl

theorem Disk.due_concat {d : Disk} {file : List WalLine} {line : WalLine} (h : d.file = file ++ [line])
    (rest : List Effect) (a : Int) : d.due rest a = line.due (rest.filterMap Effect.account) a := by
  rw [due, h, List.getLast?_concat]

/-- The COMMITTED entries of a log. -/
def commits (log : List WALEntry) : List WALEntry := log.filter fun e => decide (e.status = .committed)

theorem commits_append (log new : List WALEntry) : commits (log ++ new) = commits log ++ commits new :=
  List.filter_append log new

namespace Ledger

variable {l l' l'' : Ledger}

/-- What of a ledger is on disk, with a saved ballot number. -/
def disk (l : Ledger) (b : Option Int) : Disk := { file := l.wal.file, balances := l.dbBalances, ballotNum := b }

/-- The ledger `l` has become `l'`, and its file has the commits that it has logged. -/
structure Records (l l' : Ledger) : Prop where
  constants : l'.constants = l.constants
  clusterId : l'.clusterId = l.clusterId
  saved : l.Saved → l'.Saved
  /-- A decision on the tid `-1` is written, and neither logged nor settled. -/
  booked : ∃ new lines, l.Applies new l' ∧ l'.wal.file = l.wal.file ++ lines ∧
    ((∀ x ∈ lines, x.tid ≠ -1) → commits (lines.filterMap WalLine.recovered) = commits new)

theorem Records.wal (h : l.Records l') : l'.wal.Ok := by
  obtain ⟨_, _, happlies, -, -⟩ := h.booked
  exact happlies.wal

theorem Records.frame (hw : l.wal.Ok) (hf : l.Frame l') : l.Records l' where
  constants := hf.constants
  clusterId := hf.clusterId
  saved := fun h => h.frame hf
  booked := ⟨[], [], .frame hw hf, by rw [hf.wal, List.append_nil], fun _ => rfl⟩

theorem Records.trans (h : l.Records l') (h' : l'.Records l'') : l.Records l'' where
  constants := h'.constants.trans h.constants
  clusterId := h'.clusterId.trans h.clusterId
  saved := fun hs => h'.saved (h.saved hs)
  booked := by
    obtain ⟨new, lines, happlies, hfile, hcommits⟩ := h.booked
    obtain ⟨new', lines', happlies', hfile', hcommits'⟩ := h'.booked
    refine ⟨new ++ new', lines ++ lines', happlies.trans happlies', by rw [hfile', hfile, List.append_assoc], ?_⟩
    intro htids
    rw [List.filterMap_append, commits_append, commits_append, hcommits fun x hx => htids x (List.mem_append_left _ hx),
      hcommits' fun x hx => htids x (List.mem_append_right _ hx)]

/-- One operation, and the line it writes. -/
theorem Records.line {new : List WALEntry} {line : WalLine} (hconst : l'.constants = l.constants)
    (hcluster : l'.clusterId = l.clusterId) (hsaved : l.Saved → l'.Saved) (happlies : l.Applies new l')
    (hfile : l'.wal.file = l.wal.file ++ [line])
    (hcommits : line.tid ≠ -1 → commits line.recovered.toList = commits new) : l.Records l' where
  constants := hconst
  clusterId := hcluster
  saved := hsaved
  booked := by
    refine ⟨new, [line], happlies, hfile, fun htids => ?_⟩
    rw [← hcommits (htids line (List.mem_singleton_self line)), List.filterMap_cons]
    cases line.recovered <;> rfl

/-- The process may stop with `d` on disk and the puts `rest` missing: they are due what the last line says, and with
them the disk is that of a ledger that `l` has become. -/
def Stops (l : Ledger) (d : Disk) (rest : List Effect) : Prop :=
  ∃ m b, l.Records m ∧ rest.foldl Disk.effect d = m.disk b ∧
    (l.Saved → ∀ a, isShardClient l.constants l.clusterId a →
      ∃ v, d.balances a = some v ∧ m.dbBalances a = some (v + .ofInt (d.due rest a)))

theorem Stops.of_records {d : Disk} {rest : List Effect} (h : l.Records l') (h' : l'.Stops d rest) :
    l.Stops d rest := by
  obtain ⟨m, b, hrecords, hdisk, hdue⟩ := h'
  refine ⟨m, b, h.trans hrecords, hdisk, fun hs a ha => hdue (h.saved hs) a ?_⟩
  rw [h.constants, h.clusterId]
  exact ha

/-- Nothing is missing. -/
theorem Records.stops (h : l.Records l') (b : Option Int) : l.Stops (l'.disk b) [] := by
  refine ⟨l', b, h, rfl, ?_⟩
  intro hs a ha
  have hsaved := h.saved hs a (by rw [h.constants, h.clusterId]; exact ha)
  exact ⟨l'.balances a, hsaved, by rw [hsaved, Disk.due_nil, add_ofInt_zero]⟩

end Ledger

/-! ## Nothing is left out -/

theorem foldl_effect_map_write (ws : List Write) (d : Disk) :
    (ws.map Effect.write).foldl Disk.effect d = ws.foldl Disk.write d := by
  rw [List.foldl_map]
  rfl

theorem filterMap_told_map_write (ws : List Write) : (ws.map Effect.write).filterMap Effect.told = [] := by
  simp [List.filterMap_map, Effect.told, Function.comp_def]

theorem loopEffects_map_write {α : Type} (body : Ledger → α → Ledger) (writes : Ledger → α → List Write) (l : Ledger)
    (xs : List α) : (Ledger.loopWrites body writes l xs).map Effect.write =
      loopEffects body (fun l x => (writes l x).map .write) l xs := by
  induction xs generalizing l with
  | nil => rfl
  | cons x xs ih => rw [Ledger.loopWrites, List.map_append, ih, loopEffects]

namespace Ledger

variable {l l' l'' : Ledger} {fx fx' : List Effect}

/-- The effects take what is on disk of `l` to what is on disk of `l'`, wherever they stop on the way. -/
structure Yields (l : Ledger) (fx : List Effect) (l' : Ledger) : Prop where
  records : l.Records l'
  disk : ∀ b, fx.foldl Disk.effect (l.disk b) = l'.disk b
  cuts : ∀ b, GoodBlocks Disk.effect Effect.isPut l.Stops (l.disk b) fx

theorem Yields.wal (h : l.Yields fx l') : l'.wal.Ok := h.records.wal

theorem Yields.frame (hw : l.wal.Ok) (hf : l.Frame l') : l.Yields [] l' where
  records := .frame hw hf
  disk := fun b => by rw [List.foldl_nil, Ledger.disk, Ledger.disk, hf.wal, hf.dbBalances]
  cuts := fun b => .nil ((Records.frame hw (.touch _ _ _)).stops b)

theorem Yields.refl (hw : l.wal.Ok) : l.Yields [] l := .frame hw (.touch _ _ _)

theorem Yields.trans (h : l.Yields fx l') (h' : l'.Yields fx' l'') : l.Yields (fx ++ fx') l'' where
  records := h.records.trans h'.records
  disk := fun b => by rw [List.foldl_append, h.disk, h'.disk]
  cuts := by
    intro b
    refine (h.cuts b).append ?_
    rw [h.disk]
    exact (h'.cuts b).mono fun _ _ => .of_records h.records

/-- One line, and the puts that belong to it. -/
theorem Yields.block (hw : l.wal.Ok) {line : WalLine} {puts : List Effect} (hrecords : l.Records l')
    (hputs : ∀ x ∈ puts, x.isPut = true)
    (hdisk : ∀ b, (.write (.append line) :: puts).foldl Disk.effect (l.disk b) = l'.disk b)
    (hdue : ∀ b done rest, done ++ rest = puts → rest ≠ [] → l.Saved →
      ∀ a, isShardClient l.constants l.clusterId a →
        ∃ v, (done.foldl Disk.effect ((l.disk b).write (.append line))).balances a = some v ∧
          l'.dbBalances a = some (v + .ofInt (line.due (rest.filterMap Effect.account) a))) :
    l.Yields (.write (.append line) :: puts) l' where
  records := hrecords
  disk := hdisk
  cuts := by
    intro b
    refine .block ((Records.frame hw (.touch _ _ _)).stops b) rfl hputs ?_
    intro done rest hall
    have hwhole : (done ++ rest).foldl Disk.effect ((l.disk b).write (.append line)) = l'.disk b := by
      rw [hall]
      exact hdisk b
    by_cases hrest : rest = []
    · rw [hrest, List.append_nil] at hwhole
      rw [hrest, show Disk.effect (l.disk b) (.write (.append line)) = (l.disk b).write (.append line) from rfl, hwhole]
      exact hrecords.stops b
    · refine ⟨l', b, hrecords, ?_, ?_⟩
      · rw [← List.foldl_append]
        exact hwhole
      intro hs a ha
      have hfile : (done.foldl Disk.effect ((l.disk b).write (.append line))).file = l.wal.file ++ [line] :=
        Disk.file_foldl_puts fun x hx => hputs x (hall ▸ List.mem_append_left _ hx)
      obtain ⟨v, hv, hdue⟩ := hdue b done rest hall hrest hs a ha
      refine ⟨v, hv, ?_⟩
      rw [hdue]
      exact congrArg (fun z => some (v + .ofInt z)) (Disk.due_concat hfile rest a).symm

/-- An answer leaves the disk alone. -/
theorem Yields.answer (h : l.Yields fx l') (b : BatchEntry) (ack : Bool) : l.Yields (fx ++ [.answer b ack]) l' := by
  have hsilent : l'.Yields [.answer b ack] l' := by
    have hself : l'.Records l' := .frame h.wal (.touch _ _ _)
    refine ⟨hself, fun _ => rfl, fun n => .block (hself.stops n) rfl (by simp) ?_⟩
    intro done rest hall
    obtain ⟨rfl, rfl⟩ := List.append_eq_nil_iff.mp hall
    exact hself.stops n
  exact h.trans hsilent

theorem Yields.answers (h : l.Yields fx l') (bs : List BatchEntry) (ack : Bool) :
    l.Yields (fx ++ bs.map (.answer · ack)) l' := by
  induction bs generalizing fx with
  | nil => simpa using h
  | cons b bs ih => simpa using ih (h.answer b ack)

theorem Yields.loop {α : Type} {body : Ledger → α → Ledger} {effects : Ledger → α → List Effect} {xs : List α}
    (hw : l.wal.Ok) (h : ∀ x ∈ xs, ∀ l' : Ledger, l'.wal.Ok → l'.Yields (effects l' x) (body l' x)) :
    l.Yields (loopEffects body effects l xs) (xs.foldl body l) := by
  induction xs generalizing l with
  | nil => exact .refl hw
  | cons x xs ih =>
    have hturn := h x List.mem_cons_self l hw
    exact hturn.trans (ih hturn.wal fun y hy => h y (List.mem_cons_of_mem x hy))

theorem yields_prepareTransaction (hw : l.wal.Ok) (request : TransferReq) (ballot : Ballot) :
    l.Yields [.write (prepareWrite request ballot)] (l.prepareTransaction request ballot) := by
  have hfile : (l.prepareTransaction request ballot).wal.file = l.wal.file ++
      [{ op := .keyed .cross .prepared, tid := request.tid, ballotNum := ballot.num,
         ballotServerId := ballot.serverId, txn := request.txn }] := if_pos hw.canWrite
  refine .block hw ?_ (by simp) ?_ ?_
  · exact .line rfl rfl id ((LedgerOp.prepare request ballot).applies hw) hfile fun _ => rfl
  · intro b
    show Disk.mk _ _ b = Disk.mk (l.prepareTransaction request ballot).wal.file _ b
    rw [hfile]
    rfl
  · exact fun b done rest hall hrest => absurd (List.append_eq_nil_iff.mp hall).2 hrest

/-! ### Intra-shard commits -/

theorem dbBalances_commitTransaction (hw : l.wal.Ok) {request : TransferReq}
    (hnew : request.tid ∉ l.balanceApplied) (ballot : Ballot) : (l.commitTransaction request ballot).dbBalances =
      Function.update (Function.update l.dbBalances request.txn.sender
        (some ((l.commitTransaction request ballot).balances request.txn.sender))) request.txn.receiver
        (some ((l.commitTransaction request ballot).balances request.txn.receiver)) := by
  simp only [Ledger.commitTransaction, if_neg hnew, hw.commitTransaction_eq]
  rfl

theorem yields_commitTransaction (hw : l.wal.Ok) (request : TransferReq) (ballot : Ballot) :
    l.Yields ((l.commitWrites request ballot).map .write) (l.commitTransaction request ballot) := by
  unfold commitWrites
  split
  · rename_i hold
    rw [commitTransaction_applied ballot hold]
    exact .refl hw
  · rename_i hnew
    have hfile := file_commitTransaction hw hnew ballot
    have hsaved := fun h : l.Saved => h.commitTransaction request ballot
    have hbalance := balances_commitTransaction hnew hw.canWrite ballot
    refine .block hw ?_ (by simp [Effect.isPut, Write.isPut]) ?_ ?_
    · refine .line (constants_commitTransaction l request ballot) (clusterId_commitTransaction l request ballot) hsaved
        (applies_commit hw request ballot) hfile fun _ => ?_
      rw [LedgerOp.entries, if_neg hnew]
      rfl
    · intro b
      show Disk.mk _ _ b = Disk.mk _ _ b
      rw [hfile, dbBalances_commitTransaction hw hnew]
      rfl
    · -- both puts save what both moves have left, so each account is saved by its first put
      intro b done rest hall hrest hs a ha
      have hdone : (l.commitTransaction request ballot).dbBalances a =
          some (l.balances a + .ofInt (request.txn.effect a)) := by
        rw [hsaved hs a (by simpa using ha), hbalance]
      have hother : a ≠ request.txn.sender → a ≠ request.txn.receiver → request.txn.effect a = 0 := by
        intro hsender hreceiver
        simp [Transaction.effect, Ne.symm hsender, Ne.symm hreceiver]
      rcases done with _ | ⟨x, _ | ⟨y, done⟩⟩
      · refine ⟨l.balances a, hs a ha, hdone.trans ?_⟩
        obtain rfl : rest = _ := hall
        by_cases hmem : a = request.txn.sender ∨ a = request.txn.receiver
        · simp [WalLine.due, Effect.account, hmem]
        · rw [not_or] at hmem
          simp [WalLine.due, Effect.account, hmem, hother hmem.1 hmem.2]
      · obtain ⟨rfl, rfl⟩ := List.cons.inj hall
        by_cases hsender : a = request.txn.sender
        · refine ⟨_, by rw [hsender]; exact Function.update_self .., hdone.trans ?_⟩
          rw [hbalance, ← hsender]
          by_cases hreceiver : a = request.txn.receiver
          · simp [WalLine.due, Effect.account, Transaction.effect, ← hsender, ← hreceiver]
          · simp [WalLine.due, Effect.account, hreceiver]
        · refine ⟨l.balances a, (Function.update_of_ne hsender ..).trans (hs a ha), hdone.trans ?_⟩
          by_cases hreceiver : a = request.txn.receiver
          · simp [WalLine.due, Effect.account, hreceiver]
          · simp [WalLine.due, Effect.account, hreceiver, hother hsender hreceiver]
      · have hlength := congrArg List.length hall
        simp only [List.cons_append, List.length_cons, List.length_append, List.map_cons, List.map_nil,
          List.length_nil] at hlength
        exact absurd (List.length_eq_zero_iff.mp (by omega)) hrest

/-! ### Settlements -/

theorem isPut_settleWrites {firstApply : Bool} {txn : Transaction} :
    ∀ x ∈ (l.settleWrites firstApply txn).map Effect.write, x.isPut = true := by
  have hone : ∀ (l : Ledger) (a delta : Int), ∀ w ∈ l.applyWrites firstApply a delta, w.isPut = true := by
    intro l a delta w hw
    unfold applyWrites at hw
    split at hw
    · rw [List.mem_singleton.mp hw]
      rfl
    · cases hw
  intro x hx
  obtain ⟨w, hw, rfl⟩ := List.mem_map.mp hx
  rcases List.mem_append.mp hw with hsender | hreceiver
  · exact hone _ _ _ w hsender
  · exact hone _ _ _ w hreceiver

theorem foldl_applyWrites (l : Ledger) (firstApply : Bool) (a delta : Int) (d : Disk) (hd : d.balances = l.dbBalances) :
    (l.applyWrites firstApply a delta).foldl Disk.write d =
      { d with balances := (l.applyInShard firstApply a delta).dbBalances } := by
  unfold applyWrites applyInShard
  dsimp only
  split
  · rw [List.foldl_cons, List.foldl_nil, Disk.write, hd]
  · rw [List.foldl_nil, ← hd]

theorem foldl_settleWrites (l : Ledger) (firstApply : Bool) (txn : Transaction) (d : Disk)
    (hd : d.balances = l.dbBalances) : ((l.settleWrites firstApply txn).map Effect.write).foldl Disk.effect d =
      { d with balances := ((l.applyInShard firstApply txn.sender (-txn.amount)).applyInShard firstApply txn.receiver
        txn.amount).dbBalances } := by
  rw [foldl_effect_map_write, settleWrites, List.foldl_append, foldl_applyWrites l _ _ _ _ hd,
    foldl_applyWrites _ _ _ _ _ rfl]

theorem applyWrites_true (l : Ledger) (a delta : Int) : l.applyWrites true a delta =
    if l.isClientInCluster a then [.putBalance a (l.balances a + .ofInt delta)] else [] := rfl

/-- With no put made, the accounts of the shard are due the effect of the line. -/
theorem due_both {shard : Int → Bool} {a : Int} (ha : shard a = true) (line : WalLine) :
    line.due ([line.txn.sender, line.txn.receiver].filter shard) a = line.txn.effect a := by
  unfold WalLine.due
  split
  · refine if_neg ?_
    rintro ⟨-, hself, hlength⟩
    rw [hself] at hlength
    cases hr : shard line.txn.receiver <;> simp [hr] at hlength
  · rename_i hmissing
    simp only [List.mem_filter, List.mem_cons, List.not_mem_nil, or_false, ha, and_true, not_or] at hmissing
    simp [Transaction.effect, Ne.symm hmissing.1, Ne.symm hmissing.2]

/-- What the puts of a settlement are due, when some of them are missing. -/
theorem due_settleWrites (txn : Transaction) (hs : l.Saved) {a : Int} (ha : isShardClient l.constants l.clusterId a)
    {line : WalLine} (hop : line.op ≠ .inCommit) (htxn : line.txn = txn) {firstApply : Bool} {d : Disk}
    (hd : d.balances = l.dbBalances) {done rest : List Effect}
    (hall : done ++ rest = (l.settleWrites firstApply txn).map .write) (hrest : rest ≠ []) :
    ∃ v, (done.foldl Disk.effect d).balances a = some v ∧
      ((l.applyInShard firstApply txn.sender (-txn.amount)).applyInShard firstApply txn.receiver
        txn.amount).dbBalances a = some (v + .ofInt (line.due (rest.filterMap Effect.account) a)) := by
  subst htxn
  cases firstApply with
  | false =>
    have hnone : done ++ rest = [] := hall
    exact absurd (List.append_eq_nil_iff.mp hnone).2 hrest
  | true =>
    have hin : l.isClientInCluster a = true := ha.2.2
    have hdone : ((l.applyInShard true line.txn.sender (-line.txn.amount)).applyInShard true line.txn.receiver
        line.txn.amount).dbBalances a = some (l.balances a + .ofInt (line.txn.effect a)) := by
      rw [((hs.applyInShard true _ _).applyInShard true _ _) a ha, balances_applyBoth hin, if_pos rfl]
    have hshard : (l.applyInShard true line.txn.sender (-line.txn.amount)).isClientInCluster =
      l.isClientInCluster := rfl
    rw [settleWrites, applyWrites_true, applyWrites_true, hshard] at hall
    rcases done with _ | ⟨x, done⟩
    · refine ⟨l.balances a, by rw [List.foldl_nil, hd]; exact hs a ha, hdone.trans ?_⟩
      have haccounts : rest.filterMap Effect.account =
          [line.txn.sender, line.txn.receiver].filter l.isClientInCluster := by
        obtain rfl : rest = _ := hall
        cases hsender : l.isClientInCluster line.txn.sender <;>
          cases hreceiver : l.isClientInCluster line.txn.receiver <;> simp [hsender, hreceiver, Effect.account]
      rw [haccounts, due_both hin]
    · -- a put is made and another one is missing, so both accounts are in the shard
      have hlength := congrArg List.length hall
      have hpos := List.length_pos_iff.mpr hrest
      simp only [List.cons_append, List.length_cons, List.length_append, List.length_map] at hlength
      obtain ⟨hsender, hreceiver⟩ : l.isClientInCluster line.txn.sender = true ∧
          l.isClientInCluster line.txn.receiver = true := by
        split_ifs at hlength with hsender hreceiver
        · exact ⟨hsender, hreceiver⟩
        all_goals
          simp only [List.length_cons, List.length_nil] at hlength
          omega
      rw [if_pos hsender, if_pos hreceiver] at hall hlength
      obtain rfl : done = [] := List.length_eq_zero_iff.mp (by simp at hlength; omega)
      obtain ⟨rfl, rfl⟩ := List.cons.inj hall
      show ∃ v, Function.update d.balances line.txn.sender _ a = some v ∧ _
      rw [hdone, hd]
      by_cases hself : a = line.txn.sender
      · refine ⟨_, by rw [hself]; exact Function.update_self .., ?_⟩
        rw [← hself, ← add_ofInt_add]
        by_cases hboth : a = line.txn.receiver
        · simp [WalLine.due, Effect.account, Transaction.effect, hop, ← hself, ← hboth]
        · simp [WalLine.due, Effect.account, Transaction.effect, ← hself, hboth, Ne.symm hboth]
      · refine ⟨l.balances a, (Function.update_of_ne hself ..).trans (hs a ha), ?_⟩
        by_cases hother : a = line.txn.receiver
        · simp [WalLine.due, Effect.account, ← hother, Ne.symm hself]
        · simp [WalLine.due, Effect.account, Transaction.effect, hother, Ne.symm hself, Ne.symm hother]

theorem yields_decide (hw : l.wal.Ok) (tid : Int) (isCommit : Bool) :
    l.Yields ((l.decisionWrites tid isCommit).map .write) (l.processTpcDecision tid isCommit) := by
  unfold decisionWrites
  split
  · rename_i hindex
    rw [processTpcDecision_none isCommit (WAL.pendingEntry_of_not_indexed hindex)]
    exact .frame hw (.touch _ _ _)
  · rename_i p hindex
    have he : l.wal.pendingEntry tid = some (l.wal.getTransactionFromFile p) := WAL.pendingEntry_of_index hindex
    have hself : (l.wal.getTransactionFromFile p).tid = tid := (hw.pendingEntry_spec he).1
    have hfile := file_processTpcDecision hw hindex isCommit
    have hrecords : l.Records (l.processTpcDecision tid isCommit) := by
      refine .line (constants_processTpcDecision l tid isCommit) (clusterId_processTpcDecision l tid isCommit)
        (fun hs => hs.processTpcDecision hw tid isCommit) (applies_decide hw tid isCommit) hfile fun htid => ?_
      rw [LedgerOp.entries, he]
      dsimp only
      rw [if_neg htid]
      obtain ⟨-, hcross, -⟩ := hw.pendingEntry_spec he
      cases isCommit <;> simp [WalLine.recovered, WalLine.entry, WALEntry.logged, decisionStatus, decidedEntry, commits, hself, hcross]
    dsimp only
    rw [hself, List.map_cons]
    by_cases htid : tid = -1
    · -- a decision on the sentinel is written and not settled
      subst htid
      rw [if_neg (by simp)]
      refine .block hw hrecords (by simp) (fun b => ?_) fun b done rest hall hrest =>
        absurd (List.append_eq_nil_iff.mp hall).2 hrest
      show Disk.mk _ _ b = Disk.mk (l.processTpcDecision (-1) isCommit).wal.file _ b
      rw [hfile, processTpcDecision_sentinel hw isCommit he]
      rfl
    · have hresult := (Decides.of_index hw hindex htid isCommit).result
      rw [if_pos htid]
      refine .block hw hrecords isPut_settleWrites (fun b => ?_) ?_
      · rw [List.foldl_cons, foldl_settleWrites _ _ _ _ rfl]
        show Disk.mk _ _ b = Disk.mk (l.processTpcDecision tid isCommit).wal.file _ b
        rw [hfile, hresult]
        rfl
      · intro b done rest hall hrest hs a ha
        rw [hresult]
        exact due_settleWrites (l.wal.getTransactionFromFile p).txn hs ha (by simp) rfl rfl hall hrest

theorem yields_insertSynced (hw : l.wal.Ok) (entry : WALEntry) :
    l.Yields ((l.insertWrites entry).map .write) (l.insertSynced entry) := by
  have hfile := file_insertSynced hw entry
  have hrecords : l.Records (l.insertSynced entry) := by
    refine .line rfl rfl (fun hs => hs.insertSynced entry) ((LedgerOp.insert entry).applies hw) hfile fun _ => ?_
    obtain ⟨_, _, _, _, type, status⟩ := entry
    -- what the scan skips is not a commit
    cases type <;> cases status <;> rfl
  refine .block hw hrecords isPut_settleWrites (fun b => ?_) ?_
  · rw [List.foldl_cons, foldl_settleWrites _ _ _ _ rfl]
    show Disk.mk _ _ b = Disk.mk (l.insertSynced entry).wal.file _ b
    rw [hfile]
    rfl
  · intro b done rest hall hrest hs a ha
    exact due_settleWrites entry.txn hs ha (by simp) rfl rfl hall hrest

end Ledger

namespace ServerImpl

variable {s t u : ServerImpl} {fx fx' : List Effect}

/-- The effects take the disk of `s` to that of `t`, wherever they stop on the way, and their answers are the replies
that `t` has more. -/
structure Leads (s : ServerImpl) (fx : List Effect) (t : ServerImpl) : Prop where
  records : s.ledger.Records t.ledger
  disk : fx.foldl Disk.effect s.disk = t.disk
  cuts : GoodBlocks Disk.effect Effect.isPut s.ledger.Stops s.disk fx
  replies : t.replies = s.replies ++ (fx.filterMap Effect.told).map replyOf

theorem Leads.wal (h : s.Leads fx t) : t.ledger.wal.Ok := h.records.wal

theorem Leads.trans (h : s.Leads fx t) (h' : t.Leads fx' u) : s.Leads (fx ++ fx') u where
  records := h.records.trans h'.records
  disk := by rw [List.foldl_append, h.disk, h'.disk]
  cuts := by
    refine h.cuts.append ?_
    rw [h.disk]
    exact h'.cuts.mono fun _ _ => .of_records h.records
  replies := by rw [h'.replies, h.replies, List.filterMap_append, List.map_append, List.append_assoc]

/-- What a handler does to the ledger, with the answers it gives. -/
theorem Leads.of_yields (h : s.ledger.Yields fx t.ledger) (hballot : t.dbBallotNum = s.dbBallotNum)
    (hreplies : t.replies = s.replies ++ (fx.filterMap Effect.told).map replyOf) : s.Leads fx t where
  records := h.records
  disk := by
    show _ = t.ledger.disk t.dbBallotNum
    rw [hballot]
    exact h.disk s.dbBallotNum
  cuts := h.cuts s.dbBallotNum
  replies := hreplies

theorem Leads.writes {ws : List Write} (h : s.ledger.Yields (ws.map .write) t.ledger)
    (hballot : t.dbBallotNum = s.dbBallotNum) (hreplies : t.replies = s.replies) : s.Leads (ws.map .write) t :=
  .of_yields h hballot (by rw [filterMap_told_map_write, hreplies, List.map_nil, List.append_nil])

/-- What is neither written nor answered. -/
theorem Leads.silent (hw : s.ledger.wal.Ok) (hledger : s.ledger.Frame t.ledger) (hballot : t.dbBallotNum = s.dbBallotNum)
    (hreplies : t.replies = s.replies) : s.Leads [] t :=
  .of_yields (.frame hw hledger) hballot (by rw [hreplies]; simp)

/-- `persistBallotNum`. -/
theorem Leads.persist (hw : s.ledger.wal.Ok) {num : Int} (hledger : t.ledger = s.ledger)
    (hballot : t.dbBallotNum = some num) (hreplies : t.replies = s.replies) :
    s.Leads [.write (.putBallotNum num)] t := by
  have hself : s.ledger.Records s.ledger := .frame hw (.touch _ _ _)
  refine ⟨by rw [hledger]; exact hself, ?_, .block (hself.stops s.dbBallotNum) rfl (by simp) ?_, ?_⟩
  · rw [ServerImpl.disk, ServerImpl.disk, hledger, hballot]
    rfl
  · intro done rest hall
    obtain ⟨rfl, rfl⟩ := List.append_eq_nil_iff.mp hall
    exact hself.stops (some num)
  · rw [hreplies]
    simp [Effect.told]

theorem Leads.refl (hw : s.ledger.wal.Ok) : s.Leads [] s := .silent hw (.touch _ _ _) rfl rfl

theorem leads_maybeStartRound (hw : s.ledger.wal.Ok) : s.Leads s.startEffects s.maybeStartRound := by
  unfold startEffects startWrites maybeStartRound
  split
  · exact .refl hw
  · exact .persist hw rfl rfl rfl

theorem leads_enqueue (hw : s.ledger.wal.Ok) (b : BatchEntry) :
    s.Leads (s.enqueueEffects b) (s.enqueueClientTxn b.call b.request b.isCrossShard) := by
  unfold enqueueEffects enqueueClientTxn
  split
  · exact .of_yields ((Ledger.Yields.refl hw).answer b false) rfl rfl
  · have hqueued : s.Leads [] { s with pending := s.pending ++ [b] } := .silent hw (.touch _ _ _) rfl rfl
    exact hqueued.trans (leads_maybeStartRound hw)

/-- The validation loop as a loop over the ledger alone. -/
theorem foldl_validateEntry_ledger (ballot : Ballot) (batch : List BatchEntry) (a : Admission) :
    (batch.foldl (validateEntry ballot) a).ledger =
      batch.foldl (fun l e => (validateEntry ballot ⟨l, [], []⟩ e).ledger) a.ledger := by
  induction batch generalizing a with
  | nil => rfl
  | cons b batch ih =>
    have hbody : (validateEntry ballot a b).ledger = (validateEntry ballot ⟨a.ledger, [], []⟩ b).ledger := by
      unfold validateEntry
      split <;> rfl
    rw [List.foldl_cons, ih, hbody, List.foldl_cons]

theorem told_validateEffects (ballot : Ballot) (batch : List BatchEntry) (a : Admission) :
    (batch.foldl (validateEntry ballot) a).rejected.map (fun b => (b, false)) =
      a.rejected.map (fun b => (b, false)) ++
        (loopEffects (fun l e => (validateEntry ballot ⟨l, [], []⟩ e).ledger)
          (fun l e => if rejects l e.request.txn then [.answer e false]
            else if e.isCrossShard then [.write (prepareWrite e.request ballot)] else [])
          a.ledger batch).filterMap Effect.told := by
  induction batch generalizing a with
  | nil => simp [loopEffects]
  | cons b batch ih =>
    rw [List.foldl_cons, ih, loopEffects, List.filterMap_append, ← List.append_assoc]
    unfold validateEntry
    by_cases hrejected : rejects a.ledger b.request.txn = true
    · simp [hrejected, Effect.told]
    · cases b.isCrossShard <;> simp [hrejected, Effect.told]

theorem leads_validate (hw : s.ledger.wal.Ok) : s.Leads s.validateEffects s.validate := by
  refine .of_yields ?_ rfl ?_
  · show s.ledger.Yields _ (admitAll s.ledger s.promisedNum s.current).ledger
    rw [admitAll, foldl_validateEntry_ledger]
    refine .loop hw ?_
    intro e _ l hl
    have hlocked : l.Yields [] ((l.lockInShard e.request.txn.sender).lockInShard e.request.txn.receiver) :=
      .frame hl (.touch _ _ _)
    unfold validateEntry
    by_cases hrejected : rejects l e.request.txn = true
    · simp only [hrejected, if_true]
      exact (Ledger.Yields.refl hl).answer e false
    · cases hcross : e.isCrossShard with
      | false => simpa [hrejected, hcross] using hlocked
      | true =>
        simp only [hrejected, if_true]
        exact hlocked.trans (Ledger.yields_prepareTransaction hlocked.wal e.request s.promisedNum)
  · have htold := told_validateEffects s.promisedNum s.current ⟨s.ledger, [], []⟩
    rw [List.map_nil, List.nil_append] at htold
    rw [validateEffects, ← htold, List.map_map]
    rfl

/-- The end of a round may start the next one. -/
theorem Leads.finish (h : s.Leads fx t) : s.Leads (fx ++ t.clearRound.startEffects) t.finishRound := by
  have hcleared : t.Leads [] t.clearRound := .silent h.wal (.touch _ _ _) rfl rfl
  exact h.trans (hcleared.trans (leads_maybeStartRound (s := t.clearRound) h.wal))

theorem leads_onPrepareQuorum (hw : s.ledger.wal.Ok) : s.Leads s.prepareQuorumEffects s.onPrepareQuorum := by
  have hvalidated := leads_validate hw
  unfold prepareQuorumEffects onPrepareQuorum
  split
  · exact hvalidated.finish
  · exact hvalidated.trans (.silent hvalidated.wal (.touch _ _ _) rfl rfl)

theorem told_commitEffects (s : ServerImpl) (batch : List BatchEntry) (l : Ledger) :
    (loopEffects (commitEntry s.acceptNum)
      (fun l e => (if e.isCrossShard then []
        else ((l.unlockBoth e.request.txn).commitWrites e.request s.acceptNum).map .write) ++ [.answer e true])
      l batch).filterMap Effect.told = batch.map fun b => (b, true) := by
  induction batch generalizing l with
  | nil => rfl
  | cons b batch ih =>
    rw [loopEffects, List.filterMap_append, ih]
    cases b.isCrossShard <;> simp [List.filterMap_append, Effect.told]

/-- A turn of the commit loop, on the disk. -/
theorem yields_commitTurn {l : Ledger} (hw : l.wal.Ok) (ballot : Ballot) (e : BatchEntry) :
    l.Yields (if e.isCrossShard then []
      else ((l.unlockBoth e.request.txn).commitWrites e.request ballot).map .write) (commitEntry ballot l e) := by
  unfold commitEntry
  split
  · exact .refl hw
  · have hfree : l.Yields [] (l.unlockBoth e.request.txn) := .frame hw (.touch _ _ _)
    exact hfree.trans (Ledger.yields_commitTransaction hfree.wal e.request ballot)

theorem leads_onAcceptQuorum (hw : s.ledger.wal.Ok) : s.Leads s.acceptQuorumEffects s.onAcceptQuorum := by
  apply Leads.finish
  refine .of_yields ?_ rfl ?_
  · exact .loop hw fun e _ l hl => (yields_commitTurn hl s.acceptNum e).answer e true
  · rw [commitEffects, told_commitEffects, List.map_map]
    rfl

theorem leads_onRoundAbort (hw : s.ledger.wal.Ok) (preparePhase : Bool) :
    s.Leads (s.roundAbortEffects preparePhase) (s.onRoundAbort preparePhase) := by
  apply Leads.finish
  have htold : (s.current.map (Effect.answer · false)).filterMap Effect.told = s.current.map fun b => (b, false) := by
    simp [List.filterMap_map, Effect.told, Function.comp_def]
  have hrelease : s.ledger.Frame (s.abortRound preparePhase).ledger := by
    refine List.foldlRecOn (motive := fun l => s.ledger.Frame l) s.current (releaseEntry preparePhase)
      (.touch _ _ _) ?_
    intro l hl e _
    unfold releaseEntry
    split
    · exact ⟨hl.constants, hl.clusterId, hl.balances, hl.dbBalances, hl.balanceApplied, hl.wal, hl.log, hl.paxosIndex,
        hl.lastInserted⟩
    · exact hl
  refine .of_yields ?_ rfl ?_
  · exact (Ledger.Yields.frame hw hrelease).answers s.current false
  · rw [htold, List.map_map]
    rfl

theorem leads_decidePrepare (hw : s.ledger.wal.Ok) : s.Leads s.decidePrepareEffects s.decidePrepare := by
  unfold decidePrepareEffects decidePrepare
  split
  · exact leads_onPrepareQuorum hw
  · split
    · exact leads_onRoundAbort hw true
    · exact .refl hw

/-- Counting a vote is not seen outside. -/
theorem Leads.counted (h : t.Leads fx u) (hw : s.ledger.wal.Ok) (hledger : t.ledger = s.ledger)
    (hballot : t.dbBallotNum = s.dbBallotNum) (hreplies : t.replies = s.replies) : s.Leads fx u := by
  have hsame : s.ledger.Frame t.ledger := by
    rw [hledger]
    exact .touch _ _ _
  exact (Leads.silent hw hsame hballot hreplies).trans h

theorem leads_countPrepare (hw : s.ledger.wal.Ok) (response : PrepareRes) :
    s.Leads (s.countPrepareEffects response) (s.countPrepare response) := by
  unfold countPrepareEffects countPrepare
  dsimp only
  generalize hcounted : (if response.ack then { s with prepareSuccesses := s.prepareSuccesses + 1 }
    else { s with prepareFailures := s.prepareFailures + 1 }) = counted
  have hsame : counted.ledger = s.ledger ∧ counted.dbBallotNum = s.dbBallotNum ∧ counted.replies = s.replies := by
    subst hcounted
    split <;> exact ⟨rfl, rfl, rfl⟩
  obtain ⟨hledger, hballot, hreplies⟩ := hsame
  have hw' : counted.ledger.wal.Ok := hledger ▸ hw
  refine Leads.counted (t := counted) ?_ hw hledger hballot hreplies
  cases response.latestBallotNum with
  | some latest =>
    have hstale : counted.Leads [.write (.putBallotNum latest)] (persistBallotNum { counted with ballotNum := latest }) :=
      .persist hw' rfl rfl rfl
    exact hstale.trans (.persist (s := persistBallotNum { counted with ballotNum := latest }) hw' rfl rfl rfl)
  | none =>
    cases response.paxosIndex with
    | none => exact leads_decidePrepare hw'
    | some index =>
      dsimp only
      split
      · exact .silent hw' (.touch _ _ _) rfl rfl
      · exact leads_decidePrepare hw'

theorem leads_prepareReply (hw : s.ledger.wal.Ok) (status : Status) (request : PrepareReq) (response : PrepareRes) :
    s.Leads (s.prepareReplyEffects status request response) (s.handlePrepareReply status request response) := by
  unfold prepareReplyEffects handlePrepareReply
  split
  · exact .refl hw
  · split
    · exact (leads_decidePrepare (s := { s with prepareFailures := s.prepareFailures + 1 }) hw).counted hw rfl rfl rfl
    · split
      · exact leads_countPrepare hw response
      · exact leads_decidePrepare hw

theorem leads_decideAccept (hw : s.ledger.wal.Ok) : s.Leads s.decideAcceptEffects s.decideAccept := by
  unfold decideAcceptEffects decideAccept
  split
  · exact leads_onAcceptQuorum hw
  · split
    · exact leads_onRoundAbort hw false
    · exact .refl hw

theorem leads_acceptReply (hw : s.ledger.wal.Ok) (status : Status) (request : AcceptReq) (response : AcceptRes) :
    s.Leads (s.acceptReplyEffects status request response) (s.handleAcceptReply status request response) := by
  unfold acceptReplyEffects handleAcceptReply
  split
  · exact .refl hw
  · split
    · exact (leads_decideAccept (s := { s with acceptFailures := s.acceptFailures + 1 }) hw).counted hw rfl rfl rfl
    · split
      · cases response.ack with
        | true =>
          exact (leads_decideAccept (s := { s with acceptSuccesses := s.acceptSuccesses + 1 }) hw).counted hw rfl rfl rfl
        | false =>
          exact (leads_decideAccept (s := { s with acceptFailures := s.acceptFailures + 1 }) hw).counted hw rfl rfl rfl
      · exact leads_decideAccept hw

theorem leads_prepareCall (hw : s.ledger.wal.Ok) (request : PrepareReq) :
    s.Leads (s.prepareCallEffects request) (s.processPrepareCall request).1 := by
  have hstate : s.iAmDisconnected = false → (s.processPrepareCall request).1 = s.promise request := by
    intro hconnected
    unfold processPrepareCall
    rw [if_neg (by simp [hconnected])]
    dsimp only
    split
    · rfl
    · split <;> rfl
  unfold prepareCallEffects
  cases hdisc : s.iAmDisconnected with
  | true =>
    rw [processPrepareCall, if_pos hdisc]
    exact .refl hw
  | false =>
    rw [hstate hdisc, promise, promises]
    by_cases hnum : request.ballot.num > s.ballotNum
    · by_cases hindex : request.paxosIndex = s.ledger.paxosIndex
      · simp only [hnum, hindex, if_true, decide_true, Bool.and_self, Bool.false_eq_true, if_false]
        exact .persist hw rfl rfl rfl
      · simp only [hnum, hindex, if_true, if_false, decide_false, Bool.and_false, Bool.false_eq_true]
        split
        · exact .silent hw (.touch _ _ _) rfl rfl
        · exact .refl hw
    · simp only [hnum, if_false, decide_false, Bool.false_and, Bool.false_eq_true]
      exact .refl hw

theorem leads_acceptCall (hw : s.ledger.wal.Ok) (request : AcceptReq) :
    s.Leads (s.acceptCallEffects request) (s.processAcceptCall request).1 := by
  unfold acceptCallEffects processAcceptCall
  split
  · exact .refl hw
  · split
    · have hnone : ∀ (rs : List TransferReq) (l : Ledger), (loopEffects (acceptEntry request.ballot)
          (fun l r => if crossHere l r.txn then [.write (prepareWrite r request.ballot)] else []) l rs).filterMap
            Effect.told = [] := by
        intro rs
        induction rs with
        | nil => exact fun _ => rfl
        | cons r rs ih =>
          intro l
          rw [loopEffects, List.filterMap_append, ih]
          cases crossHere l r.txn <;> simp [Effect.told]
      refine .of_yields ?_ rfl (by rw [hnone]; simp)
      refine .loop hw ?_
      intro r _ l hl
      have hlocked : l.Yields [] ((l.lockInShard r.txn.sender).lockInShard r.txn.receiver) := .frame hl (.touch _ _ _)
      unfold acceptEntry
      cases hcross : crossHere l r.txn with
      | false => simpa [hcross] using hlocked
      | true =>
        simp only [if_true]
        exact hlocked.trans (Ledger.yields_prepareTransaction hlocked.wal r request.ballot)
    · exact .refl hw

theorem leads_commitCall (hw : s.ledger.wal.Ok) (request : CommitReq) :
    s.Leads ((s.commitCallWrites request).map .write) (s.processCommitCall request) := by
  unfold commitCallWrites processCommitCall
  split
  · exact .refl hw
  · split
    · refine .writes ?_ rfl rfl
      rw [loopEffects_map_write]
      refine .loop hw ?_
      intro r _ l hl
      have hfree : l.Yields [] ((l.unlockInShard r.txn.sender).unlockInShard r.txn.receiver) :=
        .frame hl (.touch _ _ _)
      unfold commitAccepted
      split
      · exact hfree.trans (Ledger.yields_commitTransaction hfree.wal r s.acceptNum)
      · exact hfree
    · exact .refl hw

theorem leads_resumeAfterSync (hw : s.ledger.wal.Ok) :
    s.Leads (s.resumeWrites.map .write) s.resumeAfterSync := by
  unfold resumeWrites resumeAfterSync
  split
  · exact .persist hw rfl rfl rfl
  · exact (leads_maybeStartRound (s := { s with inSync := false }) hw).counted hw rfl rfl rfl

theorem leads_syncReply (hw : s.ledger.wal.Ok) (status : Status) (response : SyncRes) :
    s.Leads ((s.syncReplyWrites status response).map .write) (s.handleSyncReply status response) := by
  unfold syncReplyWrites handleSyncReply
  split
  · have hentries : s.ledger.Yields
        ((Ledger.loopWrites Ledger.insertSynced Ledger.insertWrites s.ledger (response.logs.map LogEntry.toWALEntry)).map .write)
        ((response.logs.map LogEntry.toWALEntry).foldl Ledger.insertSynced s.ledger) := by
      rw [loopEffects_map_write]
      exact .loop hw fun entry _ l hl => Ledger.yields_insertSynced hl entry
    have hmark : Ledger.Frame ((response.logs.map LogEntry.toWALEntry).foldl Ledger.insertSynced s.ledger)
        (s.ledger.applySync response) :=
      ⟨rfl, rfl, rfl, rfl, rfl, rfl, rfl, rfl, le_add_of_nonneg_right (Int.natCast_nonneg _)⟩
    have hloop := hentries.trans (.frame hentries.wal hmark)
    rw [List.append_nil] at hloop
    have hledger : s.Leads _ { s with ledger := s.ledger.applySync response } := .writes hloop rfl rfl
    have hsynced := hledger.trans (.persist (t := s.applySync response) hloop.wal rfl rfl rfl)
    have hall := hsynced.trans (leads_resumeAfterSync hsynced.wal)
    rw [List.append_assoc] at hall
    rw [List.map_append]
    exact hall
  · exact leads_resumeAfterSync hw

theorem leads_sweep (hw : s.ledger.wal.Ok) :
    s.Leads ((s.moneyWrites (.input .sweep)).map .write) { s with ledger := s.ledger.sweep } := by
  refine .writes ?_ rfl rfl
  rw [moneyWrites, loopEffects_map_write, Ledger.sweep_eq]
  exact .loop hw fun tid _ l hl => Ledger.yields_decide hl tid false

theorem leads_dispatch (hw : s.ledger.wal.Ok) (e : Event) : s.Leads (s.dispatchEffects e) (s.dispatch e) := by
  cases e with
  | input i =>
    cases i with
    | transfer call request => exact leads_enqueue hw { request := request, call := call, isCrossShard := false }
    | tpcPrepare call request => exact leads_enqueue hw { request := request, call := call, isCrossShard := true }
    | tpcDecision tid isCommit =>
      show s.Leads (List.map _ (if _ then _ else _)) (s.processTpcDecision tid isCommit)
      unfold processTpcDecision
      split
      · exact .refl hw
      · exact .writes (Ledger.yields_decide hw tid isCommit) rfl rfl
    | disconnect servers => exact .silent hw (.touch _ _ _) rfl rfl
    | tick ms => exact .silent hw (.touch _ _ _) rfl rfl
    | sweep => exact leads_sweep hw
  | prepareCall request => exact leads_prepareCall hw request
  | acceptCall request => exact leads_acceptCall hw request
  | commitCall request => exact leads_commitCall hw request
  | syncCall request => exact .refl hw
  | prepareReply status request response => exact leads_prepareReply hw status request response
  | acceptReply status request response => exact leads_acceptReply hw status request response
  | syncReply status response => exact leads_syncReply hw status response

/-- **The list is complete**: at its end the disk is that of the state the handler leaves, and every reply is in it. -/
theorem leads_effects (hw : s.ledger.wal.Ok) (e : Event) : s.Leads (s.effects e) (s.handle e) :=
  (leads_dispatch (s := { s with outbox := [] }) hw e).counted hw rfl rfl rfl

end ServerImpl


end MultiPaxosDB
