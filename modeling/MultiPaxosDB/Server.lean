/-
# MultiPaxosDB.Server — one server: the batched Paxos round and every handler of `server.cc`.

`ServerImpl` is the class of `server.h`: the `Ledger` of `MultiPaxosDB.Ledger`, and the state of the
round — the two batches, the ballot and promise, the accepted batch, the counters and flags.  Each
handler is a function from state to state.  What a handler sends is appended to `outbox` (one
`OutCall` per stub), and what it answers to a parked client call is appended to `replies`.  These two
and `quorums` are history: they are written and never read.

The handlers call each other as in the source — `finishRound` may start the next round, a stale
ballot re-runs the prepare phase — but never recursively, so nothing here needs fuel.

`Event` lists what the event loop of `HandleRPCs` can hand to the server; `handle` is one iteration.
-/
import MultiPaxosDB.Ledger

namespace MultiPaxosDB

/-! ## Messages and state -/

/-- A peer RPC, by request. -/
inductive RpcReq
  | prepare (request : PrepareReq)
  | accept (request : AcceptReq)
  | commit (request : CommitReq)
  | sync (request : SyncReq)
deriving DecidableEq, Repr

/-- `OutCall` — an RPC as it leaves the server. -/
structure OutCall where
  dst : Int
  req : RpcReq
deriving DecidableEq, Repr

/-- `ServerImpl::BatchEntry`; `call` is the identity of the parked `InCall`. -/
structure BatchEntry where
  request : TransferReq
  call : Nat
  isCrossShard : Bool
deriving DecidableEq, Repr

/-- One `InCall::completeTransfer`: the `TransferRes` sent for a parked call. -/
structure TransferRes where
  call : Nat
  ack : Bool
  tid : Int
deriving DecidableEq, Repr

structure ServerImpl where
  serverId : Int
  stubs : List Int
  ledger : Ledger
  iAmDisconnected : Bool
  /-- `pending_`, accumulating for the next round. -/
  pending : List BatchEntry
  /-- `current_`, the entries of the round in flight. -/
  current : List BatchEntry
  isPaxosRunning : Bool
  ballotNum : Int
  /-- LevelDB's `__ballot_num__`. -/
  dbBallotNum : Option Int
  promised : Bool
  promisedNum : Ballot
  accepted : Bool
  acceptNum : Ballot
  acceptBatch : List TransferReq
  inSync : Bool
  prepareSuccesses : Nat
  prepareFailures : Nat
  acceptSuccesses : Nat
  acceptFailures : Nat
  awaitPrepareDecision : Bool
  awaitAcceptDecision : Bool
  /-- History: what the running handler has sent so far. -/
  outbox : List OutCall
  /-- History: every `completeTransfer` ever made. -/
  replies : List TransferRes
  /-- History: the ballot and index every run of `onPrepareQuorum` began with. -/
  quorums : List PrepareReq

/-- `ServerImpl::MAJORITY`. -/
def majority : Nat := 2

namespace ServerImpl

/-- A server as the constructor and `run` leave it on first start. -/
def fresh (c : Constants) (serverId : Int) : ServerImpl where
  serverId := serverId
  stubs := stubsOf c serverId
  ledger := .fresh c (getClusterIdFromServerId c serverId)
  iAmDisconnected := false
  pending := []
  current := []
  isPaxosRunning := false
  ballotNum := 0
  dbBallotNum := some 0
  promised := false
  promisedNum := .zero
  accepted := false
  acceptNum := .zero
  acceptBatch := []
  inSync := false
  prepareSuccesses := 0
  prepareFailures := 0
  acceptSuccesses := 0
  acceptFailures := 0
  awaitPrepareDecision := false
  awaitAcceptDecision := false
  outbox := []
  replies := []
  quorums := []

/-! ## Sending, answering, persisting -/

/-- One `OutCall` to every stub. -/
def sendAll (s : ServerImpl) (req : RpcReq) : ServerImpl :=
  { s with outbox := s.outbox ++ s.stubs.map fun dst => { dst := dst, req := req } }

/-- The `SyncReq` a server builds: its own raw log index. -/
def syncReq (s : ServerImpl) : SyncReq := { lastInserted := s.ledger.lastInserted }

/-- `call->sendSync(sync, stubs[dst])`. -/
def sendSync (s : ServerImpl) (dst : Int) : ServerImpl :=
  { s with outbox := s.outbox ++ [{ dst := dst, req := .sync s.syncReq }] }

/-- `completeTransfer(ack, tid)` for each of the entries, in order. -/
def completeTransfers (s : ServerImpl) (entries : List BatchEntry) (ack : Bool) : ServerImpl :=
  { s with replies := s.replies ++
      entries.map fun e => { call := e.call, ack := ack, tid := e.request.tid } }

/-- `ServerImpl::persistBallotNum`. -/
def persistBallotNum (s : ServerImpl) : ServerImpl := { s with dbBallotNum := some s.ballotNum }

/-! ## The leader's round -/

/-- `ServerImpl::reissuePrepareForCurrent`. -/
def reissuePrepareForCurrent (s : ServerImpl) : ServerImpl :=
  let ballot : Ballot := { num := s.ballotNum + 1, serverId := s.serverId }
  let numbered := persistBallotNum { s with ballotNum := s.ballotNum + 1 }
  sendAll { numbered with
    promised := true
    promisedNum := ballot
    awaitPrepareDecision := true
    awaitAcceptDecision := false
    prepareSuccesses := 1
    prepareFailures := 0 }
    (.prepare { ballot := ballot, paxosIndex := s.ledger.paxosIndex })

/-- `ServerImpl::startRound` — `current_` takes over `pending_`. -/
def startRound (s : ServerImpl) : ServerImpl :=
  reissuePrepareForCurrent { s with current := s.pending, pending := [], isPaxosRunning := true }

/-- `ServerImpl::maybeStartRound`. -/
def maybeStartRound (s : ServerImpl) : ServerImpl :=
  if s.isPaxosRunning || s.inSync || s.pending.isEmpty then s else s.startRound

/-- What `finishRound` resets. -/
def clearRound (s : ServerImpl) : ServerImpl :=
  { s with
    isPaxosRunning := false
    promised := false
    accepted := false
    awaitPrepareDecision := false
    awaitAcceptDecision := false
    current := []
    acceptBatch := [] }

/-- `ServerImpl::finishRound`. -/
def finishRound (s : ServerImpl) : ServerImpl := s.clearRound.maybeStartRound

/-- `ServerImpl::enqueueClientTxn`. -/
def enqueueClientTxn (s : ServerImpl) (call : Nat) (req : TransferReq) (isCrossShard : Bool) :
    ServerImpl :=
  if s.iAmDisconnected then s.completeTransfers [{ request := req, call, isCrossShard }] false
  else maybeStartRound { s with pending := s.pending ++ [{ request := req, call, isCrossShard }] }

/-- What the validation loop of `onPrepareQuorum` accumulates. -/
structure Admission where
  ledger : Ledger
  rejected : List BatchEntry
  kept : List BatchEntry

/-- The test of `onPrepareQuorum` that turns an entry away: an in-shard account is locked, or the
in-shard sender cannot pay. -/
def rejects (l : Ledger) (txn : Transaction) : Bool :=
  (l.isClientInCluster txn.sender && decide (txn.sender ∈ l.locks))
    || (l.isClientInCluster txn.receiver && decide (txn.receiver ∈ l.locks))
    || (l.isClientInCluster txn.sender && decide ((l.balances txn.sender).toInt < txn.amount))

/-- The loop body of `onPrepareQuorum`. -/
def validateEntry (ballot : Ballot) (a : Admission) (e : BatchEntry) : Admission :=
  if rejects a.ledger e.request.txn then { a with rejected := a.rejected ++ [e] }
  else
    let locked := (a.ledger.lockInShard e.request.txn.sender).lockInShard e.request.txn.receiver
    { ledger := if e.isCrossShard then locked.prepareTransaction e.request ballot else locked
      rejected := a.rejected
      kept := a.kept ++ [e] }

/-- The whole validation loop over a batch. -/
def admitAll (l : Ledger) (ballot : Ballot) (batch : List BatchEntry) : Admission :=
  batch.foldl (validateEntry ballot) { ledger := l, rejected := [], kept := [] }

/-- `onPrepareQuorum` up to `current_.swap(kept)`: the loop, with the rejected entries answered. -/
def validate (s : ServerImpl) : ServerImpl :=
  let a := admitAll s.ledger s.promisedNum s.current
  completeTransfers { s with
    awaitPrepareDecision := false
    ledger := a.ledger
    current := a.kept
    quorums := s.quorums ++ [{ ballot := s.promisedNum, paxosIndex := s.ledger.paxosIndex }] }
    a.rejected false

/-- The rest of `onPrepareQuorum`: accept the batch here and propose it to the replicas. -/
def propose (s : ServerImpl) : ServerImpl :=
  let batch := s.current.map BatchEntry.request
  sendAll { s with
    accepted := true
    acceptNum := s.promisedNum
    acceptBatch := batch
    awaitAcceptDecision := true
    acceptSuccesses := 1
    acceptFailures := 0 }
    (.accept { ballot := s.promisedNum, batch := batch })

/-- `ServerImpl::onPrepareQuorum`. -/
def onPrepareQuorum (s : ServerImpl) : ServerImpl :=
  if s.validate.current.isEmpty then s.validate.finishRound else s.validate.propose

/-- The loop body of `onAcceptQuorum` on the ledger. -/
def commitEntry (ballot : Ballot) (l : Ledger) (e : BatchEntry) : Ledger :=
  if e.isCrossShard then l else (l.unlockBoth e.request.txn).commitTransaction e.request ballot

/-- `onAcceptQuorum` up to the call of `finishRound`. -/
def commitRound (s : ServerImpl) : ServerImpl :=
  let announced := sendAll { s with awaitAcceptDecision := false } (.commit { ballot := s.acceptNum })
  completeTransfers
    { announced with ledger := s.current.foldl (commitEntry s.acceptNum) s.ledger } s.current true

/-- `ServerImpl::onAcceptQuorum`. -/
def onAcceptQuorum (s : ServerImpl) : ServerImpl := s.commitRound.finishRound

/-- The loop body of `onRoundAbort` on the ledger. -/
def releaseEntry (preparePhase : Bool) (l : Ledger) (e : BatchEntry) : Ledger :=
  if !preparePhase && !e.isCrossShard then l.unlockBoth e.request.txn else l

/-- `onRoundAbort` up to the call of `finishRound`. -/
def abortRound (s : ServerImpl) (preparePhase : Bool) : ServerImpl :=
  completeTransfers
    { s with ledger := s.current.foldl (releaseEntry preparePhase) s.ledger } s.current false

/-- `ServerImpl::onRoundAbort`. -/
def onRoundAbort (s : ServerImpl) (preparePhase : Bool) : ServerImpl :=
  (s.abortRound preparePhase).finishRound

/-! ## The replica's side of a round -/

/-- The `PrepareRes` of a server that answers nothing but the ballot. -/
def plainPrepareRes (ack : Bool) (ballot : Ballot) : PrepareRes :=
  { ack := ack, ballot := ballot, acceptNum := none, acceptVal := [], latestBallotNum := none,
    paxosIndex := none, serverId := none }

/-- The state `processPrepareCall` leaves. -/
def promise (s : ServerImpl) (request : PrepareReq) : ServerImpl :=
  if request.ballot.num > s.ballotNum then
    if request.paxosIndex = s.ledger.paxosIndex then
      persistBallotNum { s with
        promised := true
        promisedNum := request.ballot
        ballotNum := request.ballot.num }
    else if request.paxosIndex > s.ledger.paxosIndex then
      sendSync { s with inSync := true } request.ballot.serverId
    else s
  else s

/-- Whether `processPrepareCall` acknowledges. -/
def promises (s : ServerImpl) (request : PrepareReq) : Bool :=
  decide (request.ballot.num > s.ballotNum) && decide (request.paxosIndex = s.ledger.paxosIndex)

/-- `ServerImpl::processPrepareCall`. -/
def processPrepareCall (s : ServerImpl) (request : PrepareReq) : ServerImpl × PrepareRes :=
  if s.iAmDisconnected then (s, plainPrepareRes false request.ballot)
  else
    let ack := s.promises request
    let s' := s.promise request
    let response := plainPrepareRes ack request.ballot
    if ack && s'.accepted then
      (s', { response with acceptNum := some s'.acceptNum, acceptVal := s'.acceptBatch })
    else if !ack then
      (s', { response with
        serverId := some s'.serverId
        latestBallotNum := if request.ballot.num ≤ s'.ballotNum then some s'.ballotNum else none
        paxosIndex := if request.paxosIndex < s'.ledger.paxosIndex then some s'.ledger.paxosIndex
          else none })
    else (s', response)

/-- Exactly one side of the transaction is in the shard: to a replica, a cross-shard entry. -/
def crossHere (l : Ledger) (txn : Transaction) : Bool :=
  l.isClientInCluster txn.sender != l.isClientInCluster txn.receiver

/-- Both sides are in the shard: to a replica, an intra-shard entry. -/
def intraHere (l : Ledger) (txn : Transaction) : Bool :=
  l.isClientInCluster txn.sender && l.isClientInCluster txn.receiver

/-- The loop body of `processAcceptCall`. -/
def acceptEntry (ballot : Ballot) (l : Ledger) (r : TransferReq) : Ledger :=
  let locked := (l.lockInShard r.txn.sender).lockInShard r.txn.receiver
  if crossHere l r.txn then locked.prepareTransaction r ballot else locked

/-- Whether `processAcceptCall` acknowledges: only the ballot number is compared. -/
def accepts (s : ServerImpl) (request : AcceptReq) : Bool :=
  s.promised && decide (request.ballot.num = s.promisedNum.num)

/-- `ServerImpl::processAcceptCall`. -/
def processAcceptCall (s : ServerImpl) (request : AcceptReq) : ServerImpl × AcceptRes :=
  if s.iAmDisconnected then (s, { ack := false, ballot := request.ballot })
  else if s.accepts request then
    ({ s with
        accepted := true
        acceptNum := request.ballot
        acceptBatch := request.batch
        ledger := request.batch.foldl (acceptEntry request.ballot) s.ledger },
     { ack := true, ballot := request.ballot })
  else (s, { ack := false, ballot := request.ballot })

/-- The loop body of `processCommitCall`: the locks go whatever the entry is. -/
def commitAccepted (ballot : Ballot) (l : Ledger) (r : TransferReq) : Ledger :=
  let free := (l.unlockInShard r.txn.sender).unlockInShard r.txn.receiver
  if intraHere l r.txn then free.commitTransaction r ballot else free

/-- Whether a `CommitReq` is for the batch this server last accepted, by ballot number. -/
def commits (s : ServerImpl) (request : CommitReq) : Bool :=
  decide (s.promisedNum.num = request.ballot.num) && decide (s.acceptNum.num = request.ballot.num)

/-- `ServerImpl::processCommitCall`. -/
def processCommitCall (s : ServerImpl) (request : CommitReq) : ServerImpl :=
  if s.iAmDisconnected then s
  else if s.commits request then
    { s with
      ledger := s.acceptBatch.foldl (commitAccepted s.acceptNum) s.ledger
      promised := false
      accepted := false }
  else s

/-! ## Replies -/

/-- A prepare reply that is counted: it answers the ballot this server has promised, and is its own. -/
def answersPrepare (s : ServerImpl) (ballot : Ballot) : Bool :=
  decide (ballot.num = s.promisedNum.num) && decide (ballot.serverId = s.serverId)

/-- `if (prepare_successes >= MAJORITY) … else if (prepare_failures >= MAJORITY) …`. -/
def decidePrepare (s : ServerImpl) : ServerImpl :=
  if majority ≤ s.prepareSuccesses then s.onPrepareQuorum
  else if majority ≤ s.prepareFailures then s.onRoundAbort true
  else s

/-- The branch of `handlePrepareReply` for an answer to the current ballot. -/
def countPrepare (s : ServerImpl) (response : PrepareRes) : ServerImpl :=
  let counted := if response.ack then { s with prepareSuccesses := s.prepareSuccesses + 1 }
    else { s with prepareFailures := s.prepareFailures + 1 }
  match response.latestBallotNum with
  | some latest => reissuePrepareForCurrent (persistBallotNum { counted with ballotNum := latest })
  | none =>
    match response.paxosIndex with
    | some index =>
      if index > counted.ledger.paxosIndex then
        sendSync { counted with inSync := true, awaitPrepareDecision := false }
          (response.serverId.getD 0)
      else counted.decidePrepare
    | none => counted.decidePrepare

/-- `ServerImpl::handlePrepareReply`. -/
def handlePrepareReply (s : ServerImpl) (status : Status) (request : PrepareReq)
    (response : PrepareRes) : ServerImpl :=
  if !s.awaitPrepareDecision then s
  else if status = .deadlineExceeded && s.answersPrepare request.ballot then
    decidePrepare { s with prepareFailures := s.prepareFailures + 1 }
  else if status = .ok && s.answersPrepare response.ballot then s.countPrepare response
  else s.decidePrepare

/-- An accept reply that is counted. -/
def answersAccept (s : ServerImpl) (ballot : Ballot) : Bool :=
  decide (ballot.num = s.acceptNum.num) && decide (ballot.serverId = s.serverId)

/-- `if (accept_successes >= MAJORITY) … else if (accept_failures >= MAJORITY) …`. -/
def decideAccept (s : ServerImpl) : ServerImpl :=
  if majority ≤ s.acceptSuccesses then s.onAcceptQuorum
  else if majority ≤ s.acceptFailures then s.onRoundAbort false
  else s

/-- `ServerImpl::handleAcceptReply`. -/
def handleAcceptReply (s : ServerImpl) (status : Status) (request : AcceptReq)
    (response : AcceptRes) : ServerImpl :=
  if !s.awaitAcceptDecision then s
  else if status = .deadlineExceeded && s.answersAccept request.ballot then
    decideAccept { s with acceptFailures := s.acceptFailures + 1 }
  else if status = .ok && s.answersAccept response.ballot then
    decideAccept (if response.ack then { s with acceptSuccesses := s.acceptSuccesses + 1 }
      else { s with acceptFailures := s.acceptFailures + 1 })
  else s.decideAccept

/-- The part of `handleSyncReply` that runs on an acknowledged reply. -/
def applySync (s : ServerImpl) (response : SyncRes) : ServerImpl :=
  persistBallotNum { s with
    ledger := s.ledger.applySync response
    ballotNum := response.lastInsertedBallot.num }

/-- The end of `handleSyncReply`: retry the paused round, or start a queued one. -/
def resumeAfterSync (s : ServerImpl) : ServerImpl :=
  if !s.current.isEmpty then reissuePrepareForCurrent { s with inSync := false }
  else maybeStartRound { s with inSync := false }

/-- `ServerImpl::handleSyncReply`. -/
def handleSyncReply (s : ServerImpl) (status : Status) (response : SyncRes) : ServerImpl :=
  resumeAfterSync (if status = .ok && response.ack then s.applySync response else s)

/-! ## 2PC decisions, the sweep, Disconnect -/

/-- `ServerImpl::processTpcDecision`. -/
def processTpcDecision (s : ServerImpl) (tid : Int) (isCommit : Bool) : ServerImpl :=
  if s.iAmDisconnected then s
  else { s with ledger := s.ledger.processTpcDecision tid isCommit }

/-- `ServerImpl::processDisconnectCall`, with the named servers as ids.  (The per-peer map
`disconnected` is written here and never read.) -/
def processDisconnectCall (s : ServerImpl) (servers : List Int) : ServerImpl :=
  { s with iAmDisconnected := servers.contains s.serverId }

end ServerImpl

/-! ## One iteration of the event loop -/

/-- What reaches a server from outside the peer protocol: the client's calls and 2PC decisions, the
driver's `Disconnect`, the passing of time and the sweep that ends each loop iteration. -/
inductive Input
  | transfer (call : Nat) (request : TransferReq)
  | tpcPrepare (call : Nat) (request : TransferReq)
  | tpcDecision (tid : Int) (isCommit : Bool)
  | disconnect (servers : List Int)
  | tick (ms : Nat)
  | sweep
deriving DecidableEq, Repr

/-- Everything `HandleRPCs` can hand to a server. -/
inductive Event
  | input (i : Input)
  | prepareCall (request : PrepareReq)
  | acceptCall (request : AcceptReq)
  | commitCall (request : CommitReq)
  | syncCall (request : SyncReq)
  | prepareReply (status : Status) (request : PrepareReq) (response : PrepareRes)
  | acceptReply (status : Status) (request : AcceptReq) (response : AcceptRes)
  | syncReply (status : Status) (response : SyncRes)
deriving DecidableEq, Repr

namespace ServerImpl

/-- The handler of an input. -/
def handleInput (s : ServerImpl) : Input → ServerImpl
  | .transfer call request => s.enqueueClientTxn call request false
  | .tpcPrepare call request => s.enqueueClientTxn call request true
  | .tpcDecision tid isCommit => s.processTpcDecision tid isCommit
  | .disconnect servers => s.processDisconnectCall servers
  | .tick ms => { s with ledger := { s.ledger with clock := s.ledger.clock + ms } }
  | .sweep => { s with ledger := s.ledger.sweep }

/-- The handler of an event; `processSyncCall` only reads. -/
def dispatch (s : ServerImpl) : Event → ServerImpl
  | .input i => s.handleInput i
  | .prepareCall request => (s.processPrepareCall request).1
  | .acceptCall request => (s.processAcceptCall request).1
  | .commitCall request => s.processCommitCall request
  | .syncCall _ => s
  | .prepareReply status request response => s.handlePrepareReply status request response
  | .acceptReply status request response => s.handleAcceptReply status request response
  | .syncReply status response => s.handleSyncReply status response

/-- One event, from an empty outbox: afterwards the outbox is what this event sent. -/
def handle (s : ServerImpl) (e : Event) : ServerImpl := dispatch { s with outbox := [] } e

end ServerImpl

end MultiPaxosDB
