/-
# MultiPaxosDB.Ledger — the data half of `ServerImpl`: money, locks, log, and the functions that move them.

`ServerImpl` holds two kinds of state.  This module is the one that outlives a round: `balances` with
its LevelDB copy, `balance_applied`, `locks`, `prepareTimestamps`, the WAL, the in-memory `log` and
the three markers into it.  The Paxos round itself — ballots, batches, counters — is in
`MultiPaxosDB.Server`, and never touches the fields below except through the operations defined here.

`balances` is the `std::map<int, int>` read through `operator[]`, so an absent account reads as zero.
Its values are 32-bit integers: a sum that leaves their range wraps, as the machine does it (signed
overflow is undefined in the source).
-/
import Mathlib.Data.Finset.Basic
import Mathlib.Logic.Function.Basic
import MultiPaxosDB.Wal

namespace MultiPaxosDB

structure Ledger where
  constants : Constants
  clusterId : Int
  balances : Int → Int32
  dbBalances : Int → Option Int32
  balanceApplied : Finset Int
  locks : Finset Int
  /-- Reading of the steady clock, in milliseconds. -/
  clock : Int
  prepareTimestamps : TidMap Int
  wal : WAL
  log : List WALEntry
  lastInserted : Int
  lastInsertedBallot : Ballot
  paxosIndex : Int

/-- The initial balance of an account id: 10 for the clients of the shard, and zero — the value a
`std::map` inserts — for any other id. -/
def initialBalance (c : Constants) (clusterId account : Int) : Int32 :=
  if 1 ≤ account ∧ account ≤ totalClients ∧ isClientInCluster c account clusterId then 10 else 0

namespace Ledger

/-- The state `run` builds on first start, with an empty database and no WAL file. -/
def fresh (c : Constants) (clusterId : Int) : Ledger where
  constants := c
  clusterId := clusterId
  balances := initialBalance c clusterId
  dbBalances := fun account =>
    if 1 ≤ account ∧ account ≤ totalClients ∧ isClientInCluster c account clusterId then some 10
    else none
  balanceApplied := ∅
  locks := ∅
  clock := 0
  prepareTimestamps := ∅
  wal := .empty
  log := []
  lastInserted := -1
  lastInsertedBallot := .zero
  paxosIndex := -1

/-- `ServerImpl::isClientInCluster`. -/
def isClientInCluster (l : Ledger) (clientId : Int) : Bool :=
  MultiPaxosDB.isClientInCluster l.constants clientId l.clusterId

/-- `balances[client] += delta`. -/
def addBalance (l : Ledger) (clientId delta : Int) : Ledger :=
  { l with balances := Function.update l.balances clientId (l.balances clientId + .ofInt delta) }

/-- `ServerImpl::updateBalance` — the LevelDB put. -/
def updateBalance (l : Ledger) (clientId : Int) (balance : Int32) : Ledger :=
  { l with dbBalances := Function.update l.dbBalances clientId (some balance) }

/-- `if (first_apply && isClientInCluster(c)) { balances[c] += delta; updateBalance(c, balances[c]); }` -/
def applyInShard (l : Ledger) (firstApply : Bool) (clientId delta : Int) : Ledger :=
  { l with
    balances := if firstApply && l.isClientInCluster clientId then
      Function.update l.balances clientId (l.balances clientId + .ofInt delta) else l.balances
    dbBalances := if firstApply && l.isClientInCluster clientId then
      Function.update l.dbBalances clientId (some (l.balances clientId + .ofInt delta)) else l.dbBalances }

/-- `if (isClientInCluster(c)) locks.insert(c)`. -/
def lockInShard (l : Ledger) (clientId : Int) : Ledger :=
  { l with locks := if l.isClientInCluster clientId then insert clientId l.locks else l.locks }

/-- `if (isClientInCluster(c)) locks.erase(c)`. -/
def unlockInShard (l : Ledger) (clientId : Int) : Ledger :=
  { l with locks := if l.isClientInCluster clientId then l.locks.erase clientId else l.locks }

/-- `locks.erase(sender); locks.erase(receiver);` — the leader releases without a shard check. -/
def unlockBoth (l : Ledger) (txn : Transaction) : Ledger :=
  { l with locks := (l.locks.erase txn.sender).erase txn.receiver }

/-- `ServerImpl::prepareTransaction`. -/
def prepareTransaction (l : Ledger) (request : TransferReq) (ballot : Ballot) : Ledger :=
  let w := l.wal.prepareTransaction request ballot
  let log := l.log ++ [w.2]
  { l with
    wal := w.1
    log := log
    lastInserted := (log.length : Int) - 1
    lastInsertedBallot := ballot
    paxosIndex := l.paxosIndex + 1
    prepareTimestamps := l.prepareTimestamps.insert request.tid l.clock }

/-- `ServerImpl::commitTransaction`.  Both balances move without a shard check, and before either is
persisted. -/
def commitTransaction (l : Ledger) (request : TransferReq) (ballot : Ballot) : Ledger :=
  if request.tid ∈ l.balanceApplied then l
  else
    let w := l.wal.commitTransaction request ballot
    let entry := w.2
    let log := l.log ++ [entry]
    let logged := { l with
      balanceApplied := insert request.tid l.balanceApplied
      wal := w.1
      log := log }
    let moved := (logged.addBalance entry.txn.sender (-entry.txn.amount)).addBalance
      entry.txn.receiver entry.txn.amount
    let saved := (moved.updateBalance entry.txn.sender (moved.balances entry.txn.sender)).updateBalance
      entry.txn.receiver (moved.balances entry.txn.receiver)
    { saved with
      lastInserted := (log.length : Int) - 1
      lastInsertedBallot := ballot
      paxosIndex := l.paxosIndex + 1 }

/-- The tail of `processTpcDecision`, once the decision has been logged: release the locks of the
in-shard accounts and, the first time a tid commits here, move their balances. -/
def settleDecision (l : Ledger) (entry : WALEntry) (firstApply : Bool) : Ledger :=
  (((l.unlockInShard entry.txn.sender).applyInShard firstApply entry.txn.sender
    (-entry.txn.amount)).unlockInShard entry.txn.receiver).applyInShard firstApply
      entry.txn.receiver entry.txn.amount

/-- `ServerImpl::processTpcDecision`, past its test of `i_am_disconnected`. -/
def processTpcDecision (l : Ledger) (tid : Int) (isCommit : Bool) : Ledger :=
  let w := if isCommit then l.wal.commitTransactionTid tid else l.wal.abortTransaction tid
  let entry := w.2
  let erased := { l with prepareTimestamps := l.prepareTimestamps.erase tid, wal := w.1 }
  if entry.tid ≠ -1 then
    let firstApply := isCommit && decide (entry.tid ∉ l.balanceApplied)
    settleDecision { erased with
      log := l.log ++ [entry]
      balanceApplied := if isCommit then insert entry.tid l.balanceApplied else l.balanceApplied }
      entry firstApply
  else erased

/-- `TPC_LOCK_TIMEOUT_MS`. -/
def tpcLockTimeoutMs : Int := 5000

/-- The body of the lock-timeout sweep for one timed-out tid. -/
def timeoutTransaction (l : Ledger) (tid : Int) : Ledger :=
  let w := l.wal.abortTransaction tid
  let entry := w.2
  let written := { l with wal := w.1 }
  let released :=
    if entry.tid ≠ -1 then
      let free := (written.unlockInShard entry.txn.sender).unlockInShard entry.txn.receiver
      { free with log := free.log ++ [entry] }
    else written
  { released with prepareTimestamps := released.prepareTimestamps.erase tid }

/-- The tids the sweep times out now, in the order of the map. -/
def expired (l : Ledger) : List Int :=
  (l.prepareTimestamps.toList.filter fun p => decide (l.clock - p.2 > tpcLockTimeoutMs)).map Prod.fst

/-- The lock-timeout sweep at the end of each iteration of `HandleRPCs`. -/
def sweep (l : Ledger) : Ledger := l.expired.foldl timeoutTransaction l

/-- The loop body of `handleSyncReply`. -/
def insertSynced (l : Ledger) (entry : WALEntry) : Ledger :=
  let firstApply := decide (entry.status = TransactionStatus.committed) && decide (entry.tid ∉ l.balanceApplied)
  let logged := { l with
    log := l.log ++ [entry]
    wal := l.wal.insertEntry entry
    paxosIndex := if isPaxosEntry entry then l.paxosIndex + 1 else l.paxosIndex
    balanceApplied :=
      if entry.status = TransactionStatus.committed then insert entry.tid l.balanceApplied
      else l.balanceApplied }
  (logged.applyInShard firstApply entry.txn.sender (-entry.txn.amount)).applyInShard firstApply
    entry.txn.receiver entry.txn.amount

/-- The part of `handleSyncReply` that runs on an acknowledged reply, less the ballot number. -/
def applySync (l : Ledger) (response : SyncRes) : Ledger :=
  let inserted := (response.logs.map LogEntry.toWALEntry).foldl insertSynced l
  { inserted with
    lastInserted := inserted.lastInserted + (response.logs.length : Int)
    lastInsertedBallot := response.lastInsertedBallot }

/-- `ServerImpl::processSyncCall`.  The loop compares an `int` with a `size_t`, so a negative start
index is never below the size and sends no entry. -/
def processSyncCall (l : Ledger) (request : SyncReq) : SyncRes :=
  if l.lastInserted > request.lastInserted then
    { ack := true
      logs := if 0 ≤ request.lastInserted + 1 then
          (l.log.drop (request.lastInserted + 1).toNat).map getLogEntryFromLocalLog
        else []
      lastInsertedBallot := l.lastInsertedBallot }
  else { ack := false, logs := [], lastInsertedBallot := .zero }

end Ledger

end MultiPaxosDB
