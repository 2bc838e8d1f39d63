/-
# MultiPaxosDB.Types — the data of `types.h` and `tpc.proto`, and the shard arithmetic of `utils.cc`.

Every record below is one record of the source: the `types` namespace (`Transaction`, `WALEntry`
and the two enumerations), and the protocol-buffer messages the servers exchange.  An `optional`
field of the proto is an `Option`, a `repeated` field a `List`; `int32`/`int64` fields are integers.

The shard arithmetic keeps the 32-bit product of the source: `id * num_clusters` is formed in `int`
before the division, so `int32` wraps it (two's complement) and only then is the quotient by
`total_clients` rounded up.  The static members of `constants` that a run depends on are gathered in
`Constants`; `setupApplicationState` numbers the servers `1 … num_clusters * cluster_size`.
-/
import Mathlib.Algebra.Group.Nat.Defs
import Mathlib.Algebra.Order.Group.Unbundled.Int
import Mathlib.Algebra.Ring.Int.Defs
import Mathlib.Data.List.Nodup

namespace MultiPaxosDB

/-! ## `types.h` -/

/-- `types::Transaction`, also the wire message `tpc.Transaction`. -/
structure Transaction where
  sender : Int
  receiver : Int
  amount : Int
deriving DecidableEq, Repr

inductive TransactionType
  | intra
  | cross
deriving DecidableEq, Repr

inductive TransactionStatus
  | noStatus
  | prepared
  | committed
  | aborted
deriving DecidableEq, Repr

/-- `types::WALEntry` — one entry of a server's in-memory `log`. -/
structure WALEntry where
  tid : Int
  ballotNum : Int
  ballotServerId : Int
  txn : Transaction
  type : TransactionType
  status : TransactionStatus
deriving DecidableEq, Repr

/-- `isPaxosEntry` — the entry was appended by agreement: an intra-shard commit or a cross-shard
2PC prepare.  2PC decisions and aborts are appended per replica and do not count. -/
def isPaxosEntry (e : WALEntry) : Bool :=
  (e.type == .intra && e.status == .committed) || (e.type == .cross && e.status == .prepared)

/-! ## `tpc.proto` -/

@[ext]
structure Ballot where
  num : Int
  serverId : Int
deriving DecidableEq, Repr

structure TransferReq where
  txn : Transaction
  tid : Int
deriving DecidableEq, Repr

structure PrepareReq where
  ballot : Ballot
  paxosIndex : Int
deriving DecidableEq, Repr

structure PrepareRes where
  ack : Bool
  ballot : Ballot
  acceptNum : Option Ballot
  acceptVal : List TransferReq
  latestBallotNum : Option Int
  paxosIndex : Option Int
  serverId : Option Int
deriving DecidableEq, Repr

structure AcceptReq where
  ballot : Ballot
  batch : List TransferReq
deriving DecidableEq, Repr

structure AcceptRes where
  ack : Bool
  ballot : Ballot
deriving DecidableEq, Repr

structure CommitReq where
  ballot : Ballot
deriving DecidableEq, Repr

structure SyncReq where
  lastInserted : Int
deriving DecidableEq, Repr

/-- `tpc.LogEntry`.  The proto carries `type` and `status` as the integers of the two enumerations;
the casts in both directions are the identity on their values. -/
structure LogEntry where
  txn : Transaction
  tid : Int
  type : TransactionType
  status : TransactionStatus
  ballotNum : Int
  ballotServerId : Int
deriving DecidableEq, Repr

structure SyncRes where
  ack : Bool
  logs : List LogEntry
  lastInsertedBallot : Ballot
deriving DecidableEq, Repr

/-- `grpc::Status`, as far as the reply handlers distinguish it. -/
inductive Status
  | ok
  | deadlineExceeded
  | error
deriving DecidableEq, Repr

/-- The default-constructed ballot of a server or message that was never assigned one. -/
def Ballot.zero : Ballot := { num := 0, serverId := 0 }

/-- `getLogEntryFromLocalLog` — a log entry as it goes on the wire. -/
def getLogEntryFromLocalLog (e : WALEntry) : LogEntry :=
  { txn := e.txn, tid := e.tid, type := e.type, status := e.status,
    ballotNum := e.ballotNum, ballotServerId := e.ballotServerId }

/-- The `types::WALEntry` that `handleSyncReply` rebuilds from a received `LogEntry`. -/
def LogEntry.toWALEntry (e : LogEntry) : WALEntry :=
  { tid := e.tid, ballotNum := e.ballotNum, ballotServerId := e.ballotServerId, txn := e.txn,
    type := e.type, status := e.status }

/-! ## `constants.h` and `utils.cc` -/

/-- `constants::total_clients`. -/
def totalClients : Int := 3000

/-- The static members of `constants` set from the command line. -/
structure Constants where
  numClusters : Int
  clusterSize : Int
deriving DecidableEq, Repr

/-- A value of C++ type `int` after an arithmetic operation: reduced modulo `2^32` into the signed
range. -/
def int32 (z : Int) : Int := z.bmod (2 ^ 32)

/-- `ceil((double) a / b)` for a positive divisor. -/
def ceilDiv (a b : Int) : Int := -((-a) / b)

/-- `utils::getClusterIdFromClientId` — the product is formed in `int` before the division. -/
def getClusterIdFromClientId (c : Constants) (id : Int) : Int :=
  ceilDiv (int32 (id * c.numClusters)) totalClients

/-- `utils::getClusterIdFromServerId`. -/
def getClusterIdFromServerId (c : Constants) (id : Int) : Int := ceilDiv id c.clusterSize

/-- `utils::isClientInCluster`. -/
def isClientInCluster (c : Constants) (clientId clusterId : Int) : Bool :=
  getClusterIdFromClientId c clientId == clusterId

/-- The server ids `setupApplicationState` hands out, in increasing order. -/
def serverIds (c : Constants) : List Int :=
  (List.range (c.numClusters * c.clusterSize).toNat).map fun (i : Nat) => (i : Int) + 1

/-- `utils::getServersInCluster`, as ids. -/
def getServersInCluster (c : Constants) (clusterId : Int) : List Int :=
  (serverIds c).filter fun id => getClusterIdFromServerId c id == clusterId

/-- The keys of `stubs`: the other servers of the server's own cluster. -/
def stubsOf (c : Constants) (serverId : Int) : List Int :=
  (getServersInCluster c (getClusterIdFromServerId c serverId)).filter fun id => id != serverId

/-- An `int` that does not overflow is left as it is. -/
theorem int32_eq_self {z : Int} (hlow : -2 ^ 31 ≤ z) (hhigh : z < 2 ^ 31) : int32 z = z :=
  Int.bmod_eq_of_le (by omega) (by omega)

theorem int32_le_self {z : Int} (h : 0 ≤ z) : int32 z ≤ z := by
  simp only [int32, Int.bmod]
  omega

/-- What is added to an `int` is not seen exactly if it wraps around to the same value. -/
theorem int32_add_eq_iff {x y : Int} : int32 (x + y) = x ↔ (2 ^ 32 : Int) ∣ y ∧ -2 ^ 31 ≤ x ∧ x < 2 ^ 31 := by
  simp only [int32, Int.bmod]
  omega

theorem toInt_ofInt (z : Int) : (Int32.ofInt z).toInt = int32 z := Int32.toInt_ofInt

@[simp]
theorem add_ofInt_zero (b : Int32) : b + .ofInt 0 = b := Int32.add_zero b

theorem add_ofInt_add (b : Int32) (y z : Int) : b + .ofInt (y + z) = b + .ofInt y + .ofInt z := by
  rw [Int32.ofInt_add, Int32.add_assoc]

theorem add_ofInt_inj {b : Int32} {y z : Int} : b + .ofInt y = b + .ofInt z ↔ int32 y = int32 z := by
  rw [Int32.add_right_inj, ← Int32.toInt_inj, Int32.toInt_ofInt, Int32.toInt_ofInt]
  rfl

theorem ceilDiv_le_iff {a b k : Int} (hb : 0 < b) : ceilDiv a b ≤ k ↔ a ≤ b * k := by
  have hdiv : -k ≤ -a / b ↔ -k * b ≤ -a := Int.le_ediv_iff_mul_le hb
  rw [Int.neg_mul, Int.mul_comm k b] at hdiv
  unfold ceilDiv
  omega

theorem lt_ceilDiv_iff {a b k : Int} (hb : 0 < b) : k < ceilDiv a b ↔ b * k < a := by
  rw [← Int.not_le, ceilDiv_le_iff hb, Int.not_le]

theorem ceilDiv_eq_iff {a b k : Int} (hb : 0 < b) : ceilDiv a b = k ↔ b * (k - 1) < a ∧ a ≤ b * k := by
  rw [← lt_ceilDiv_iff hb, ← ceilDiv_le_iff hb]
  omega

theorem mem_serverIds {c : Constants} {id : Int} :
    id ∈ serverIds c ↔ 1 ≤ id ∧ id ≤ c.numClusters * c.clusterSize := by
  simp only [serverIds, List.mem_map, List.mem_range]
  constructor
  · rintro ⟨i, hi, rfl⟩
    omega
  · intro h
    exact ⟨(id - 1).toNat, by omega, by omega⟩

theorem mem_getServersInCluster {c : Constants} {clusterId id : Int} :
    id ∈ getServersInCluster c clusterId ↔
      id ∈ serverIds c ∧ getClusterIdFromServerId c id = clusterId := by
  simp [getServersInCluster]

theorem mem_stubsOf {c : Constants} {serverId id : Int} :
    id ∈ stubsOf c serverId ↔
      id ∈ serverIds c ∧ getClusterIdFromServerId c id = getClusterIdFromServerId c serverId ∧
        id ≠ serverId := by
  simp [stubsOf, mem_getServersInCluster, and_assoc]

theorem nodup_serverIds (c : Constants) : (serverIds c).Nodup := by
  refine List.nodup_range.map ?_
  intro a b hab
  exact_mod_cast add_right_cancel hab

theorem nodup_stubsOf (c : Constants) (serverId : Int) : (stubsOf c serverId).Nodup :=
  ((nodup_serverIds c).filter _).filter _

/-- With the default three clusters, client 1 lives in shard 1 and client 1001 in shard 2. -/
example : getClusterIdFromClientId ⟨3, 3⟩ 1 = 1 ∧ getClusterIdFromClientId ⟨3, 3⟩ 1001 = 2 := by
  decide

end MultiPaxosDB
