import MultiPaxosDB.Lib.Transition
import MultiPaxosDB.Types
import MultiPaxosDB.Wal
import MultiPaxosDB.Ledger
import MultiPaxosDB.Server
import MultiPaxosDB.Cluster
import MultiPaxosDB.LedgerOps
import MultiPaxosDB.Moves
import MultiPaxosDB.LedgerInvariant
import MultiPaxosDB.CatchUp
import MultiPaxosDB.Wire
import MultiPaxosDB.Ballots
import MultiPaxosDB.Lib.Quorum
import MultiPaxosDB.Votes
import MultiPaxosDB.Rounds
import MultiPaxosDB.Batches
import MultiPaxosDB.Locks
import MultiPaxosDB.Provenance
import MultiPaxosDB.Funds
import MultiPaxosDB.Lib.PrefixChain
import MultiPaxosDB.Sequences
import MultiPaxosDB.History
import MultiPaxosDB.Agreement
import MultiPaxosDB.Client
import MultiPaxosDB.Lib.Modify
import MultiPaxosDB.Calls
import MultiPaxosDB.Coordinator
import MultiPaxosDB.Atomicity
import MultiPaxosDB.Leader
import MultiPaxosDB.Conservation
import MultiPaxosDB.Lib.Reservation
import MultiPaxosDB.Reservations
import MultiPaxosDB.Session
import MultiPaxosDB.Progress
import MultiPaxosDB.Recovery
import MultiPaxosDB.Effects
import MultiPaxosDB.Crash
import MultiPaxosDB.Applications
import MultiPaxosDB.Decisions
import MultiPaxosDB.Restarts
import MultiPaxosDB.Lib.Tokens
import MultiPaxosDB.Repeats
import MultiPaxosDB.Copies
import MultiPaxosDB.Lib.Brackets
import MultiPaxosDB.Replicas
import MultiPaxosDB.Lib.Greedy
import MultiPaxosDB.Validation
import MultiPaxosDB.Batching
import MultiPaxosDB.Aborts
import MultiPaxosDB.Lib.Unwinding
import MultiPaxosDB.PaxosView
import MultiPaxosDB.Verdicts
import MultiPaxosDB.Lib.Decimal
import MultiPaxosDB.Lib.Lines
import MultiPaxosDB.WalText
import MultiPaxosDB.WalPending
import MultiPaxosDB.WalTail
import MultiPaxosDB.Orphans
import MultiPaxosDB.LeaderRound
import MultiPaxosDB.LogMarkers
import MultiPaxosDB.ClusterSizes
import MultiPaxosDB.Disconnected
import MultiPaxosDB.WalFailure
import MultiPaxosDB.Classification
import MultiPaxosDB.CsvReader
import MultiPaxosDB.CsvSets
import MultiPaxosDB.CsvRoundTrip
import MultiPaxosDB.Lib.EvenSplit
import MultiPaxosDB.Shards
import MultiPaxosDB.Lib.Patterns
import MultiPaxosDB.CommandLine
import MultiPaxosDB.LeaderBooks
import MultiPaxosDB.Lib.Bank
import MultiPaxosDB.Answers
import MultiPaxosDB.EventLoop
import MultiPaxosDB.Timeouts
import MultiPaxosDB.Lib.Ranks
import MultiPaxosDB.WriteAhead
import MultiPaxosDB.Report
import MultiPaxosDB.Followers
import MultiPaxosDB.Quiescence
import MultiPaxosDB.Storage
