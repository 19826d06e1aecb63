import ForkWatch.Lib.OrdMap
import ForkWatch.Lib.GuardSet
import ForkWatch.Lib.Absence
import ForkWatch.Lib.Machine
import ForkWatch.Lib.Lineage
import ForkWatch.Lib.Chase
import ForkWatch.Lib.LastWriter
import ForkWatch.Lib.Account
import ForkWatch.Lib.CallQueue
import ForkWatch.Lib.Table
import ForkWatch.Lib.Throttle
import ForkWatch.Lib.RoundRobin
import ForkWatch.Lib.Unwinding
import ForkWatch.Lib.Component
import ForkWatch.Monitor.BlockTree
import ForkWatch.Monitor.Causation
import ForkWatch.Monitor.ForkDetector
import ForkWatch.Monitor.Extrinsic
import ForkWatch.Monitor.TxTracker
import ForkWatch.Chain.Context
import ForkWatch.Chain.Connections
import ForkWatch.Chain.Polling
import ForkWatch.Monitor.SlotTracker
import ForkWatch.Monitor.AuthorExtractor
import ForkWatch.Monitor.FinalityTracker
import ForkWatch.Db.Queries
import ForkWatch.Chain.Monitor
import ForkWatch.Chain.Program
import ForkWatch.Proof.Tree
import ForkWatch.Proof.Step
import ForkWatch.Proof.Records
import ForkWatch.Proof.RelayFork
import ForkWatch.Proof.Blame
import ForkWatch.Proof.Resolution
import ForkWatch.Proof.Detection
import ForkWatch.Proof.ForkBooks
import ForkWatch.Proof.ForkEvents
import ForkWatch.Proof.Slots
import ForkWatch.Proof.TxStep
import ForkWatch.Proof.Finality
import ForkWatch.Proof.Acts
import ForkWatch.Proof.Incidents
import ForkWatch.Proof.Winner
import ForkWatch.Proof.Losses
import ForkWatch.Proof.Reinclusion
import ForkWatch.Proof.Marking
import ForkWatch.Proof.Retry
import ForkWatch.Proof.Rescue
import ForkWatch.Proof.Links
import ForkWatch.Proof.Lifecycle
import ForkWatch.Proof.Poll
import ForkWatch.Proof.Missing
import ForkWatch.Proof.Inclusion
import ForkWatch.Proof.Batching
import ForkWatch.Proof.Repeat
import ForkWatch.Proof.Expiry
import ForkWatch.Proof.Gauge
import ForkWatch.Proof.Dues
import ForkWatch.Proof.Attributions
import ForkWatch.Proof.ForkReport
import ForkWatch.Proof.ForkRows
import ForkWatch.Proof.SlotPartition
import ForkWatch.Proof.TreeRuns
import ForkWatch.Proof.RelayParents
import ForkWatch.Proof.Identities
import ForkWatch.Proof.Watchdogs
import ForkWatch.Proof.Handlers
import ForkWatch.Proof.Recovery
import ForkWatch.Proof.ActiveForks
import ForkWatch.Proof.ReviewQueue
import ForkWatch.Proof.Audit
import ForkWatch.Proof.FinalityLog
import ForkWatch.Proof.EventTable
import ForkWatch.Proof.BlockTable
import ForkWatch.Proof.LogTables
import ForkWatch.Proof.Polling
import ForkWatch.Proof.SlotCharges
import ForkWatch.Proof.Isolation
import ForkWatch.Proof.Provenance
import ForkWatch.Proof.EndToEnd
import ForkWatch.Proof.Asking
import ForkWatch.Proof.Parts
import ForkWatch.Proof.SharedHeads
import ForkWatch.Proof.Status
