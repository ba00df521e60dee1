import StupidKv.Lib.Timeline
import StupidKv.Lib.Execution
import StupidKv.Lib.Processes
import StupidKv.Lib.Framing
import StupidKv.Lib.Files
import StupidKv.Versions
import StupidKv.VersionChain
import StupidKv.ChainCoverage
import StupidKv.Bloom
import StupidKv.Queue
import StupidKv.Inner
import StupidKv.Transaction
import StupidKv.Database
import StupidKv.Holders
import StupidKv.Ledger
import StupidKv.History
import StupidKv.Refinement
import StupidKv.LocalSteps
import StupidKv.CommitSteps
import StupidKv.Simulation
import StupidKv.SnapshotIsolation
import StupidKv.Serial
import StupidKv.SessionReplay
import StupidKv.Chronicle
import StupidKv.Serializability
import StupidKv.Interleaving
import StupidKv.FirstCommitter
import StupidKv.PendingReads
import StupidKv.Settling
import StupidKv.Counters
import StupidKv.ReferenceCounts
import StupidKv.CounterMaps
import StupidKv.CommitQueueGc
import StupidKv.VersionGc
import StupidKv.Bincode
import StupidKv.Persistence
import StupidKv.Recovery
import StupidKv.Store
import StupidKv.DiskShape
import StupidKv.SnapshotSteps
import StupidKv.MemorySteps
import StupidKv.Durability
import StupidKv.CrashRecovery
import StupidKv.Compression
import StupidKv.TornLog
import StupidKv.VersionLaws
import StupidKv.PushOrder
import StupidKv.CommitSlots
import StupidKv.MergeSlots
import StupidKv.Serving
import StupidKv.FileWrites
import StupidKv.Reopening
import StupidKv.AppendWorker
import StupidKv.StaleLog
import StupidKv.AolModes
import StupidKv.EntryHandshake
import StupidKv.ChainReload
import StupidKv.Requests
import StupidKv.ConflictChecks
import StupidKv.ReadValidation
import StupidKv.OwnWrites
import StupidKv.CommitOutcomes
import StupidKv.Alongside
import StupidKv.FailedAppend
import StupidKv.Truncation
import StupidKv.PendingSyncs
import StupidKv.CutSnapshot
import StupidKv.Compaction
import StupidKv.GcFloor
import StupidKv.CounterCells
import StupidKv.PooledDatabase
import StupidKv.Pooling
import StupidKv.Lib.Linearization
import StupidKv.Utf8
import StupidKv.Server
import StupidKv.Linearizability
import StupidKv.ServerProgress
import StupidKv.Maintenance
import StupidKv.Sweeps
import StupidKv.Reclamation
import StupidKv.Lib.Heap
import StupidKv.CAbi
import StupidKv.GoBinding
import StupidKv.GoOwnership
import StupidKv.GoLedger
import StupidKv.Lib.Parking
import StupidKv.Lib.Ranking
import StupidKv.Options
import StupidKv.Lifecycle
import StupidKv.Shutdown
import StupidKv.ShutdownBound
