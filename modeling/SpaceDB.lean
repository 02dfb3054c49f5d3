import SpaceDB.Lib.Bytes
import SpaceDB.Lib.Float64
import SpaceDB.Lib.FloatIntegers
import SpaceDB.Lib.Grouping
import SpaceDB.Lib.Lines
import SpaceDB.Lib.OrderedMap
import SpaceDB.Lib.Parser
import SpaceDB.Lib.Passing
import SpaceDB.Lib.Program
import SpaceDB.Lib.Refinement
import SpaceDB.Lib.Relation
import SpaceDB.Lib.Serial
import SpaceDB.Lib.Simulation
import SpaceDB.Lib.Slice
import SpaceDB.Lib.StableSort
import SpaceDB.Lib.Transformer
import SpaceDB.Lib.TwoRuns
import SpaceDB.Lib.Utf8
import SpaceDB.Storage.Compact
import SpaceDB.Storage.Disk
import SpaceDB.Storage.DiskLog
import SpaceDB.Storage.DiskScan
import SpaceDB.Storage.Engine
import SpaceDB.Storage.FileSystem
import SpaceDB.Storage.Memory
import SpaceDB.Storage.Mvcc
import SpaceDB.Storage.MvccKey
import SpaceDB.Storage.Runs
import SpaceDB.Sql.Aggregate
import SpaceDB.Sql.Ast
import SpaceDB.Sql.Executor
import SpaceDB.Sql.Lexer
import SpaceDB.Sql.Parser
import SpaceDB.Sql.Planner
import SpaceDB.Sql.Result
import SpaceDB.Sql.Schema
import SpaceDB.Sql.Values
import SpaceDB.Engine.Clients
import SpaceDB.Engine.Kv
import SpaceDB.Engine.Process
import SpaceDB.Engine.Relations
import SpaceDB.Engine.Session
import SpaceDB.Engine.Sessions
import SpaceDB.Server.Connections
import SpaceDB.Proofs.Answers
import SpaceDB.Proofs.Assignments
import SpaceDB.Proofs.BuiltPlans
import SpaceDB.Proofs.Clients
import SpaceDB.Proofs.Compaction
import SpaceDB.Proofs.CompactionCrashes
import SpaceDB.Proofs.Comparisons
import SpaceDB.Proofs.ConflictChecks
import SpaceDB.Proofs.Crashes
import SpaceDB.Proofs.Deletes
import SpaceDB.Proofs.DiskReads
import SpaceDB.Proofs.DiskRefinement
import SpaceDB.Proofs.DiskReplay
import SpaceDB.Proofs.EngineAgreement
import SpaceDB.Proofs.Executions
import SpaceDB.Proofs.ExecutorRuns
import SpaceDB.Proofs.FailedEnds
import SpaceDB.Proofs.Faults
import SpaceDB.Proofs.FileFaults
import SpaceDB.Proofs.GroupBy
import SpaceDB.Proofs.Histories
import SpaceDB.Proofs.InsertedRows
import SpaceDB.Proofs.Inserts
import SpaceDB.Proofs.Invariant
import SpaceDB.Proofs.JoinCapacity
import SpaceDB.Proofs.JoinClauses
import SpaceDB.Proofs.Joins
import SpaceDB.Proofs.KeyCodec
import SpaceDB.Proofs.KeyOrder
import SpaceDB.Proofs.KeyedStore
import SpaceDB.Proofs.LetterCase
import SpaceDB.Proofs.LexedTokens
import SpaceDB.Proofs.LogFormat
import SpaceDB.Proofs.LogRecords
import SpaceDB.Proofs.LostConnections
import SpaceDB.Proofs.LostUpdates
import SpaceDB.Proofs.NamedTables
import SpaceDB.Proofs.NamedValues
import SpaceDB.Proofs.NoPanics
import SpaceDB.Proofs.Operations
import SpaceDB.Proofs.OrderBy
import SpaceDB.Proofs.Ordinary
import SpaceDB.Proofs.ParsedStatements
import SpaceDB.Proofs.Phases
import SpaceDB.Proofs.Plans
import SpaceDB.Proofs.PrefixEnds
import SpaceDB.Proofs.PrefixScans
import SpaceDB.Proofs.Preservation
import SpaceDB.Proofs.PrimaryKeys
import SpaceDB.Proofs.PrintedClauses
import SpaceDB.Proofs.PrintedTokens
import SpaceDB.Proofs.Printer
import SpaceDB.Proofs.ProcessRuns
import SpaceDB.Proofs.Queries
import SpaceDB.Proofs.Reachable
import SpaceDB.Proofs.Reads
import SpaceDB.Proofs.RefusedWrites
import SpaceDB.Proofs.RelationalCommits
import SpaceDB.Proofs.RelationalStatements
import SpaceDB.Proofs.Relations
import SpaceDB.Proofs.Responses
import SpaceDB.Proofs.Rollbacks
import SpaceDB.Proofs.RoundTrip
import SpaceDB.Proofs.RowKeys
import SpaceDB.Proofs.RowStore
import SpaceDB.Proofs.RunSteps
import SpaceDB.Proofs.ScanOrder
import SpaceDB.Proofs.ScanSnapshots
import SpaceDB.Proofs.SerialRuns
import SpaceDB.Proofs.SerialStore
import SpaceDB.Proofs.Serializability
import SpaceDB.Proofs.SessionRuns
import SpaceDB.Proofs.Sessions
import SpaceDB.Proofs.ShortWrites
import SpaceDB.Proofs.SnapshotIsolation
import SpaceDB.Proofs.SnapshotReads
import SpaceDB.Proofs.SnapshotRows
import SpaceDB.Proofs.Snapshots
import SpaceDB.Proofs.StaleMarkers
import SpaceDB.Proofs.StatementAtomicity
import SpaceDB.Proofs.StatementOrder
import SpaceDB.Proofs.StatementSnapshots
import SpaceDB.Proofs.StatementTexts
import SpaceDB.Proofs.Steps
import SpaceDB.Proofs.StoreView
import SpaceDB.Proofs.StoredKeys
import SpaceDB.Proofs.StoredTables
import SpaceDB.Proofs.Sums
import SpaceDB.Proofs.TableIsolation
import SpaceDB.Proofs.Tiling
import SpaceDB.Proofs.Transactions
import SpaceDB.Proofs.TwinParses
import SpaceDB.Proofs.Updates
import SpaceDB.Proofs.Versions
import SpaceDB.Proofs.WellFormed
import SpaceDB.Proofs.Wraparound
