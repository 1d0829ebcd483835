import FlintDB.Catalog.Catalog
import FlintDB.Catalog.CatalogFile
import FlintDB.Catalog.FailedCreate
import FlintDB.Common.Config
import FlintDB.Common.Exception
import FlintDB.Db.Autocommit
import FlintDB.Db.Checkpoint
import FlintDB.Db.CrashedCreate
import FlintDB.Db.Database
import FlintDB.Db.Reading
import FlintDB.Db.Restart
import FlintDB.Db.SharedThread
import FlintDB.Index.BTree
import FlintDB.Index.BTreeNode
import FlintDB.Index.Branching
import FlintDB.Index.DeleteSimulation
import FlintDB.Index.IndexFile
import FlintDB.Index.InsertSimulation
import FlintDB.Index.Multimap
import FlintDB.Index.NodeCodec
import FlintDB.Index.RawTree
import FlintDB.Index.ReopenedTree
import FlintDB.Index.Siblings
import FlintDB.Index.Skeleton
import FlintDB.Index.SplitSearch
import FlintDB.Index.StoredTree
import FlintDB.Index.Tree
import FlintDB.Index.TreeAtomicity
import FlintDB.Index.TreeBounds
import FlintDB.Index.TreeHeight
import FlintDB.Index.TreeInvariant
import FlintDB.Index.TreeLocks
import FlintDB.Index.TreeRuns
import FlintDB.Index.TreeShape
import FlintDB.Index.TreeSystem
import FlintDB.Index.Validation
import FlintDB.Lib.Chain
import FlintDB.Lib.Checksum
import FlintDB.Lib.Decimal
import FlintDB.Lib.Descent
import FlintDB.Lib.Fallible
import FlintDB.Lib.Json
import FlintDB.Lib.LittleEndian
import FlintDB.Lib.Peek
import FlintDB.Lib.Poke
import FlintDB.Lib.Program
import FlintDB.Lib.RedoLog
import FlintDB.Lib.Replay
import FlintDB.Lib.Routing
import FlintDB.Lib.Run
import FlintDB.Lib.Simulation
import FlintDB.Lib.TextReader
import FlintDB.Lib.TornTail
import FlintDB.Lib.Utf8
import FlintDB.Sql.Answers
import FlintDB.Sql.Ast
import FlintDB.Sql.DdlEffects
import FlintDB.Sql.Executor
import FlintDB.Sql.Grammar
import FlintDB.Sql.Lexer
import FlintDB.Sql.Listed
import FlintDB.Sql.Lockstep
import FlintDB.Sql.Matching
import FlintDB.Sql.Messages
import FlintDB.Sql.Mutations
import FlintDB.Sql.ParsedStatements
import FlintDB.Sql.Parser
import FlintDB.Sql.Parsing
import FlintDB.Sql.Planner
import FlintDB.Sql.Printer
import FlintDB.Sql.Relations
import FlintDB.Sql.Rendering
import FlintDB.Sql.Resolution
import FlintDB.Sql.Restarts
import FlintDB.Sql.RowCodec
import FlintDB.Sql.Schema
import FlintDB.Sql.Select
import FlintDB.Sql.Session
import FlintDB.Sql.SessionRuns
import FlintDB.Sql.SqlSemantics
import FlintDB.Sql.StatementEffects
import FlintDB.Sql.Transactions
import FlintDB.Sql.Utf8Relations
import FlintDB.Sql.Utf8Statements
import FlintDB.Storage.BufferPool
import FlintDB.Storage.DiskManager
import FlintDB.Storage.HeapFile
import FlintDB.Storage.HeapIsolation
import FlintDB.Storage.HeapPrograms
import FlintDB.Storage.HeapRefinement
import FlintDB.Storage.HeapRows
import FlintDB.Storage.HeapSystem
import FlintDB.Storage.PageRuns
import FlintDB.Storage.Phantoms
import FlintDB.Storage.RawPage
import FlintDB.Storage.SlottedPage
import FlintDB.Storage.StoredHeap
import FlintDB.Tools.DriverRuns
import FlintDB.Tools.FlintdbCli
import FlintDB.Txn.AfterAbort
import FlintDB.Txn.CallSystem
import FlintDB.Txn.CommitLog
import FlintDB.Txn.CrashAtomicity
import FlintDB.Txn.DamagedLog
import FlintDB.Txn.EngineSteps
import FlintDB.Txn.FailedCommit
import FlintDB.Txn.FailedRecovery
import FlintDB.Txn.ForcedLog
import FlintDB.Txn.LockManager
import FlintDB.Txn.LockSystem
import FlintDB.Txn.LogContents
import FlintDB.Txn.PowerLoss
import FlintDB.Txn.Rollback
import FlintDB.Txn.RolledBack
import FlintDB.Txn.Serializability
import FlintDB.Txn.TransactionManager
import FlintDB.Txn.WaitDie
import FlintDB.Wal.DamagedRecord
import FlintDB.Wal.FailedAppend
import FlintDB.Wal.FlushContract
import FlintDB.Wal.GroupCommit
import FlintDB.Wal.LogHistory
import FlintDB.Wal.LogManager
import FlintDB.Wal.LogRecord
import FlintDB.Wal.Recovery
import FlintDB.Wal.RecoveryResult
