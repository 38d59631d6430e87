import ByteCacheDB.Lib.Numerals
import ByteCacheDB.Lib.Lines
import ByteCacheDB.Lib.PartMap
import ByteCacheDB.Text
import ByteCacheDB.CommandParser
import ByteCacheDB.Codec
import ByteCacheDB.Clock
import ByteCacheDB.StorageEngine
import ByteCacheDB.Cell
import ByteCacheDB.Counters
import ByteCacheDB.Persistence
import ByteCacheDB.Replay
import ByteCacheDB.Snapshot
import ByteCacheDB.Lib.Runs
import ByteCacheDB.Recovery
import ByteCacheDB.Checkpoint
import ByteCacheDB.CutRecord
import ByteCacheDB.CutLog
import ByteCacheDB.TornLog
import ByteCacheDB.CellOp
import ByteCacheDB.ClientHandler
import ByteCacheDB.Execution
import ByteCacheDB.Session
import ByteCacheDB.RecoveryTime
import ByteCacheDB.Restart
import ByteCacheDB.Mirror
import ByteCacheDB.Durability
import ByteCacheDB.Grammar
import ByteCacheDB.Lib.Threads
import ByteCacheDB.ThreadPool
import ByteCacheDB.Connections
import ByteCacheDB.Framing
import ByteCacheDB.EngineCalls
import ByteCacheDB.TtlMap
import ByteCacheDB.Shards
import ByteCacheDB.Lifetimes
import ByteCacheDB.SecondRecovery
import ByteCacheDB.Concurrency
import ByteCacheDB.KeyLimit
import ByteCacheDB.Lib.TwoPhase
import ByteCacheDB.Isolation
import ByteCacheDB.Responses
import ByteCacheDB.Deadlines
import ByteCacheDB.Increment
import ByteCacheDB.Accounting
import ByteCacheDB.LeastRecent
import ByteCacheDB.Evictions
import ByteCacheDB.Lib.LockOrder
import ByteCacheDB.LockScripts
import ByteCacheDB.WritePath
import ByteCacheDB.LiveRecovery
import ByteCacheDB.LineLimit
import ByteCacheDB.AtomicSave
import ByteCacheDB.Lib.Progress
import ByteCacheDB.PoolProgress
import ByteCacheDB.LogThreads
import ByteCacheDB.LogSync
import ByteCacheDB.Service
import ByteCacheDB.Shutdown
import ByteCacheDB.ListenerProgress
import ByteCacheDB.Incarnations
import ByteCacheDB.Reference
import ByteCacheDB.Conversation
import ByteCacheDB.TtlManager
