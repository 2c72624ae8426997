import MiniStore.Lib.OrdMap
import MiniStore.Lib.SetMap
import MiniStore.Lib.DLinked
import MiniStore.Lib.DenseIndex
import MiniStore.Lib.RoundRobin
import MiniStore.Lib.Text
import MiniStore.Lib.LineBuffer
import MiniStore.Lib.LruCache
import MiniStore.Lib.Fs
import MiniStore.Lib.PlainObject
import MiniStore.Lib.Trace
import MiniStore.Lib.Sharded
import MiniStore.Lib.FixedWindow
import MiniStore.Lib.RegExp
import MiniStore.Lib.Utf8
import MiniStore.Protocol.Command
import MiniStore.Protocol.CommandParser
import MiniStore.Protocol.Printing
import MiniStore.Protocol.Rendering
import MiniStore.Protocol.Replies
import MiniStore.Protocol.ReplyGrammar
import MiniStore.Protocol.ReplyParser
import MiniStore.Protocol.Chunks
import MiniStore.Protocol.PushFrames
import MiniStore.Store.LRUTracker
import MiniStore.Store.RecencyList
import MiniStore.Store.ExpiryManager
import MiniStore.Store.InMemoryStore
import MiniStore.Store.Keyspace
import MiniStore.Store.Operations
import MiniStore.Store.Lockstep
import MiniStore.Store.KeyObjects
import MiniStore.Store.PersistenceManager
import MiniStore.Store.AofWriter
import MiniStore.Store.LogShape
import MiniStore.Store.AofRewrite
import MiniStore.Store.RewriteFailure
import MiniStore.Store.OpenLog
import MiniStore.Store.Durability
import MiniStore.Store.Extraction
import MiniStore.Store.Snapshot
import MiniStore.Store.RestoreCapacity
import MiniStore.Store.DirtyCount
import MiniStore.Store.PeriodicSave
import MiniStore.Store.Recency
import MiniStore.Store.Sweeps
import MiniStore.Store.KeyedRuns
import MiniStore.Store.SweepCoverage
import MiniStore.Store.DeadlineTable
import MiniStore.Store.ReadOut
import MiniStore.Store.KeysMRU
import MiniStore.Store.Departures
import MiniStore.Store.Glob
import MiniStore.Store.Evicted
import MiniStore.Store.SweepTurn
import MiniStore.Store.EvictionOrder
import MiniStore.Store.VolatileDump
import MiniStore.Server.TcpServer
import MiniStore.Server.PubSubManager
import MiniStore.Server.Registry
import MiniStore.Server.StatsServer
import MiniStore.Server.Walks
import MiniStore.Server.CommandHandler
import MiniStore.Server.WrongType
import MiniStore.Server.Mutations
import MiniStore.Server.Process
import MiniStore.Server.Shutdown
import MiniStore.Server.Runs
import MiniStore.Server.Invariants
import MiniStore.Server.Spelling
import MiniStore.Server.Answers
import MiniStore.Server.WellFormed
import MiniStore.Server.ExecReplies
import MiniStore.Server.Gates
import MiniStore.Server.PushRouting
import MiniStore.Server.SubscriberMode
import MiniStore.Server.Sessions
import MiniStore.Server.Admission
import MiniStore.Server.Failures
import MiniStore.Server.Transactions
import MiniStore.Server.Deliveries
import MiniStore.Server.Network
import MiniStore.Server.NetworkRuns
import MiniStore.Server.Outputs
import MiniStore.Server.Playground
import MiniStore.Server.Semantics
import MiniStore.Server.Meaning
import MiniStore.Server.Refinement
import MiniStore.Server.Background
import MiniStore.Recovery.Replay
import MiniStore.Recovery.CompleteLog
import MiniStore.Recovery.Framing
import MiniStore.Recovery.RoundTrip
import MiniStore.Recovery.Evictions
import MiniStore.Recovery.Expirations
import MiniStore.Recovery.Onto
import MiniStore.Recovery.SnapshotLog
import MiniStore.Recovery.Compaction
import MiniStore.Recovery.TornTail
import MiniStore.Recovery.LogFile
import MiniStore.Recovery.LiveLog
import MiniStore.Recovery.BuiltLog
import MiniStore.Recovery.MovingRewrite
import MiniStore.Recovery.Deadlines
import MiniStore.Recovery.Restarts
import MiniStore.Cli.Client
import MiniStore.Cli.Session
