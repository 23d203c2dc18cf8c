import ExchangeEngine.Library.Chain
import ExchangeEngine.Library.Ladder
import ExchangeEngine.Library.Fifo
import ExchangeEngine.Library.Split
import ExchangeEngine.Library.Transition
import ExchangeEngine.Library.Atomic
import ExchangeEngine.Library.ReleaseAcquire
import ExchangeEngine.Library.Cyclic
import ExchangeEngine.Library.Lifetime
import ExchangeEngine.Library.Text
import ExchangeEngine.Library.Overwrite
import ExchangeEngine.Library.Bundle
import ExchangeEngine.Library.Greedy
import ExchangeEngine.Memory.ObjectPool
import ExchangeEngine.Memory.PoolRuns
import ExchangeEngine.Engine.Order
import ExchangeEngine.Engine.BranchlessBinarySearch
import ExchangeEngine.Engine.OrderBook
import ExchangeEngine.Engine.LevelSearch
import ExchangeEngine.Engine.QueueBook
import ExchangeEngine.Engine.QueueInvariants
import ExchangeEngine.Engine.PriorityOrder
import ExchangeEngine.Engine.Simulation
import ExchangeEngine.Engine.Refinement
import ExchangeEngine.Engine.Command
import ExchangeEngine.Engine.ChainInvariants
import ExchangeEngine.Engine.Cancellation
import ExchangeEngine.Engine.ReferenceBook
import ExchangeEngine.Engine.TimePriority
import ExchangeEngine.Engine.Queries
import ExchangeEngine.Engine.Uncrossed
import ExchangeEngine.Engine.FillOrKill
import ExchangeEngine.Engine.Liquidity
import ExchangeEngine.Engine.DepthReplay
import ExchangeEngine.Engine.LevelOrders
import ExchangeEngine.Engine.ImmediateOrCancel
import ExchangeEngine.Engine.SplitOrder
import ExchangeEngine.Engine.Mirror
import ExchangeEngine.Engine.Ledger
import ExchangeEngine.Engine.Resources
import ExchangeEngine.Engine.VisibleState
import ExchangeEngine.Engine.LevelShards
import ExchangeEngine.Engine.DepthBook
import ExchangeEngine.Engine.BestExecution
import ExchangeEngine.ConcurrentQueue.Cursor
import ExchangeEngine.ConcurrentQueue.SpscQueue
import ExchangeEngine.ConcurrentQueue.SpscFifo
import ExchangeEngine.ConcurrentQueue.SpscBatch
import ExchangeEngine.ConcurrentQueue.SpscChecks
import ExchangeEngine.ConcurrentQueue.SpscLifetime
import ExchangeEngine.ConcurrentQueue.SpscInterleaving
import ExchangeEngine.ConcurrentQueue.SpscObservers
import ExchangeEngine.ConcurrentQueue.SpscRingView
import ExchangeEngine.ConcurrentQueue.SpscLinearizable
import ExchangeEngine.ConcurrentQueue.SpscProgress
import ExchangeEngine.ConcurrentQueue.SpscReleaseAcquire
import ExchangeEngine.ConcurrentQueue.FastQueue
import ExchangeEngine.ConcurrentQueue.FastInterleaving
import ExchangeEngine.ConcurrentQueue.FastPush
import ExchangeEngine.ConcurrentQueue.FastRing
import ExchangeEngine.ConcurrentQueue.FastLinearizable
import ExchangeEngine.ConcurrentQueue.FastObservers
import ExchangeEngine.ConcurrentQueue.FastReleaseAcquire
import ExchangeEngine.Io.ParseScaled
import ExchangeEngine.Io.DecimalText
import ExchangeEngine.Io.DepthLevels
import ExchangeEngine.Io.DepthDocument
import ExchangeEngine.Io.DepthCapture
import ExchangeEngine.Io.CaptureErrors
import ExchangeEngine.Benchmark.MarketReplay
import ExchangeEngine.Tools.SnapshotLoad
import ExchangeEngine.Tools.DepthRecording
import ExchangeEngine.Benchmark.ReplayData
import ExchangeEngine.Benchmark.SynthUpdates
import ExchangeEngine.Benchmark.ProducerThread
