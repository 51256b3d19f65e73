import Mdfh.Protocol.Decoder
import Mdfh.OrderBook.Replay
import Mdfh.Concurrency.RingSafety
import Mdfh.Concurrency.RingCalls
import Mdfh.Io.Gaps
import Mdfh.Io.Replays
import Mdfh.Io.RouteAgreement
import Mdfh.Io.Isolation
import Mdfh.Io.Shutdown
import Mdfh.Io.Wakeups
import Mdfh.Concurrency.RingGaps
import Mdfh.Concurrency.WaitSafety
import Mdfh.OrderBook.Removals
import Mdfh.Protocol.Codec
import Mdfh.Protocol.Grammar
import Mdfh.Io.FeedGenerator
import Mdfh.Io.FeedRuns
import Mdfh.Io.PoolOwnership
import Mdfh.Io.RouteBound
import Mdfh.Concurrency.GapSpec
import Mdfh.Io.FeedCoherence
import Mdfh.OrderBook.Consistency
import Mdfh.OrderBook.Exhaustion
import Mdfh.OrderBook.PoolCapacity
import Mdfh.Concurrency.RingWrap
import Mdfh.Io.Reactor
import Mdfh.Lib.IntrusiveList
import Mdfh.Lib.TextLines
import Mdfh.OrderBook.FreeList
import Mdfh.Publisher.DeltaLog
import Mdfh.Concurrency.RingMap
import Mdfh.Concurrency.RingProgress
import Mdfh.Io.Indices
import Mdfh.Io.LatencyErasure
import Mdfh.Io.LatencySamples
import Mdfh.Io.Termination
import Mdfh.Io.LiveRoutes
import Mdfh.Io.ThreadedGaps
import Mdfh.Concurrency.GapMonitor
import Mdfh.Io.Lifecycle
import Mdfh.Io.SimulatedRun
import Mdfh.Concurrency.WeakRing
import Mdfh.Concurrency.WeakRingInv
import Mdfh.Concurrency.WeakRingSafety
