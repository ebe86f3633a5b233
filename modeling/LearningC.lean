import LearningC.CheckVerdict
import LearningC.CheckOrder
import LearningC.TableOwners
import LearningC.WaiterCount
import LearningC.StaleEdges
import LearningC.MissedDeadlocks
import LearningC.EmptyTable
import LearningC.ReleaseRace
import LearningC.RefCounts
import LearningC.SharedMoves
import LearningC.SharedNodes
import LearningC.UniqueOwners
import LearningC.UniqueNodes
import LearningC.CondVar
import LearningC.ThreadPool
import LearningC.PoolQueue
import LearningC.PoolWakeups
import LearningC.PoolDrain
import LearningC.PriorityQueue
import LearningC.TimerPool
import LearningC.TimerRuns
import LearningC.TimerShutdown
import LearningC.TimerFiring
import LearningC.TimerSleep
import LearningC.NextEvent
import LearningC.LittleEndian
import LearningC.Probuf
import LearningC.WireFormat
import LearningC.WireOrder
import LearningC.PrefixCode
import LearningC.WireRows
import LearningC.RoundTrip
import LearningC.Storage
import LearningC.Vector
import LearningC.VectorOps
import LearningC.VectorList
import LearningC.VectorCopies
import LearningC.VectorThrows
import LearningC.Singleton
import LearningC.SingletonFailure
import LearningC.AcceptLoop
import LearningC.Exclusive
import LearningC.LogFlow
import LearningC.LogQueue
import LearningC.LogLoss
import LearningC.LogSync
import LearningC.LogRotation
import LearningC.LogDays
import LearningC.LogBuffer
import LearningC.DfsStack
import LearningC.ScratchState
import LearningC.EdgeMembership
import LearningC.GraphRefinement
import LearningC.StringCopy
import LearningC.TimerDrain
import LearningC.VectorLimits
import LearningC.TimerSpin
import LearningC.VertexBound
import LearningC.DeadlockVerdict
import LearningC.Budget
import LearningC.CharArray
import LearningC.EchoThreads
import LearningC.EpollRuns
import LearningC.LogDrain
import LearningC.MessageParse
import LearningC.PoolFutures
import LearningC.VectorCost
import LearningC.TimerMain
import LearningC.TimerRounds
