import Tecc.Lib.Transition
import Tecc.Lib.Object
import Tecc.Lib.Machine
import Tecc.Lib.Block
import Tecc.BufferFile
import Tecc.QueueFifo
import Tecc.BufferCapacity
import Tecc.MapRefinement
import Tecc.ArenaSlots
import Tecc.WorkerCalls
import Tecc.WorkerSignal
import Tecc.WorkerStranded
import Tecc.WorkerDispatch
import Tecc.ThrPool
import Tecc.ThrPoolTasks
import Tecc.ThrPoolThreads
import Tecc.ThrPoolOnce
import Tecc.ThrPoolPayload
import Tecc.WorkerRpc
import Tecc.Lib.Lock
import Tecc.WorkerControl
import Tecc.Threads
import Tecc.WorkerLife
import Tecc.WorkerLifecycle
import Tecc.WorkerJoin
import Tecc.WorkerTerminate
import Tecc.WorkerOwnership
import Tecc.WorkerReentry
import Tecc.BufferPuts
import Tecc.WorkerResult
import Tecc.BufferHex
import Tecc.BufferHexRange
import Tecc.BufferTable
import Tecc.BufferLeak
import Tecc.BufferJson
import Tecc.ArenaRoutes
import Tecc.MapPointers
import Tecc.Time
import Tecc.Signal
import Tecc.SignalTimed
import Tecc.SignalDeadline
import Tecc.SignalHandler
import Tecc.Lib.Cover
import Tecc.QueueWakeup
import Tecc.Socket
import Tecc.TcpClient
import Tecc.Lib.Guarded
import Tecc.ClientCalls
import Tecc.ServiceLife
import Tecc.ServiceProtocol
import Tecc.ServiceJoin
import Tecc.ServiceShutdown
import Tecc.Lib.Progress
import Tecc.Lib.Fair
import Tecc.ThrPoolReturns
import Tecc.WorkerProgress
import Tecc.WorkerReturns
import Tecc.WorkerAnswers
import Tecc.ServiceView
import Tecc.QueueFine
import Tecc.QueueNodes
import Tecc.QueueStores
import Tecc.QueueDone
import Tecc.TcpServer
import Tecc.ServerShutdown
import Tecc.ServerProgress
import Tecc.ServerReturns
import Tecc.BufferLimits
import Tecc.TaskBuffer
import Tecc.Lib.Iteration
import Tecc.MapIter
import Tecc.MapHash
import Tecc.SocketRead
import Tecc.Lib.Ledger
import Tecc.SocketResources
import Tecc.Lib.RoundRobin
import Tecc.ThrPoolBuffers
import Tecc.ThrPoolRounds
import Tecc.Lib.Interleave
import Tecc.PooledServer
import Tecc.PooledDescriptors
import Tecc.PooledAgreement
