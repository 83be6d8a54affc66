import Libmodule.BstIteration
import Libmodule.BstSet
import Libmodule.ContextTeardown
import Libmodule.EvaluationPass
import Libmodule.EventErrno
import Libmodule.HashMapRefinement
import Libmodule.LoopFlush
import Libmodule.MessageData
import Libmodule.PoisonPill
import Libmodule.PoolExecution
import Libmodule.QueueRefinement
import Libmodule.RunningCount
import Libmodule.SrcRegistration
import Libmodule.TaskOnce
import Libmodule.Boundary
import Libmodule.Broadcast
import Libmodule.Composition
import Libmodule.MessageLedger
import Libmodule.Moves
import Libmodule.Procedures
import Libmodule.Publication
import Libmodule.Replacement
import Libmodule.Advancing
import Libmodule.IdleTime
import Libmodule.LazyThreads
import Libmodule.Unstashing
import Libmodule.BoundStops
import Libmodule.Registering
import Libmodule.Arming
import Libmodule.Comparators
import Libmodule.FailedRegistration
import Libmodule.OneshotRemoval
import Libmodule.PipeSetup
import Libmodule.PushedEvents
import Libmodule.TokenRefusals
import Libmodule.BatchAccount
import Libmodule.BstClearing
import Libmodule.HashMapCapacity
import Libmodule.HashMapClearing
import Libmodule.ByteMemory
import Libmodule.LinkedList
import Libmodule.ListIteration
import Libmodule.ManagedMemory
import Libmodule.PoolMutex
import Libmodule.HashMapCopies
import Libmodule.HashMapIterate
import Libmodule.HashMapVisits
import Libmodule.BstTraversal
import Libmodule.FuseClients
import Libmodule.Kqueue
import Libmodule.KqueueArming
import Libmodule.PathRecords
import Libmodule.SrcLen
import Libmodule.SubscriptionMemory
import Libmodule.SubscriptionOwners
import Libmodule.DeliveryPaths
import Libmodule.TimedBatch
import Libmodule.BoundModules
import Libmodule.StackRefinement
import Libmodule.FuseRead
import Libmodule.FusePoll
import Libmodule.PipedSubs
import Libmodule.Denial
import Libmodule.HookPairs
