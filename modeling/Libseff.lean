import Libseff.Foundation.Runs
import Libseff.Foundation.Linearizability
import Libseff.Foundation.FairRuns
import Libseff.Foundation.ObjectClients
import Libseff.Foundation.Potentials
import Libseff.Foundation.Delivery
import Libseff.Foundation.SeparatedLists
import Libseff.Foundation.DoublyLinkedLists
import Libseff.Foundation.TicketBuffer
import Libseff.Foundation.Totals
import Libseff.Foundation.LexicographicRank
import Libseff.Foundation.ByteMemory
import Libseff.Foundation.ShallowHandlers
import Libseff.Foundation.StructLayout
import Libseff.Foundation.CDeclarations
import Libseff.Foundation.BoundedPrinting
import Libseff.Foundation.HeadedMessages
import Libseff.Foundation.SystemCalls
import Libseff.Foundation.ParametricPrograms
import Libseff.Foundation.Suspensions
import Libseff.Foundation.FlatDeclarations
import Libseff.Foundation.PlainDeclarations
import Libseff.Decls.Generate
import Libseff.Decls.LayoutCoherence
import Libseff.Decls.Declarators
import Libseff.Coroutine.Switch
import Libseff.Coroutine.Machine
import Libseff.Coroutine.HandlerSimulation
import Libseff.Coroutine.StateField
import Libseff.Coroutine.SystemStack
import Libseff.Coroutine.DefaultHandlers
import Libseff.Stack.Segments
import Libseff.Stack.SegmentLists
import Libseff.Stack.SegmentSafety
import Libseff.Stack.SegmentSizes
import Libseff.Stack.SegmentCount
import Libseff.Stack.InitialStack
import Libseff.Stack.RedZone
import Libseff.Stack.StackTop
import Libseff.Stack.Morestack
import Libseff.Stack.GrowthTransparency
import Libseff.Stack.SyscallWrapper
import Libseff.Stack.SyscallNesting
import Libseff.Queues.CircularArray
import Libseff.Queues.TlQueue
import Libseff.Queues.TlQueueLinearizability
import Libseff.Queues.ClQueue
import Libseff.Queues.ClQueueDelivery
import Libseff.Queues.TkQueue
import Libseff.Queues.TkQueueDelivery
import Libseff.Queues.RingGrowth
import Libseff.Actors.Mailbox
import Libseff.Actors.MailboxDelivery
import Libseff.Actors.MailboxChannel
import Libseff.Scheduler.Scheff
import Libseff.Scheduler.Conservation
import Libseff.Scheduler.SchedulerQueues
import Libseff.Scheduler.FairTermination
import Libseff.Scheduler.TaskPrograms
import Libseff.Scheduler.WakeOrder
import Libseff.Scheduler.PollProtocol
import Libseff.Skynet.Promise
import Libseff.Skynet.PromiseProtocol
import Libseff.Skynet.SkynetProtocol
import Libseff.Skynet.SkynetResult
import Libseff.Skynet.SkynetTermination
import Libseff.Net.Await
import Libseff.Net.SendAll
import Libseff.Net.RecvBuffer
import Libseff.Net.RecvStream
import Libseff.Http.Response
import Libseff.Http.ResponseBuffer
import Libseff.Http.ResponseFraming
import Libseff.Ad.ReverseMode
import Libseff.Ad.Backpropagation
import Libseff.Ad.HandlerMemory
import Libseff.Ad.AdjointSweep
import Libseff.Ad.AdPrograms
import Libseff.Ad.Differentiation
import Libseff.Lookups.CoroQueue
import Libseff.Lookups.BinarySearch
import Libseff.Lookups.MultiLookup
import Libseff.Lookups.LookupPool
import Libseff.Lookups.LookupAccounts
import Libseff.Lookups.LookupProgress
import Libseff.Lookups.LookupResult
import Libseff.Lookups.LookupReads
