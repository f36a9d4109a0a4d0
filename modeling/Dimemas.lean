import Dimemas.Library.Transitions
import Dimemas.Library.Grouping
import Dimemas.Library.Holes
import Dimemas.Library.Lines
import Dimemas.Library.Simulation
import Dimemas.Library.RingBuffer
import Dimemas.Library.Formats
import Dimemas.Input.Streams
import Dimemas.Input.TraceSizes
import Dimemas.Input.ReadingProgress
import Dimemas.Input.Records
import Dimemas.Input.RecordText
import Dimemas.Library.LinkedList
import Dimemas.Library.StableQueue
import Dimemas.Utils.Equeue
import Dimemas.Utils.ExtraStatistics
import Dimemas.Utils.ListQueue
import Dimemas.Sched.EventQueue
import Dimemas.Sched.Events
import Dimemas.Sched.Threads
import Dimemas.Sched.Dispatch
import Dimemas.Sched.Preemption
import Dimemas.Sched.General
import Dimemas.Sched.Bursts
import Dimemas.Sched.TimeSlices
import Dimemas.Library.SearchedQueue
import Dimemas.Model.Messages
import Dimemas.Model.Modules
import Dimemas.Input.AsynchRead
import Dimemas.Input.AsynchRuns
import Dimemas.Model.Handshake
import Dimemas.Model.NodeDefinitions
import Dimemas.Model.PointToPoint
import Dimemas.Model.Delivery
import Dimemas.Library.Assignment
import Dimemas.Library.Reservations
import Dimemas.Model.Links
import Dimemas.Model.LinkOwnership
import Dimemas.Model.NetworkLinks
import Dimemas.Model.Buses
import Dimemas.Model.BusAccounting
import Dimemas.Model.Semaphores
import Dimemas.Model.Senders
import Dimemas.Model.PredefinedMappings
import Dimemas.Model.ReceiveNotifications
import Dimemas.Model.RendezVous
import Dimemas.Model.ResetState
import Dimemas.Model.BusRuns
import Dimemas.Model.Collectives
import Dimemas.Model.CollectiveGroups
import Dimemas.Model.CollectiveMatching
import Dimemas.Model.WanReservation
import Dimemas.Model.WanPhases
import Dimemas.Model.LinkSteps
import Dimemas.Model.IrecvPairing
import Dimemas.Model.LinkConservation
import Dimemas.Library.BackwardWalks
import Dimemas.Library.Batching
import Dimemas.Library.BinaryRounding
import Dimemas.Library.WeakOrders
import Dimemas.Library.Tables
import Dimemas.Prv2dim.BlockBalance
import Dimemas.Prv2dim.CollectiveTranslation
import Dimemas.Prv2dim.PendingCounters
import Dimemas.Library.Tally
import Dimemas.Model.CollectiveCost
import Dimemas.Model.CollectiveRepresentatives
import Dimemas.Model.CollectiveTiming
import Dimemas.Library.CycleSearch
import Dimemas.Library.SearchDepth
import Dimemas.Library.Draining
import Dimemas.Utils.Graph
import Dimemas.Utils.DeadlockAnalysis
import Dimemas.Utils.ChainBuffer
import Dimemas.Utils.DependencyLists
import Dimemas.Utils.DeadlockBreak
import Dimemas.Utils.CollectiveDependencies
import Dimemas.Utils.BlockingMessages
import Dimemas.Utils.EagerMessages
import Dimemas.Utils.CriticalPath
import Dimemas.Utils.TraceOperations
import Dimemas.Utils.QueueCursor
import Dimemas.Utils.Restarts
import Dimemas.Library.Marks
import Dimemas.Library.Merging
import Dimemas.Library.Meter
import Dimemas.Prv2dim.TaskTranslation
import Dimemas.Prv2dim.RecordOrder
import Dimemas.Prv2dim.ComputationTime
import Dimemas.Library.BinomialTree
import Dimemas.Model.ContentionStages
import Dimemas.Model.LogicalReceives
import Dimemas.Model.MessageSizes
import Dimemas.Model.TaskMapping
import Dimemas.Model.Transfers
import Dimemas.Model.WildcardRendezVous
import Dimemas.Library.CarriedMaximum
import Dimemas.Model.CollectiveOrder
import Dimemas.PrvUtils.ParaverRecords
import Dimemas.Library.Scanning
import Dimemas.Prv2dim.TraceHeader
import Dimemas.Input.HeaderReader
import Dimemas.Input.HeaderRoundTrip
import Dimemas.PrvUtils.ExternalSort
import Dimemas.PrvUtils.Paraver
import Dimemas.PrvUtils.Emission
import Dimemas.PrvUtils.TraceOrder
import Dimemas.PrvUtils.TraceRestart
import Dimemas.Model.Windows
import Dimemas.Utils.QueueTraversal
import Dimemas.Utils.PriorityInsertion
import Dimemas.Input.StreamBudget
import Dimemas.PrvUtils.TraceWindow
import Dimemas.Model.RmaNetwork
import Dimemas.Model.Fences
import Dimemas.Model.EpochRuns
import Dimemas.Input.OffsetSearch
import Dimemas.Prv2dim.TraceParser
import Dimemas.Prv2dim.SimulatedTrace
import Dimemas.Prv2dim.RecordSelection
import Dimemas.Sched.ReadyThreads
import Dimemas.Sched.EventManager
import Dimemas.Library.Demultiplexing
import Dimemas.Prv2dim.RecordDispatch
import Dimemas.Prv2dim.CommunicationSplit
import Dimemas.Prv2dim.RecordStack
import Dimemas.Model.AcceleratorSync
import Dimemas.Model.LinkOrder
import Dimemas.Model.CollectiveWaits
