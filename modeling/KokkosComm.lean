import KokkosComm.Foundation.Outcome
import KokkosComm.Foundation.Exceptions
import KokkosComm.Foundation.CInt
import KokkosComm.Foundation.Lts
import KokkosComm.Foundation.Polling
import KokkosComm.Foundation.Ledger
import KokkosComm.Foundation.Custody
import KokkosComm.Foundation.Journal
import KokkosComm.Foundation.MultiIndex
import KokkosComm.Foundation.Scatter
import KokkosComm.ErrorHandling
import KokkosComm.Nccl.Request
import KokkosComm.Nccl.WaitAllTheorems
import KokkosComm.Nccl.Ownership
import KokkosComm.Nccl.OwnershipTheorems
import KokkosComm.View
import KokkosComm.Mpi.Calls
import KokkosComm.Mpi.Request
import KokkosComm.Mpi.Routines
import KokkosComm.Mpi.RoutinesTheorems
import KokkosComm.Mpi.RequestTheorems
import KokkosComm.Mpi.Program
import KokkosComm.Mpi.ProgramTheorems
import KokkosComm.Mpi.HandleTheorems
import KokkosComm.Mpi.CallbackTheorems
import KokkosComm.Drain
import KokkosComm.DrainTheorems
import KokkosComm.Foundation.Rounds
import KokkosComm.Mpi.RetentionTheorems
import KokkosComm.Mpi.AbandonTheorems
import KokkosComm.Mpi.Transfer
import KokkosComm.Mpi.TransferTheorems
import KokkosComm.Mpi.Channel
import KokkosComm.Mpi.ChannelTheorems
import KokkosComm.Mpi.ChannelRun
import KokkosComm.Mpi.ChannelRunTheorems
import KokkosComm.Mpi.ChannelProgressTheorems
import KokkosComm.Mpi.ChannelOwnership
import KokkosComm.Mpi.ChannelOwnershipTheorems
import KokkosComm.Communicator
import KokkosComm.CommunicatorTheorems
import KokkosComm.Mpi.Delivery
import KokkosComm.Mpi.DeliveryTheorems
import KokkosComm.Foundation.WorkQueue
import KokkosComm.Mpi.Blocking
import KokkosComm.Mpi.Fencing
import KokkosComm.Mpi.FencingTheorems
import KokkosComm.Foundation.Reduction
import KokkosComm.Elementwise
import KokkosComm.Nccl.Calls
import KokkosComm.Nccl.Collectives
import KokkosComm.Nccl.ReduceTheorems
import KokkosComm.Mpi.ReduceTheorems
import KokkosComm.Mpi.AlltoallTheorems
import KokkosComm.Foundation.BlockExchange
import KokkosComm.Nccl.AlltoallTheorems
import KokkosComm.ElementCounts
import KokkosComm.Mpi.FinishingTheorems
import KokkosComm.ReceptionTheorems
import KokkosComm.ReentrancyTheorems
import KokkosComm.Mpi.ScanTheorems
import KokkosComm.CommunicatorFailureTheorems
import KokkosComm.Mpi.ViewTypeTheorems
import KokkosComm.Mpi.Variants
import KokkosComm.Mpi.VariantsTheorems
import KokkosComm.Foundation.Diamond
import KokkosComm.Foundation.Monotone
import KokkosComm.Foundation.Occurrences
import KokkosComm.Packing
import KokkosComm.Subview
import KokkosComm.Choreography
import KokkosComm.Collective
import KokkosComm.Nccl.Contiguous
import KokkosComm.Nccl.Streams
import KokkosComm.Nccl.StreamsTheorems
import KokkosComm.Nccl.CompletionTheorems
import KokkosComm.Nccl.JointTheorems
import KokkosComm.Nccl.Choreography
import KokkosComm.Nccl.ChoreographyTheorems
import KokkosComm.CollectiveTheorems
import KokkosComm.Nccl.DataParallel
import KokkosComm.Nccl.DataParallelTheorems
import KokkosComm.Mpi.Messaging
import KokkosComm.Mpi.MeaningTheorems
import KokkosComm.Mpi.MessagingTheorems
import KokkosComm.Mpi.MessagingRunTheorems
import KokkosComm.Mpi.Supersteps
import KokkosComm.Mpi.SuperstepsTheorems
import KokkosComm.Mpi.Stencil
import KokkosComm.Mpi.Halo
import KokkosComm.Mpi.HaloTheorems
import KokkosComm.Mpi.Choreography
import KokkosComm.Mpi.Parallel
import KokkosComm.Mpi.ParallelRunTheorems
import KokkosComm.Mpi.ParallelProgressTheorems
