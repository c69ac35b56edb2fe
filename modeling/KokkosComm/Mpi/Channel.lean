/-
KokkosComm.Mpi.Channel — `Channel<MpiSpace>` (`mpi/channel.hpp`), over a
model of MPI's persistent requests.

`MPI_Send_init` and `MPI_Recv_init` note a base address, a count and a
datatype (`PersistentCall`), and give out a handle; nothing is transferred
until the request is started. An active request reads or writes `count`
consecutive elements from the base address (`PersistentCall.cells`),
whatever view the address was taken from.

Value types differ between the views of a channel, so memory is counted in
a unit smaller than all of them (bytes, say): an element of a view occupies
`elemSize` units, and the unit cells of its allocation are numbered from
the first element.

`cycle` is one start/wait cycle of two channels with one request each; any
number of requests and cycles is in `ChannelRun`.

`start` and `wait` hand MPI the number of registered requests as an `int`;
the result here is the list of handles MPI then acts on.
-/
import KokkosComm.Mpi.Routines

namespace KokkosComm.Mpi

variable {α : Type}

/-! ## Persistent requests -/

inductive PersistentFn where
  | mpiSendInit (dest tag : Int)
  | mpiRecvInit (source tag : Int)
  deriving DecidableEq, Repr

/-- What a persistent request was initialised with. `elemSize` is the
extent of the datatype. -/
structure PersistentCall where
  fn : PersistentFn
  buffer : View
  count : Int
  elemSize : Nat
  comm : MpiComm
  deriving DecidableEq, Repr

namespace PersistentCall

/-- The cells an active request reads or writes. -/
def cells (c : PersistentCall) : List Cell :=
  (List.range (c.elemSize * c.count.toNat)).map fun k =>
    (c.buffer.alloc, c.elemSize * c.buffer.base + k)

/-- A send of process `a` and a receive of process `b` match. -/
def matching (a b : Int) (send recv : PersistentCall) : Bool :=
  match send.fn, recv.fn with
  | .mpiSendInit dest tag, .mpiRecvInit source tag' =>
    dest == b && source == a && tag == tag' && send.comm == recv.comm
  | _, _ => false

end PersistentCall

/-- The persistent requests of a process; a handle is a position. -/
abbrev PersistentTable := List PersistentCall

/-- `MPI_Send_init` and `MPI_Recv_init`, and the handle they write. -/
def mpiInit (call : PersistentCall) (mpi : PersistentTable) :
    Outcome (MpiError × MpiRequest × PersistentTable) :=
  if call.count < 0 then .returns (.errCount, none, mpi)
  else .returns (.success, some mpi.length, mpi ++ [call])

/-- `MPI_Startall(count, requests)`: the requests that become active. -/
def mpiStartall (count : Int) (requests : List MpiRequest) :
    Outcome (MpiError × List MpiRequest) :=
  if count < 0 then .returns (.errCount, [])
  else .returns (.success, requests.take count.toNat)

/-- `MPI_Waitall(count, requests, statuses)` on persistent requests, which
keep their handles: the requests that are waited for. `statuses` is the
length of the array for the statuses. -/
def mpiWaitallPersistent (count : Int) (requests : List MpiRequest) (statuses : Nat) :
    Outcome (MpiError × List MpiRequest) :=
  if count < 0 then .returns (.errCount, [])
  else if statuses < count.toNat then .undefined
  else .returns (.success, requests.take count.toNat)

/-! ## `Channel<MpiSpace>` -/

/-- `Channel<MpiSpace>`. Of `statuses_` only the length matters. -/
structure Channel where
  requests_ : List MpiRequest
  statuses_ : Nat
  dst_rank_ : Int
  src_rank_ : Int
  tag_ : Int
  comm_ : MpiComm
  deriving DecidableEq, Repr

namespace Channel

/-- `Channel(dst_rank, src_rank, tag, comm)`. -/
def new (dstRank srcRank tag : Int) (comm : MpiComm) : Channel :=
  { requests_ := [], statuses_ := 0, dst_rank_ := dstRank, src_rank_ := srcRank, tag_ := tag,
    comm_ := comm }

/-- The common body of `sendinit` and `recvinit`: any view is accepted. -/
def init (c : Channel) (fn : PersistentFn) (failure : String) (view : View) (elemSize : Nat)
    (mpi : PersistentTable) : Outcome (Channel × PersistentTable) := do
  let (err, request, mpi) ← mpiInit
    { fn := fn, buffer := view, count := spanCount view, elemSize := elemSize, comm := c.comm_ }
    mpi
  failIf (err != .success) failure
  let requests := c.requests_ ++ [request]
  .returns ({ c with requests_ := requests, statuses_ := requests.length }, mpi)

/-- `sendinit`. -/
def sendinit (c : Channel) (view : View) (elemSize : Nat) (mpi : PersistentTable) :
    Outcome (Channel × PersistentTable) :=
  c.init (.mpiSendInit c.dst_rank_ c.tag_)
    "KokkosComm::Channel::sendinit: request initialization failed" view elemSize mpi

/-- `recvinit`. -/
def recvinit (c : Channel) (view : View) (elemSize : Nat) (mpi : PersistentTable) :
    Outcome (Channel × PersistentTable) :=
  c.init (.mpiRecvInit c.src_rank_ c.tag_)
    "KokkosComm::Channel::recvinit: request initialization failed" view elemSize mpi

/-- `start`. The `Kokkos::fence()` before the call is no action of its own:
a heap holds the results of all kernels. -/
def start (c : Channel) : Outcome (List MpiRequest) := do
  let (err, started) ← mpiStartall (CInt.ofSize c.requests_.length) c.requests_
  failIf (err != .success) "KokkosComm::Channel::start: request start failed"
  .returns started

/-- `wait`. -/
def wait (c : Channel) : Outcome (List MpiRequest) := do
  let (err, waited) ←
    mpiWaitallPersistent (CInt.ofSize c.requests_.length) c.requests_ c.statuses_
  failIf (err != .success) "KokkosComm::Channel::wait: request completion failed"
  .returns waited

end Channel

/-! ## Messages -/

/-- A message arrives in the memory of a receive request. -/
def PersistentCall.receive (c : PersistentCall) (message : List α)
    (h : Heap α) : Outcome (Heap α) :=
  if message.length ≤ c.cells.length then .returns (Memory.scatter h c.cells message)
  else .aborts

/-- The requests behind some handles. -/
def PersistentTable.calls (mpi : PersistentTable) (handles : List MpiRequest) :
    List PersistentCall :=
  handles.filterMap fun handle => handle.bind fun r => mpi[r]?

/-- One cycle: process `a` registers `sv`, process `b` registers `rv`, of
one value type (memory is counted in its elements), both start and wait.
The cells that were read, and the heap of `b`. -/
def cycle (a b tag : Int) (comm : MpiComm) (sv rv : View) (hs hr : Heap α) :
    Outcome (List Cell × Heap α) := do
  let (sendChannel, sendMpi) ← (Channel.new b a tag comm).sendinit sv 1 []
  let (recvChannel, recvMpi) ← (Channel.new b a tag comm).recvinit rv 1 []
  let started ← sendChannel.start
  let posted ← recvChannel.start
  match sendMpi.calls started, recvMpi.calls posted with
  | [send], [recv] =>
    if PersistentCall.matching a b send recv then do
      let h ← recv.receive (Memory.gather hs send.cells) hr
      let _ ← sendChannel.wait
      let _ ← recvChannel.wait
      .returns (send.cells, h)
    else .blocks
  | _, _ => .blocks

end KokkosComm.Mpi
