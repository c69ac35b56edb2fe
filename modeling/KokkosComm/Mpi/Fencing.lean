/-
KokkosComm.Mpi.Fencing — execution spaces as queues of work.

What a routine enqueues on its space (copies, allocations of packed views)
runs at some time before the next fence, and so does what the user has
enqueued before. §1 cuts every routine at its MPI call (`SpaceCall`,
`SpaceCall.upToMpi`); the non-blocking routines, which `Routines` has as
one piece, are shown to be their parts in `FencingTheorems`. §2 reads a
trace as events of the queue.

§3 is a program as in `Program`, whose callbacks act on spaces. A callback
captures one space: `spaceOf` gives it for the token of each entry. The
steps of one call and the work of the spaces interleave in any way; the
events of a call are part of the action, and their program part must be
what the call does. Copies are enqueued under the token of the callback
they are from, and `unpackers` (ghost state) has the tokens of the
callbacks that routines registered.
-/
import KokkosComm.Foundation.WorkQueue
import KokkosComm.Mpi.Blocking
import KokkosComm.Mpi.Program
import KokkosComm.Mpi.Transfer

namespace KokkosComm.Mpi

open Routine WorkQueue

/-! ## §1 Routines up to their MPI call -/

/-- An MPI call that is about to be made, and the request that the routine
makes of its handle. -/
abbrev Pending := MpiCall × (MpiRequest → Request Callback)

/-- `Impl::isend_impl`, up to the MPI call. -/
def isendUpToMpi (sv : View) (dest tag : Int) (mode : CommunicationMode) (comm : MpiComm) :
    Routine Pending := do
  if sv.isContiguous then
    fence "fence before isend"
    return ({ fn := mpiIsendFn mode dest tag, sendbuf := some sv, sendcount := spanCount sv,
              recvbuf := none, recvcount := 0, comm := comm },
      fun request => (Request.new request).extendViewLifetime sv)
  else
    let args ← Packer.pack "pkd_sv" sv
    fence "fence before isend"
    return ({ fn := mpiIsendFn mode dest tag, sendbuf := some args.view, sendcount := args.count,
              recvbuf := none, recvcount := 0, comm := comm },
      fun request =>
        ((Request.new request).extendViewLifetime args.view).extendViewLifetime sv)

/-- `Impl::Recv::execute`, up to the MPI call. -/
def recvUpToMpi (rv : View) (src : Int) (comm : MpiComm) : Routine Pending := do
  if rv.isContiguous then
    fence "fence before irecv"
    return ({ fn := .mpiIrecv src pointToPointTag, sendbuf := none, sendcount := 0,
              recvbuf := some rv, recvcount := spanCount rv, comm := comm },
      fun request => (Request.new request).extendViewLifetime rv)
  else
    let args ← Packer.allocatePackedFor "TODO" rv
    fence "fence before irecv"
    return ({ fn := .mpiIrecv src pointToPointTag, sendbuf := none, sendcount := 0,
              recvbuf := some args.view, recvcount := args.count, comm := comm },
      fun request => (Request.new request).addCallback
        (unpackCallback rv args.view "fence `args` unpacking after MPI call"))

/-- `mpi::ireduce`, up to the MPI call. -/
def ireduceUpToMpi (sv rv : View) (op : MpiOp) (rank root : Int) (comm : MpiComm) :
    Routine Pending := do
  pushRegion "KokkosComm::mpi::ireduce"
  let keep (req : Request Callback) := (req.extendViewLifetime sv).extendViewLifetime rv
  let unpack (packed : View) :=
    unpackCallback rv packed "fence `pkd_rv` unpacking after MPI call"
  if sv.isContiguous then
    if rank = root ∧ rv.isContiguous = false then
      let pkdRv ← Packer.allocatePackedFor "KC::mpi::ireduce c_sv pkd_rv" rv
      fence "fence `pkd_rv` packing before MPI call"
      return (ireduceCall sv pkdRv.view (spanCount sv) op root comm,
        fun request => keep ((Request.new request).addCallback (unpack pkdRv.view)))
    else
      fence "fence before MPI call"
      return (ireduceCall sv rv (spanCount sv) op root comm, fun request => keep (.new request))
  else
    let pkdSv ← Packer.pack "pkd_sv" sv
    fence "fence `pkd_sv` packing before MPI call"
    if rank = root ∧ rv.isContiguous = false then
      let pkdRv ← Packer.allocatePackedFor "KC::mpi::ireduce nc_sv pkd_rv" rv
      fence "fence `pkd_rv` packing before MPI call"
      return (ireduceCall pkdSv.view pkdRv.view pkdSv.count op root comm, fun request =>
        keep (((Request.new request).addCallback (unpack pkdRv.view)).extendViewLifetime
          pkdSv.view))
    else
      return (ireduceCall pkdSv.view rv pkdSv.count op root comm,
        fun request => keep ((Request.new request).extendViewLifetime pkdSv.view))

/-- The common shape of `iallreduce`, `ialltoall` and `iallgather`, up to
the MPI call. -/
def contiguousUpToMpi (region failure : String) (sv rv : View) (call : MpiCall) :
    Routine Pending := do
  pushRegion region
  failIf (!sv.isContiguous || !rv.isContiguous) failure
  fence "fence before non-blocking all-gather"
  return (call,
    fun request => ((Request.new request).extendViewLifetime sv).extendViewLifetime rv)

/-- `mpi::ibroadcast`, up to the MPI call. -/
def ibroadcastUpToMpi (v : View) (root : Int) (comm : MpiComm) : Routine Pending := do
  pushRegion "KokkosComm::mpi::ibroadcast"
  failIf (!v.isContiguous) "KokkosComm::mpi::ibroadcast: unimplemented for non-contiguous views"
  fence "fence before non-blocking broadcast"
  return ({ fn := .mpiIbcast root, sendbuf := some v, sendcount := spanCount v,
            recvbuf := some v, recvcount := spanCount v, comm := comm },
    fun request => (Request.new request).extendViewLifetime v)

namespace AsyncCall

/-- A non-blocking routine up to its MPI call. -/
def upToMpi : AsyncCall → Routine Pending
  | .isendImpl sv dest tag mode comm => isendUpToMpi sv dest tag mode comm
  | .recvExecute rv src comm => recvUpToMpi rv src comm
  | .ireduce sv rv op rank root comm => ireduceUpToMpi sv rv op rank root comm
  | .iallreduce sv rv op comm =>
    contiguousUpToMpi "KokkosComm::mpi::iallreduce"
      "KokkosComm::mpi::iallreduce: unimplemented for non-contiguous views" sv rv
      { fn := .mpiIallreduce op, sendbuf := some sv, sendcount := spanCount sv,
        recvbuf := some rv, recvcount := spanCount sv, comm := comm }
  | .ialltoall sv rv count comm =>
    contiguousUpToMpi "KokkosComm::mpi::ialltoall"
      "KokkosComm::mpi::ialltoall: unimplemented for non-contiguous views" sv rv
      { fn := .mpiIalltoall, sendbuf := some sv, sendcount := count,
        recvbuf := some rv, recvcount := count, comm := comm }
  | .iallgather sv rv comm =>
    contiguousUpToMpi "KokkosComm::mpi::iallgather"
      "KokkosComm::mpi::iallgather: unimplemented for non-contiguous views" sv rv
      { fn := .mpiIallgather, sendbuf := some sv, sendcount := spanCount sv,
        recvbuf := some rv, recvcount := spanCount sv, comm := comm }
  | .ibroadcast v root comm => ibroadcastUpToMpi v root comm

/-- What the routine does after its MPI call: the collectives close their
profiling region. -/
def afterMpi : AsyncCall → Routine Unit
  | .isendImpl _ _ _ _ _ => pure ()
  | .recvExecute _ _ _ => pure ()
  | _ => popRegion

end AsyncCall

/-- A call of a routine that takes an execution space, or a communicator
that has one. -/
inductive SpaceCall where
  | async (call : AsyncCall)
  | send (sv : View) (dest tag : Int) (mode : CommunicationMode) (comm : MpiComm)
  | recv (rv : View) (src tag : Int) (comm : MpiComm)
  | reduce (sv rv : View) (op : MpiOp) (rank root : Int) (comm : MpiComm)
  | allreduce (sv rv : View) (op : MpiOp) (comm : MpiComm)
  | allreduceInPlace (v : View) (op : MpiOp) (comm : MpiComm)
  | inclusiveScan (sv rv : View) (op : MpiOp) (comm : MpiComm)
  | exclusiveScan (sv rv : View) (op : MpiOp) (comm : MpiComm)
  | allgather (sv rv : View) (comm : MpiComm)
  | allgatherInPlace (rv : View) (recvCount : UInt64) (comm : MpiComm)
  | alltoall (sv : View) (sendCount : UInt64) (rv : View) (recvCount : UInt64) (size : Nat)
      (comm : MpiComm)
  | alltoallInPlace (rv : View) (recvCount : UInt64) (size : Nat) (comm : MpiComm)
  | broadcast (v : View) (root : Int) (comm : MpiComm)

/-- A routine, without its result. -/
def Routine.void {α : Type} (r : Routine α) : Routine Unit := do
  let _ ← r
  return ()

namespace SpaceCall

/-- What the routine does before it calls MPI. -/
def upToMpi : SpaceCall → Routine Unit
  | .async call => void call.upToMpi
  | .send sv dest tag mode comm => void (Blocking.send sv dest tag mode comm)
  | .recv rv src tag comm => void (Blocking.recv rv src tag comm)
  | .reduce sv rv op rank root comm => void (Blocking.reduce sv rv op rank root comm)
  | .allreduce sv rv op comm => void (Blocking.allreduce sv rv op comm)
  | .allreduceInPlace v op comm => void (Blocking.allreduceInPlace v op comm)
  | .inclusiveScan sv rv op comm => void (Blocking.inclusiveScan sv rv op comm)
  | .exclusiveScan sv rv op comm => void (Blocking.exclusiveScan sv rv op comm)
  | .allgather sv rv comm => void (Blocking.allgather sv rv comm)
  | .allgatherInPlace rv recvCount comm => void (Blocking.allgatherInPlace rv recvCount comm)
  | .alltoall sv sendCount rv recvCount size comm =>
    void (Blocking.alltoall sv sendCount rv recvCount size comm)
  | .alltoallInPlace rv recvCount size comm =>
    void (Blocking.alltoallInPlace rv recvCount size comm)
  | .broadcast v root comm => void (Blocking.broadcast v root comm)

end SpaceCall

/-! ## §2 Work -/

/-- A task on a space: a kernel of the user, the initialisation of a packed
view, or a copy, which may be from the callback with some token. -/
inductive Task (κ : Type) where
  | kernel (k : κ)
  | allocate (v : View)
  | copy (token : Option Nat) (dst src : View)
  deriving DecidableEq, Repr

section Work

variable {κ α : Type}

/-- What an action on a space enqueues. -/
def SpaceOp.event (token : Option Nat) : SpaceOp → Event (Task κ)
  | .deepCopy dst src => .enqueue (.copy token dst src)
  | .fence _ => .fence

/-- What a routine does to the queue of its space. -/
def HostOp.event : HostOp → Option (Event (Task κ))
  | .allocate _ v => some (.enqueue (.allocate v))
  | .space c => some (c.event none)
  | _ => none

def spaceEvents (trace : List HostOp) : List (Event (Task κ)) := trace.filterMap HostOp.event

/-- What a task does to the memory. A packed view is not initialised. -/
def Task.run (kernel : κ → Heap α → Heap α) : Task κ → Heap α → Heap α
  | .kernel k, h => kernel k h
  | .allocate _, h => h
  | .copy _ dst src, h => h.deepCopy dst src

/-- The copy is from the callback of one of these tokens. -/
def Task.isFrom (tokens : List Nat) : Task κ → Prop
  | .copy (some token) _ _ => token ∈ tokens
  | _ => False

end Work

/-! ## §3 Programs with spaces -/

abbrev SpaceId := Nat

structure Spaces (κ : Type) where
  program : Program
  queues : SpaceId → List (Task κ)
  unpackers : List Nat

namespace Spaces

variable {κ : Type}

/-- `n` requests as in `Program.start`, and spaces with any work of the
user. -/
def start (n : Nat) (queues : SpaceId → List κ) : Spaces κ where
  program := .start n
  queues s := (queues s).map .kernel
  unpackers := []

inductive Act (κ : Type) where
  /-- A call of the program; `s` is the space a routine is given. -/
  | call (a : Op) (s : SpaceId) (events : List (SpaceId × Event (Task κ)))
  /-- A blocking routine on the space `s`. -/
  | block (routine : BlockingRoutine) (s : SpaceId) (events : List (SpaceId × Event (Task κ)))
  | launch (s : SpaceId) (k : κ)
  | advance (s : SpaceId)
  | fence (s : SpaceId)

/-- The events of the callbacks that run, in order. -/
def callbackEvents (spaceOf : Nat → SpaceId) (ran : List Entry) :
    List (SpaceId × Event (Task κ)) :=
  ran.flatMap fun e => e.callback.body.map fun c => (spaceOf e.token, c.event (some e.token))

/-- What a call does to the spaces. -/
def caused (spaceOf : Nat → SpaceId) (w : Program) (a : Op) (s : SpaceId) (w' : Program) :
    List (SpaceId × Event (Task κ)) :=
  match a with
  | .launch _ call =>
    match call.run (Host.start w.nextOp w.nextAlloc) with
    | .returns (_, host) => (spaceEvents host.trace).map fun e => (s, e)
    | _ => []
  | _ => callbackEvents spaceOf (w'.ran.drop w.ran.length)

/-- The callbacks a routine has registered. -/
def registers (w : Program) (a : Op) (w' : Program) : List Nat :=
  match a with
  | .launch _ _ => (w'.registered.drop w.registered.length).map Entry.token
  | _ => []

variable [DecidableEq κ]

def step (spaceOf : Nat → SpaceId) (w : Spaces κ) : Act κ → Option (Spaces κ)
  | .call a s events =>
    match w.program.perform a with
    | .returns (_, p) =>
      if programs events = caused spaceOf w.program a s p then
        some {
          program   := p
          queues    := pendingAt w.queues events
          unpackers := w.unpackers ++ registers w.program a p }
      else none
    | _ => none
  | .block routine s events =>
    match routine (Host.start w.program.nextOp w.program.nextAlloc) with
    | .returns ((_, after), host) =>
      if programs events = (spaceEvents (host.trace ++ after)).map fun e => (s, e) then
        some { w with
          program := { w.program with nextAlloc := host.nextAlloc }
          queues  := pendingAt w.queues events }
      else none
    | _ => none
  | .launch s k => some { w with queues := pendingAt w.queues [(s, .enqueue (.kernel k))] }
  | .advance s => some { w with queues := pendingAt w.queues [(s, .advance)] }
  | .fence s => some { w with queues := pendingAt w.queues [(s, .fence)] }

/-- No copy of a routine's callback is pending on any space. -/
def NothingUnpacking (w : Spaces κ) : Prop :=
  ∀ s, ∀ t ∈ w.queues s, ¬ t.isFrom w.unpackers

end Spaces

end KokkosComm.Mpi
