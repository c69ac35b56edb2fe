/-
KokkosComm.Mpi.Blocking — the routines of the MPI backend that take an
execution space and return when their MPI call has (`send.hpp`,
`recv.hpp`, `reduce.hpp`, `allgather.hpp`, `alltoall.hpp`,
`allreduce.hpp`, `broadcast.hpp`, `scan.hpp`).

A blocking routine makes one MPI call. It is given as a routine that goes
as far as that call and yields the call and the actions that follow it,
so that what holds at the call can be said without knowing how MPI takes
it: MPI may reject the call, or it may not return.

Each routine on a space fences it and calls the routine of the same name
without a space, which opens the same profiling region again.
-/
import KokkosComm.Mpi.Routines

namespace KokkosComm

/-- `extent(view, i)`. Kokkos gives 1 beyond the rank. -/
def View.extent (v : View) (i : Nat) : Nat := v.extents.getD i 1

namespace Mpi

open Routine

/-- The blocking MPI functions, with their envelope. -/
inductive BlockingFn where
  | mpiSend (dest tag : Int)
  | mpiRsend (dest tag : Int)
  | mpiSsend (dest tag : Int)
  | mpiRecv (source tag : Int)
  | mpiReduce (op : MpiOp) (root : Int)
  | mpiAllgather
  | mpiAlltoall
  | mpiAllreduce (op : MpiOp)
  | mpiBcast (root : Int)
  | mpiScan (op : MpiOp)
  | mpiExscan (op : MpiOp)
  deriving DecidableEq, Repr

/-- A blocking MPI call. Where the function has a send buffer, `none` is
`MPI_IN_PLACE`. -/
structure BlockingCall where
  fn : BlockingFn
  sendbuf : Option View
  sendcount : Int
  recvbuf : Option View
  recvcount : Int
  comm : MpiComm
  deriving DecidableEq, Repr

/-- A routine up to its MPI call, the call, and the actions after it. -/
abbrev BlockingRoutine := Routine (BlockingCall × List HostOp)

/-- `if (condition) throw std::runtime_error(what)`. The library catches
no exception, so the routine does not return. -/
def throwIf (condition : Bool) (_what : String) : Outcome Unit :=
  if condition then .aborts else .returns ()

@[simp] theorem throwIf_true (what : String) : throwIf true what = .aborts := rfl
@[simp] theorem throwIf_false (what : String) : throwIf false what = .returns () := rfl

/-- `a * b` on `size_t`. -/
def mulSize (a b : Nat) : Nat := a * b % 18446744073709551616

namespace Blocking

/-! ## Point to point -/

/-- The send function of `send` for a mode. -/
def mpiSendFn (mode : CommunicationMode) (dest tag : Int) : BlockingFn :=
  match mode with
  | .standard => .mpiSend dest tag
  | .ready => .mpiRsend dest tag
  | .synchronous => .mpiSsend dest tag

/-- `mpi::send`. -/
def send (sv : View) (dest tag : Int) (mode : CommunicationMode) (comm : MpiComm) :
    BlockingRoutine := do
  pushRegion "KokkosComm::mpi::send"
  if sv.isContiguous then
    fence "fence before send"
    return ({ fn := mpiSendFn mode dest tag, sendbuf := some sv, sendcount := spanCount sv,
              recvbuf := none, recvcount := 0, comm := comm }, [.popRegion])
  else
    let args ← Packer.pack "pkd_sv" sv
    fence "fence before send"
    return ({ fn := mpiSendFn mode dest tag, sendbuf := some args.view, sendcount := args.count,
              recvbuf := none, recvcount := 0, comm := comm }, [.popRegion])

/-- `mpi::recv`. The copy into `rv` is not fenced. -/
def recv (rv : View) (src tag : Int) (comm : MpiComm) : BlockingRoutine := do
  pushRegion "KokkosComm::mpi::recv"
  if !rv.isContiguous then
    let args ← Packer.allocatePackedFor "packed" rv
    fence "Fence after allocation before MPI_Recv"
    return ({ fn := .mpiRecv src tag, sendbuf := none, sendcount := 0,
              recvbuf := some args.view, recvcount := args.count, comm := comm },
      [.space (Packer.unpackInto rv args.view), .popRegion])
  else
    fence "Fence before MPI_Recv"
    return ({ fn := .mpiRecv src tag, sendbuf := none, sendcount := 0,
              recvbuf := some rv, recvcount := spanCount rv, comm := comm }, [.popRegion])

/-! ## Reductions -/

/-- The call of `MPI_Reduce` in `reduce`. -/
def reduceCall (sendbuf recvbuf : View) (count : Int) (op : MpiOp) (root : Int)
    (comm : MpiComm) : BlockingCall :=
  { fn := .mpiReduce op root, sendbuf := some sendbuf, sendcount := count,
    recvbuf := some recvbuf, recvcount := count, comm := comm }

/-- `mpi::reduce`, on the process `rank`. The copy into `rv` is not fenced. -/
def reduce (sv rv : View) (op : MpiOp) (rank root : Int) (comm : MpiComm) :
    BlockingRoutine := do
  pushRegion "KokkosComm::mpi::reduce"
  if !sv.isContiguous then
    let sendArgs ← Packer.pack "pkd_sv" sv
    if root = rank ∧ rv.isContiguous = false then
      let recvArgs ← Packer.allocatePackedFor "reduce recv" rv
      fence "fence allocation before MPI call"
      return (reduceCall sendArgs.view recvArgs.view sendArgs.count op root comm,
        [.space (Packer.unpackInto rv recvArgs.view), .popRegion])
    else
      fence "fence packing before MPI call"
      return (reduceCall sendArgs.view rv sendArgs.count op root comm, [.popRegion])
  else
    if root = rank ∧ rv.isContiguous = false then
      let recvArgs ← Packer.allocatePackedFor "reduce recv" rv
      fence "fence allocation before MPI call"
      return (reduceCall sv recvArgs.view (spanCount sv) op root comm,
        [.space (Packer.unpackInto rv recvArgs.view), .popRegion])
    else
      fence "fence space before MPI call"
      return (reduceCall sv rv (spanCount sv) op root comm, [.popRegion])

/-- `mpi::allreduce(sv, rv, op, comm)`. -/
def allreduceOn (sv rv : View) (op : MpiOp) (comm : MpiComm) : BlockingRoutine := do
  pushRegion "KokkosComm::mpi::allreduce"
  failIf (!sv.isContiguous) "low-level allreduce requires contiguous send view"
  failIf (!rv.isContiguous) "low-level allreduce requires contiguous recv view"
  failIf (sv.size != rv.size) "allreduce requires send and receive views to have the same size"
  let count := CInt.ofSize sv.size
  return ({ fn := .mpiAllreduce op, sendbuf := some sv, sendcount := count,
            recvbuf := some rv, recvcount := count, comm := comm }, [.popRegion])

/-- `mpi::allreduce(space, sv, rv, op, comm)`. -/
def allreduce (sv rv : View) (op : MpiOp) (comm : MpiComm) : BlockingRoutine := do
  pushRegion "KokkosComm::mpi::allreduce"
  failIf (!sv.isContiguous || !rv.isContiguous)
    "allreduce for non-contiguous views not implemented"
  fence "fence before allreduce"
  let (call, after) ← allreduceOn sv rv op comm
  return (call, after ++ [.popRegion])

/-- `mpi::allreduce(v, op, comm)`, in place. -/
def allreduceOnInPlace (v : View) (op : MpiOp) (comm : MpiComm) : BlockingRoutine := do
  pushRegion "KokkosComm::mpi::allreduce"
  failIf (!v.isContiguous) "low-level allgather requires contiguous recv view"
  let count := CInt.ofSize v.size
  return ({ fn := .mpiAllreduce op, sendbuf := none, sendcount := count,
            recvbuf := some v, recvcount := count, comm := comm }, [.popRegion])

/-- `mpi::allreduce(space, v, op, comm)`, in place. -/
def allreduceInPlace (v : View) (op : MpiOp) (comm : MpiComm) : BlockingRoutine := do
  pushRegion "KokkosComm::mpi::allreduce"
  failIf (!v.isContiguous) "allreduce for non-contiguous views not implemented"
  fence "fence before allreduce"
  let (call, after) ← allreduceOnInPlace v op comm
  return (call, after ++ [.popRegion])

/-- What `inclusive_scan` and `exclusive_scan` have in common, without a
space; `name` is the name of the routine in its messages. -/
def scanOn (fn : MpiOp → BlockingFn) (name : String) (sv rv : View) (op : MpiOp)
    (comm : MpiComm) : BlockingRoutine := do
  pushRegion ("KokkosComm::mpi::" ++ name)
  throwIf (!sv.isContiguous) ("low-level " ++ name ++ " requires contiguous send view")
  throwIf (!rv.isContiguous) ("low-level " ++ name ++ " requires contiguous recv view")
  throwIf (sv.size != rv.size)
    (name ++ " requires send and receive views to have the same size")
  let count := CInt.ofSize sv.size
  return ({ fn := fn op, sendbuf := some sv, sendcount := count,
            recvbuf := some rv, recvcount := count, comm := comm }, [.popRegion])

def scan (fn : MpiOp → BlockingFn) (name : String) (sv rv : View) (op : MpiOp)
    (comm : MpiComm) : BlockingRoutine := do
  pushRegion ("KokkosComm::mpi::" ++ name)
  throwIf (!sv.isContiguous || !rv.isContiguous)
    (name ++ " for non-contiguous views not implemented")
  fence ("fence before " ++ name)
  let (call, after) ← scanOn fn name sv rv op comm
  return (call, after ++ [.popRegion])

/-- `mpi::inclusive_scan`. -/
def inclusiveScan (sv rv : View) (op : MpiOp) (comm : MpiComm) : BlockingRoutine :=
  scan .mpiScan "inclusive_scan" sv rv op comm

/-- `mpi::exclusive_scan`. -/
def exclusiveScan (sv rv : View) (op : MpiOp) (comm : MpiComm) : BlockingRoutine :=
  scan .mpiExscan "exclusive_scan" sv rv op comm

/-! ## Other collectives -/

/-- `mpi::allgather(sv, rv, comm)`. Both counts are the span of `sv`. -/
def allgatherOn (sv rv : View) (comm : MpiComm) : BlockingRoutine := do
  pushRegion "KokkosComm::Mpi::allgather"
  failIf (!sv.isContiguous) "low-level allgather requires contiguous send view"
  failIf (!rv.isContiguous) "low-level allgather requires contiguous recv view"
  let count := spanCount sv
  return ({ fn := .mpiAllgather, sendbuf := some sv, sendcount := count,
            recvbuf := some rv, recvcount := count, comm := comm }, [.popRegion])

/-- `mpi::allgather(space, sv, rv, comm)`. -/
def allgather (sv rv : View) (comm : MpiComm) : BlockingRoutine := do
  pushRegion "KokkosComm::Mpi::allgather"
  failIf (!sv.isContiguous || !rv.isContiguous)
    "allgather for non-contiguous views not implemented"
  fence "fence before allgather"
  let (call, after) ← allgatherOn sv rv comm
  return (call, after ++ [.popRegion])

/-- `mpi::allgather(space, rv, recvCount, comm)`, in place. -/
def allgatherInPlace (rv : View) (recvCount : UInt64) (comm : MpiComm) : BlockingRoutine := do
  pushRegion "KokkosComm::Mpi::allgather"
  failIf (!rv.isContiguous) "low-level allgather requires contiguous recv view"
  fence "fence before allgather"
  return ({ fn := .mpiAllgather, sendbuf := none, sendcount := 0, recvbuf := some rv,
            recvcount := CInt.ofSize recvCount.toNat, comm := comm }, [.popRegion])

/-- The check of a count in `alltoall`: `size` is the size of the
communicator, `which` names the view. -/
def checkCount (which : String) (count : UInt64) (size : Nat) (v : View) : Outcome Unit :=
  failIf (mulSize count.toNat size > v.extent 0)
    ("alltoall " ++ which ++ "Count * communicator size (" ++ toString count ++ " * " ++
      toString size ++ ") is greater than " ++ which ++ " view size")

/-- `mpi::alltoall(space, sv, sendCount, rv, recvCount, comm)`. -/
def alltoall (sv : View) (sendCount : UInt64) (rv : View) (recvCount : UInt64) (size : Nat)
    (comm : MpiComm) : BlockingRoutine := do
  pushRegion "KokkosComm::mpi::alltoall"
  fence "KokkosComm::mpi::alltoall"
  failIf (!sv.isContiguous || !rv.isContiguous)
    "alltoall for non-contiguous views not implemented"
  checkCount "send" sendCount size sv
  checkCount "recv" recvCount size rv
  return ({ fn := .mpiAlltoall, sendbuf := some sv, sendcount := CInt.ofSize sendCount.toNat,
            recvbuf := some rv, recvcount := CInt.ofSize recvCount.toNat, comm := comm },
    [.popRegion])

/-- `mpi::alltoall(space, rv, recvCount, comm)`, in place. -/
def alltoallInPlace (rv : View) (recvCount : UInt64) (size : Nat) (comm : MpiComm) :
    BlockingRoutine := do
  pushRegion "KokkosComm::mpi::alltoall"
  fence "KokkosComm::mpi::alltoall"
  failIf (!rv.isContiguous) "alltoall for non-contiguous views not implemented"
  checkCount "recv" recvCount size rv
  return ({ fn := .mpiAlltoall, sendbuf := none, sendcount := 0, recvbuf := some rv,
            recvcount := CInt.ofSize recvCount.toNat, comm := comm }, [.popRegion])

/-- `mpi::broadcast(v, root, comm)`. -/
def broadcastOn (v : View) (root : Int) (comm : MpiComm) : BlockingRoutine := do
  pushRegion "KokkosComm::mpi::broadcast"
  failIf (!v.isContiguous) "low-level broadcast requires contiguous view"
  return ({ fn := .mpiBcast root, sendbuf := some v, sendcount := spanCount v,
            recvbuf := some v, recvcount := spanCount v, comm := comm }, [.popRegion])

/-- `mpi::broadcast(space, v, root, comm)`. -/
def broadcast (v : View) (root : Int) (comm : MpiComm) : BlockingRoutine := do
  pushRegion "KokkosComm::mpi::broadcast"
  fence "fence before broadcast"
  let (call, after) ← broadcastOn v root comm
  return (call, after ++ [.popRegion])

end Blocking

end Mpi

end KokkosComm
