/-
KokkosComm.Mpi.Routines — the seven routines of the MPI backend that
return a `Request<MpiSpace>` (`isend.hpp`, `irecv.hpp`, `reduce.hpp`,
`allreduce.hpp`, `alltoall.hpp`, `allgather.hpp`, `broadcast.hpp`).

Each packs the views it has to pack, makes one non-blocking MPI call, and
registers what must happen, or stay alive, until the call's operation is
complete. `AsyncCall` names a call of any of them, `AsyncCall.run` makes
it.

`run_spec` is what all of them have in common: exactly one MPI call, whose
handle is the one in the returned request, and a callback of the request
for every managed view the transport may touch.
-/
import KokkosComm.Mpi.Request

namespace KokkosComm.Mpi

open Routine

/-- `POINTTOPOINT_TAG` (`impl/tags.hpp`). -/
def pointToPointTag : Int := 17

/-- `CommModeStandard`, `CommModeReady`, `CommModeSynchronous`. -/
inductive CommunicationMode where
  | standard
  | ready
  | synchronous
  deriving DecidableEq, Repr

/-- The send function of `isend_impl` for a mode. -/
def mpiIsendFn (mode : CommunicationMode) (dest tag : Int) : MpiFn :=
  match mode with
  | .standard => .mpiIsend dest tag
  | .ready => .mpiIrsend dest tag
  | .synchronous => .mpiIssend dest tag

/-- The count passed for a view: `span(view)`, as an `int`. -/
def spanCount (v : View) : Int := CInt.ofSize v.span

/-! ## Point to point -/

/-- `Impl::isend_impl`. -/
def isendImpl (sv : View) (dest tag : Int) (mode : CommunicationMode) (comm : MpiComm) :
    Routine (Request Callback) := do
  if sv.isContiguous then
    fence "fence before isend"
    let request ← start
      { fn := mpiIsendFn mode dest tag, sendbuf := some sv, sendcount := spanCount sv,
        recvbuf := none, recvcount := 0, comm := comm }
    return (Request.new request).extendViewLifetime sv
  else
    let args ← Packer.pack "pkd_sv" sv
    fence "fence before isend"
    let request ← start
      { fn := mpiIsendFn mode dest tag, sendbuf := some args.view, sendcount := args.count,
        recvbuf := none, recvcount := 0, comm := comm }
    return ((Request.new request).extendViewLifetime args.view).extendViewLifetime sv

/-- The lambda registered for an unpacking: it captures `rv` and the packed
view. -/
def unpackCallback (rv packed : View) (label : String) : Callback where
  captures := [rv, packed]
  body := [Packer.unpackInto rv packed, .fence label]
  closed := by simp [Packer.unpackInto, SpaceOp.views]

/-- `Impl::Recv::execute`. -/
def recvExecute (rv : View) (src : Int) (comm : MpiComm) : Routine (Request Callback) := do
  if rv.isContiguous then
    fence "fence before irecv"
    let request ← start
      { fn := .mpiIrecv src pointToPointTag, sendbuf := none, sendcount := 0,
        recvbuf := some rv, recvcount := spanCount rv, comm := comm }
    return (Request.new request).extendViewLifetime rv
  else
    let args ← Packer.allocatePackedFor "TODO" rv
    fence "fence before irecv"
    let request ← start
      { fn := .mpiIrecv src pointToPointTag, sendbuf := none, sendcount := 0,
        recvbuf := some args.view, recvcount := args.count, comm := comm }
    return (Request.new request).addCallback
      (unpackCallback rv args.view "fence `args` unpacking after MPI call")

/-! ## Collectives -/

/-- The call of `MPI_Ireduce` in `ireduce`. -/
def ireduceCall (sendbuf recvbuf : View) (count : Int) (op : MpiOp) (root : Int)
    (comm : MpiComm) : MpiCall :=
  { fn := .mpiIreduce op root, sendbuf := some sendbuf, sendcount := count,
    recvbuf := some recvbuf, recvcount := count, comm := comm }

/-- `mpi::ireduce`, on the process `rank`. -/
def ireduce (sv rv : View) (op : MpiOp) (rank root : Int) (comm : MpiComm) :
    Routine (Request Callback) := do
  pushRegion "KokkosComm::mpi::ireduce"
  let req ←
    if sv.isContiguous then do
      if rank = root ∧ rv.isContiguous = false then do
        let pkdRv ← Packer.allocatePackedFor "KC::mpi::ireduce c_sv pkd_rv" rv
        fence "fence `pkd_rv` packing before MPI call"
        let request ← start (ireduceCall sv pkdRv.view (spanCount sv) op root comm)
        pure ((Request.new request).addCallback
          (unpackCallback rv pkdRv.view "fence `pkd_rv` unpacking after MPI call"))
      else do
        fence "fence before MPI call"
        let request ← start (ireduceCall sv rv (spanCount sv) op root comm)
        pure (Request.new request)
    else do
      let pkdSv ← Packer.pack "pkd_sv" sv
      fence "fence `pkd_sv` packing before MPI call"
      let req ←
        if rank = root ∧ rv.isContiguous = false then do
          let pkdRv ← Packer.allocatePackedFor "KC::mpi::ireduce nc_sv pkd_rv" rv
          fence "fence `pkd_rv` packing before MPI call"
          let request ← start (ireduceCall pkdSv.view pkdRv.view pkdSv.count op root comm)
          pure ((Request.new request).addCallback
            (unpackCallback rv pkdRv.view "fence `pkd_rv` unpacking after MPI call"))
        else do
          let request ← start (ireduceCall pkdSv.view rv pkdSv.count op root comm)
          pure (Request.new request)
      pure (req.extendViewLifetime pkdSv.view)
  popRegion
  return (req.extendViewLifetime sv).extendViewLifetime rv

/-- The common shape of `iallreduce`, `ialltoall` and `iallgather`: both
views contiguous, one call on both of them, both kept alive. -/
def contiguousCollective (region failure : String) (sv rv : View) (call : MpiCall) :
    Routine (Request Callback) := do
  pushRegion region
  failIf (!sv.isContiguous || !rv.isContiguous) failure
  fence "fence before non-blocking all-gather"
  let request ← start call
  popRegion
  return ((Request.new request).extendViewLifetime sv).extendViewLifetime rv

/-- `mpi::iallreduce`. -/
def iallreduce (sv rv : View) (op : MpiOp) (comm : MpiComm) : Routine (Request Callback) :=
  contiguousCollective "KokkosComm::mpi::iallreduce"
    "KokkosComm::mpi::iallreduce: unimplemented for non-contiguous views" sv rv
    { fn := .mpiIallreduce op, sendbuf := some sv, sendcount := spanCount sv,
      recvbuf := some rv, recvcount := spanCount sv, comm := comm }

/-- `mpi::ialltoall`. -/
def ialltoall (sv rv : View) (count : Int) (comm : MpiComm) : Routine (Request Callback) :=
  contiguousCollective "KokkosComm::mpi::ialltoall"
    "KokkosComm::mpi::ialltoall: unimplemented for non-contiguous views" sv rv
    { fn := .mpiIalltoall, sendbuf := some sv, sendcount := count,
      recvbuf := some rv, recvcount := count, comm := comm }

/-- `mpi::iallgather`. The receive count is the span of `sv`, too. -/
def iallgather (sv rv : View) (comm : MpiComm) : Routine (Request Callback) :=
  contiguousCollective "KokkosComm::mpi::iallgather"
    "KokkosComm::mpi::iallgather: unimplemented for non-contiguous views" sv rv
    { fn := .mpiIallgather, sendbuf := some sv, sendcount := spanCount sv,
      recvbuf := some rv, recvcount := spanCount sv, comm := comm }

/-- `mpi::ibroadcast`. The one view is read or written. -/
def ibroadcast (v : View) (root : Int) (comm : MpiComm) : Routine (Request Callback) := do
  pushRegion "KokkosComm::mpi::ibroadcast"
  failIf (!v.isContiguous) "KokkosComm::mpi::ibroadcast: unimplemented for non-contiguous views"
  fence "fence before non-blocking broadcast"
  let request ← start
    { fn := .mpiIbcast root, sendbuf := some v, sendcount := spanCount v,
      recvbuf := some v, recvcount := spanCount v, comm := comm }
  popRegion
  return (Request.new request).extendViewLifetime v

/-! ## All of them -/

/-- A call of a routine that returns a `Request<MpiSpace>`. -/
inductive AsyncCall where
  | isendImpl (sv : View) (dest tag : Int) (mode : CommunicationMode) (comm : MpiComm)
  | recvExecute (rv : View) (src : Int) (comm : MpiComm)
  | ireduce (sv rv : View) (op : MpiOp) (rank root : Int) (comm : MpiComm)
  | iallreduce (sv rv : View) (op : MpiOp) (comm : MpiComm)
  | ialltoall (sv rv : View) (count : Int) (comm : MpiComm)
  | iallgather (sv rv : View) (comm : MpiComm)
  | ibroadcast (v : View) (root : Int) (comm : MpiComm)
  deriving DecidableEq, Repr

namespace AsyncCall

/-- The views the caller passes. -/
def views : AsyncCall → List View
  | .isendImpl sv _ _ _ _ => [sv]
  | .recvExecute rv _ _ => [rv]
  | .ireduce sv rv _ _ _ _ => [sv, rv]
  | .iallreduce sv rv _ _ => [sv, rv]
  | .ialltoall sv rv _ _ => [sv, rv]
  | .iallgather sv rv _ => [sv, rv]
  | .ibroadcast v _ _ => [v]

def run : AsyncCall → Routine (Request Callback)
  | .isendImpl sv dest tag mode comm => Mpi.isendImpl sv dest tag mode comm
  | .recvExecute rv src comm => Mpi.recvExecute rv src comm
  | .ireduce sv rv op rank root comm => Mpi.ireduce sv rv op rank root comm
  | .iallreduce sv rv op comm => Mpi.iallreduce sv rv op comm
  | .ialltoall sv rv count comm => Mpi.ialltoall sv rv count comm
  | .iallgather sv rv comm => Mpi.iallgather sv rv comm
  | .ibroadcast v root comm => Mpi.ibroadcast v root comm

end AsyncCall

end KokkosComm.Mpi
