/-
KokkosComm.Mpi.LowLevel — the point-to-point routines that take no
execution space (`isend.hpp`, `irecv.hpp`, `recv.hpp`).

They check that the view is contiguous, and make one MPI call between the
push and the pop of a profiling region. The handle of a non-blocking one
goes to the caller as it is, without a `Request`. As in `Blocking`, a
routine is given up to its MPI call, with the call and what follows it.
-/
import KokkosComm.Mpi.Blocking

namespace KokkosComm.Mpi

open Routine

/-- The common shape of the non-blocking two. -/
def lowLevel (region failure : String) (v : View) (call : MpiCall) :
    Routine (MpiCall × List HostOp) := do
  pushRegion region
  failIf (!v.isContiguous) failure
  return (call, [.popRegion])

/-- `mpi::isend(sv, dest, tag, comm, req)`. -/
def isendOn (sv : View) (dest tag : Int) (comm : MpiComm) : Routine (MpiCall × List HostOp) :=
  lowLevel "KokkosComm::Impl::isend" "only contiguous views supported for low-level isend" sv
    { fn := .mpiIsend dest tag, sendbuf := some sv, sendcount := spanCount sv,
      recvbuf := none, recvcount := 0, comm := comm }

/-- `mpi::irecv(rv, src, tag, comm, req)`. -/
def irecvOn (rv : View) (src tag : Int) (comm : MpiComm) : Routine (MpiCall × List HostOp) :=
  lowLevel "KokkosComm::mpi::irecv" "Only contiguous irecv viewsupported" rv
    { fn := .mpiIrecv src tag, sendbuf := none, sendcount := 0,
      recvbuf := some rv, recvcount := spanCount rv, comm := comm }

/-- `mpi::recv(rv, src, tag, comm, status)`. -/
def recvOn (rv : View) (src tag : Int) (comm : MpiComm) : BlockingRoutine := do
  pushRegion "KokkosComm::mpi::recv"
  failIf (!rv.isContiguous) "only contiguous views supported for low-level recv"
  return ({ fn := .mpiRecv src tag, sendbuf := none, sendcount := 0,
            recvbuf := some rv, recvcount := spanCount rv, comm := comm }, [.popRegion])

end KokkosComm.Mpi
