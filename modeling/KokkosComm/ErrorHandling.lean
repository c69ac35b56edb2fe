/-
KokkosComm.ErrorHandling — `mpi::fail_if` and `nccl::fail_if`
(`mpi/impl/error_handling.hpp`, `nccl/impl/error_handling.hpp`).

Both print the message and end the process when the condition holds
(`Kokkos::abort`, or `MPI_Abort` / `ncclCommAbort` when the library is
configured to abort on error), and do nothing otherwise.
-/
import KokkosComm.Foundation.Outcome

namespace KokkosComm

/-- `fail_if(condition, error_msg)`. -/
def failIf (condition : Bool) (_errorMsg : String) : Outcome Unit :=
  if condition then .aborts else .returns ()

@[simp] theorem failIf_true (msg : String) : failIf true msg = .aborts := rfl
@[simp] theorem failIf_false (msg : String) : failIf false msg = .returns () := rfl

end KokkosComm
