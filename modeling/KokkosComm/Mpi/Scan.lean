/-
KokkosComm.Mpi.Scan — `inclusive_scan` and `exclusive_scan` (`scan.hpp`),
as routines that throw.

They are the only routines of the library that report an error by an
exception. The caller may catch it and go on, so what they have done to
the profiling regions by then matters: a region is closed by the last
statement of the routine that opened it, and an exception skips it.

`Blocking.scan` is the same routine for a caller that does not catch.
-/
import KokkosComm.Foundation.Exceptions
import KokkosComm.Foundation.Lts
import KokkosComm.Mpi.Blocking

namespace KokkosComm.Mpi.Scan

/-- What calls leave behind: the open regions of `Kokkos::Tools`, the
innermost first, the fences of the space and the MPI calls. -/
structure Profile where
  regions : List String
  fences : List String
  calls : List BlockingCall
  deriving DecidableEq, Repr

abbrev Routine := Throwing String Profile Unit

/-! ## Statements -/

/-- `Kokkos::Tools::pushRegion`. -/
def pushRegion (name : String) : Routine :=
  .act fun s => { s with regions := name :: s.regions }

/-- `Kokkos::Tools::popRegion`. -/
def popRegion : Routine := .act fun s => { s with regions := s.regions.tail }

/-- `space.fence(label)`. -/
def fence (label : String) : Routine := .act fun s => { s with fences := s.fences ++ [label] }

/-- A blocking MPI call, and what it answers, if it returns. The code it
returns is not looked at. -/
def mpi (answer : Outcome Int) (call : BlockingCall) : Routine := do
  Throwing.act fun s => { s with calls := s.calls ++ [call] }
  let _ ← Throwing.call answer

/-! ## The routines -/

/-- What `inclusive_scan` and `exclusive_scan` have in common, without a
space; `name` is the name of the routine in its messages. -/
def scanOn (answer : Outcome Int) (fn : MpiOp → BlockingFn) (name : String) (sv rv : View)
    (op : MpiOp) (comm : MpiComm) : Routine := do
  pushRegion ("KokkosComm::mpi::" ++ name)
  Throwing.throwIf (!sv.isContiguous) ("low-level " ++ name ++ " requires contiguous send view")
  Throwing.throwIf (!rv.isContiguous) ("low-level " ++ name ++ " requires contiguous recv view")
  Throwing.throwIf (sv.size != rv.size)
    (name ++ " requires send and receive views to have the same size")
  let count := CInt.ofSize sv.size
  mpi answer { fn := fn op, sendbuf := some sv, sendcount := count,
               recvbuf := some rv, recvcount := count, comm := comm }
  popRegion

/-- The same on a space. -/
def scan (answer : Outcome Int) (fn : MpiOp → BlockingFn) (name : String) (sv rv : View)
    (op : MpiOp) (comm : MpiComm) : Routine := do
  pushRegion ("KokkosComm::mpi::" ++ name)
  Throwing.throwIf (!sv.isContiguous || !rv.isContiguous)
    (name ++ " for non-contiguous views not implemented")
  fence ("fence before " ++ name)
  scanOn answer fn name sv rv op comm
  popRegion

section Routines

variable (answer : Outcome Int) (sv rv : View) (op : MpiOp) (comm : MpiComm)

/-- `inclusive_scan(sv, rv, op, comm)`. -/
def inclusiveScanOn : Routine := scanOn answer .mpiScan "inclusive_scan" sv rv op comm

/-- `exclusive_scan(sv, rv, op, comm)`. -/
def exclusiveScanOn : Routine := scanOn answer .mpiExscan "exclusive_scan" sv rv op comm

/-- `inclusive_scan(space, sv, rv, op, comm)`. -/
def inclusiveScan : Routine := scan answer .mpiScan "inclusive_scan" sv rv op comm

/-- `exclusive_scan(space, sv, rv, op, comm)`. -/
def exclusiveScan : Routine := scan answer .mpiExscan "exclusive_scan" sv rv op comm

end Routines

/-! ## Calls -/

/-- The four routines. -/
inductive Overload where
  | inclusiveScanOn
  | exclusiveScanOn
  | inclusiveScan
  | exclusiveScan
  deriving DecidableEq, Repr

namespace Overload

/-- The routine takes an execution space. -/
def onSpace : Overload → Bool
  | inclusiveScanOn | exclusiveScanOn => false
  | inclusiveScan | exclusiveScan => true

/-- The regions of a routine and of the one it calls have the same name. -/
def region : Overload → String
  | inclusiveScanOn | inclusiveScan => "KokkosComm::mpi::inclusive_scan"
  | exclusiveScanOn | exclusiveScan => "KokkosComm::mpi::exclusive_scan"

end Overload

/-- Contiguous views of one size: what all four routines ask for. -/
def Accepts (sv rv : View) : Prop :=
  sv.isContiguous = true ∧ rv.isContiguous = true ∧ sv.size = rv.size

instance (sv rv : View) : Decidable (Accepts sv rv) := inferInstanceAs (Decidable (_ ∧ _ ∧ _))

/-- A call of one of them, with what MPI answers. The ranks are asserted at
compile time. -/
structure Call where
  overload : Overload
  sv : View
  rv : View
  op : MpiOp
  comm : MpiComm
  answer : Outcome Int
  ranks : sv.extents.length ≤ 1 ∧ rv.extents.length ≤ 1
  deriving DecidableEq, Repr

namespace Call

def run (c : Call) : Routine :=
  match c.overload with
  | .inclusiveScanOn => inclusiveScanOn c.answer c.sv c.rv c.op c.comm
  | .exclusiveScanOn => exclusiveScanOn c.answer c.sv c.rv c.op c.comm
  | .inclusiveScan => inclusiveScan c.answer c.sv c.rv c.op c.comm
  | .exclusiveScan => exclusiveScan c.answer c.sv c.rv c.op c.comm

/-- The routines accept the views. -/
def Accepted (c : Call) : Prop := Accepts c.sv c.rv

instance (c : Call) : Decidable c.Accepted := inferInstanceAs (Decidable (Accepts c.sv c.rv))

end Call

/-- The caller makes the call, and goes on whether it returned or threw. -/
def step (s : Profile) (c : Call) : Option Profile := do
  let (_, s) ← (c.run.exit s).toOption
  return s

/-- After every call of the sequence, the regions are what they were before
the call. -/
def Balanced (s : Profile) (calls : List Call) : Prop :=
  Lts.AllSteps step (fun s _ s' => s'.regions = s.regions) s calls

end KokkosComm.Mpi.Scan
