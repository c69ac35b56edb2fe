/-
KokkosComm.Mpi.Calls — what a library routine does to its surroundings.

A routine of the MPI backend enqueues copies on an execution space, fences
it, opens and closes profiling regions, allocates packed views, and makes
one MPI call. Its control flow depends on the views and on the rank, never
on the data, so a routine is modelled as a computation that returns its
result and the TRACE of these actions. What the actions mean is left to
the reader of the trace: the memory they change, the allocations they
touch, or the queue they are enqueued on.

MPI is modelled by its documented behaviour under the default error
handler `MPI_ERRORS_ARE_FATAL`: a negative count is `MPI_ERR_COUNT`, and
the process ends. An accepted non-blocking call gives out a fresh handle.

All views of one call have one element type (the routines assert it), so
a call carries no datatype.
-/
import KokkosComm.ErrorHandling
import KokkosComm.Foundation.CInt
import KokkosComm.View

namespace KokkosComm.Mpi

/-- A started operation. `MPI_Request` is a handle to one, or null. -/
abbrev OpId := Nat

/-- `MPI_Request`; `none` is `MPI_REQUEST_NULL`. -/
abbrev MpiRequest := Option OpId

/-- `MPI_Comm` and `MPI_Op`, handles the library only passes on. -/
abbrev MpiComm := Nat
abbrev MpiOp := Nat

/-! ## Actions -/

/-- What is enqueued on an execution space, and the wait for it. -/
inductive SpaceOp where
  | deepCopy (dst src : View)
  | fence (label : String)
  deriving DecidableEq, Repr

/-- The views an action on a space touches. -/
def SpaceOp.views : SpaceOp → List View
  | deepCopy dst src => [dst, src]
  | fence _ => []

/-- The views an action on a space writes. -/
def SpaceOp.written : SpaceOp → List View
  | deepCopy dst _ => [dst]
  | fence _ => []

theorem SpaceOp.written_subset (c : SpaceOp) : c.written ⊆ c.views := by
  cases c with
  | deepCopy dst src => simp [written, views]
  | fence label => simp [written]

/-- The non-blocking MPI functions, with their envelope. -/
inductive MpiFn where
  | mpiIsend (dest tag : Int)
  | mpiIrsend (dest tag : Int)
  | mpiIssend (dest tag : Int)
  | mpiIrecv (source tag : Int)
  | mpiIreduce (op : MpiOp) (root : Int)
  | mpiIallreduce (op : MpiOp)
  | mpiIalltoall
  | mpiIallgather
  | mpiIbcast (root : Int)
  deriving DecidableEq, Repr

/-- An MPI call: the buffers are the views whose data handles are passed. -/
structure MpiCall where
  fn : MpiFn
  sendbuf : Option View
  sendcount : Int
  recvbuf : Option View
  recvcount : Int
  comm : MpiComm
  deriving DecidableEq, Repr

namespace MpiCall

/-- The views whose memory the transport may read or write. -/
def buffers (c : MpiCall) : List View := c.sendbuf.toList ++ c.recvbuf.toList

/-- No count is negative. -/
def validCounts (c : MpiCall) : Bool := 0 ≤ c.sendcount && 0 ≤ c.recvcount

end MpiCall

inductive HostOp where
  | pushRegion (name : String)
  | popRegion
  | allocate (label : String) (v : View)
  | space (c : SpaceOp)
  | mpi (op : OpId) (call : MpiCall)
  deriving DecidableEq, Repr

/-- The MPI calls of a trace, with the handles they gave out. -/
def mpiCalls (trace : List HostOp) : List (OpId × MpiCall) :=
  trace.filterMap fun a =>
    match a with
    | .mpi op call => some (op, call)
    | _ => none

/-! ## Routines -/

/-- What a routine finds and leaves: the next fresh handle, the next fresh
allocation, and the trace of the actions so far. -/
structure Host where
  nextOp : OpId
  nextAlloc : AllocId
  trace : List HostOp
  deriving DecidableEq, Repr

/-- A host on which nothing has been done. -/
def Host.start (nextOp : OpId) (nextAlloc : AllocId) : Host :=
  { nextOp := nextOp, nextAlloc := nextAlloc, trace := [] }

def Host.log (h : Host) (a : HostOp) : Host := { h with trace := h.trace ++ [a] }

/-- The host after the allocation of a packed view for `v`. -/
def Host.allocated (h : Host) (label : String) (v : View) : Host :=
  { h with nextAlloc := h.nextAlloc + 1 }.log (.allocate label (v.contiguousView h.nextAlloc))

abbrev Routine (α : Type) := StateT Host Outcome α

namespace Routine

variable {α β : Type}

@[simp] theorem bind_apply (x : Routine α) (f : α → Routine β) (h : Host) :
    (x >>= f) h = (x h >>= fun p => f p.1 p.2) := rfl

@[simp] theorem pure_apply (a : α) (h : Host) : (pure a : Routine α) h = .returns (a, h) := rfl

/-- A call such as `fail_if`, which leaves no trace. -/
@[simp] theorem liftM_apply (x : Outcome α) (h : Host) :
    (liftM x : Routine α) h = (x >>= fun a => .returns (a, h)) := rfl

/-- `Kokkos::Tools::pushRegion`. -/
def pushRegion (name : String) : Routine Unit := fun h => .returns ((), h.log (.pushRegion name))

/-- `Kokkos::Tools::popRegion`. -/
def popRegion : Routine Unit := fun h => .returns ((), h.log .popRegion)

/-- `space.fence(label)`. -/
def fence (label : String) : Routine Unit :=
  fun h => .returns ((), h.log (.space (.fence label)))

/-- `Kokkos::deep_copy(space, dst, src)`. -/
def deepCopy (dst src : View) : Routine Unit :=
  fun h => .returns ((), h.log (.space (.deepCopy dst src)))

/-- `allocate_contiguous_for(exec, label, v)`. -/
def allocateContiguousFor (label : String) (v : View) : Routine View :=
  fun h => .returns (v.contiguousView h.nextAlloc, h.allocated label v)

/-- A non-blocking MPI call: the handle written through `request_ptr`. -/
def start (call : MpiCall) : Routine MpiRequest := fun h =>
  if call.validCounts then
    .returns (some h.nextOp, { h with nextOp := h.nextOp + 1 }.log (.mpi h.nextOp call))
  else .aborts

section Apply

variable (h : Host)

@[simp] theorem pushRegion_apply (name : String) :
    pushRegion name h = .returns ((), h.log (.pushRegion name)) := rfl
@[simp] theorem popRegion_apply : popRegion h = .returns ((), h.log .popRegion) := rfl
@[simp] theorem fence_apply (label : String) :
    fence label h = .returns ((), h.log (.space (.fence label))) := rfl
@[simp] theorem deepCopy_apply (dst src : View) :
    deepCopy dst src h = .returns ((), h.log (.space (.deepCopy dst src))) := rfl

end Apply

theorem start_eq_returns {call : MpiCall} {h : Host} {out : MpiRequest × Host} :
    start call h = .returns out ↔ call.validCounts = true ∧
      out = (some h.nextOp, { h with nextOp := h.nextOp + 1 }.log (.mpi h.nextOp call)) := by
  unfold start
  split
  · rename_i hv
    exact ⟨fun hr => (by cases hr; exact ⟨hv, rfl⟩), fun hr => by rw [hr.2]⟩
  · rename_i hv
    exact ⟨fun hr => (by cases hr), fun hr => absurd hr.1 hv⟩

end Routine

/-! ## Packing

`Packer::DeepCopy`, the packer every view uses (`PackTraits`). -/

/-- `Packer::MpiArgs`: the packed view and the count passed to MPI. -/
structure MpiArgs where
  view : View
  count : Int
  deriving DecidableEq, Repr

namespace Packer

/-- `DeepCopy::allocate_packed_for`. -/
def allocatePackedFor (label : String) (src : View) : Routine MpiArgs := do
  let packed ← Routine.allocateContiguousFor label src
  return { view := packed, count := CInt.ofSize packed.span }

/-- `DeepCopy::pack`. -/
def pack (label : String) (src : View) : Routine MpiArgs := do
  let args ← allocatePackedFor label src
  Routine.deepCopy args.view src
  return args

@[simp] theorem allocatePackedFor_apply (label : String) (v : View) (h : Host) :
    allocatePackedFor label v h =
      .returns ({ view := v.contiguousView h.nextAlloc, count := CInt.ofSize v.size },
        h.allocated label v) := by
  simp [allocatePackedFor, Routine.allocateContiguousFor]

@[simp] theorem pack_apply (label : String) (v : View) (h : Host) :
    pack label v h =
      .returns ({ view := v.contiguousView h.nextAlloc, count := CInt.ofSize v.size },
        (h.allocated label v).log (.space (.deepCopy (v.contiguousView h.nextAlloc) v))) := by
  simp [pack]

/-- `DeepCopy::unpack_into`, as it occurs in a callback. -/
def unpackInto (dst src : View) : SpaceOp := .deepCopy dst src

end Packer

end KokkosComm.Mpi
