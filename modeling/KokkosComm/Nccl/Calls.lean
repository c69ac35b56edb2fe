/-
KokkosComm.Nccl.Calls — what a routine of the NCCL backend does to its
surroundings.

A routine enqueues allocations, copies and NCCL calls on one stream, that
of its execution space; they run in the order in which they were enqueued,
and the event a request captures is behind all of them. As in the MPI
backend, a routine returns its result and the TRACE of its actions.
`callsOf` reads a trace: the NCCL calls, each with the memory it finds.

A pointer is a data handle and an offset. NCCL takes counts as `size_t`;
the model keeps the value that the caller wrote, since one that is
negative becomes larger than every allocation.
-/
import KokkosComm.Mpi.Transfer
import KokkosComm.Nccl.Ownership

namespace KokkosComm.Nccl

open Mpi (Callback SpaceOp)

/-- `ncclComm_t` and `ncclRedOp_t`, handles the library only passes on. -/
abbrev NcclComm := Nat
abbrev NcclRedOp := Nat

/-! ## Actions -/

/-- A data handle, advanced by a number of elements. -/
structure Pointer where
  view : View
  offset : Nat
  deriving DecidableEq, Repr

/-- `data_handle(view)`. -/
def dataHandle (v : View) : Pointer := { view := v, offset := 0 }

namespace Pointer

/-- The `count` elements behind a pointer. -/
def buffer (p : Pointer) (count : Nat) : List Cell :=
  (List.range count).map fun k => (p.view.alloc, p.view.base + p.offset + k)

@[simp] theorem length_buffer (p : Pointer) (count : Nat) : (p.buffer count).length = count := by
  simp [buffer]

@[simp] theorem buffer_dataHandle (v : View) (count : Nat) :
    (dataHandle v).buffer count = v.buffer count := rfl

end Pointer

/-- The NCCL functions, with their envelope. -/
inductive NcclFn where
  | ncclReduce (op : NcclRedOp) (root : Int)
  | ncclAlltoAll
  | ncclSend (peer : Int)
  | ncclRecv (peer : Int)
  deriving DecidableEq, Repr

structure NcclCall where
  fn : NcclFn
  sendbuff : Option Pointer
  recvbuff : Option Pointer
  count : Int
  comm : NcclComm
  deriving DecidableEq, Repr

inductive HostOp where
  | pushRegion (name : String)
  | popRegion
  | allocate (label : String) (v : View)
  | space (c : SpaceOp)
  | groupStart
  | groupEnd
  | nccl (call : NcclCall)
  deriving DecidableEq, Repr

/-! ## Routines -/

/-- What a routine finds and leaves: the next fresh allocation, the CUDA
events, and the trace of the actions so far. -/
structure Host where
  nextAlloc : AllocId
  events : Ledger
  trace : List HostOp
  deriving DecidableEq, Repr

/-- A host on which nothing has been done. -/
def Host.start (nextAlloc : AllocId) : Host :=
  { nextAlloc := nextAlloc, events := .empty, trace := [] }

def Host.log (h : Host) (a : HostOp) : Host := { h with trace := h.trace ++ [a] }

/-- The host after the allocation of a packed view for `v`. -/
def Host.allocated (h : Host) (label : String) (v : View) : Host :=
  { h with nextAlloc := h.nextAlloc + 1 }.log (.allocate label (v.contiguousView h.nextAlloc))

abbrev Routine (α : Type) := StateT Host Outcome α

namespace Routine

variable {α β κ : Type}

@[simp] theorem bind_apply (x : Routine α) (f : α → Routine β) (h : Host) :
    (x >>= f) h = (x h >>= fun p => f p.1 p.2) := rfl

@[simp] theorem pure_apply (a : α) (h : Host) : (pure a : Routine α) h = .returns (a, h) := rfl

/-- An expression whose evaluation leaves no trace. -/
@[simp] theorem liftM_apply (x : Outcome α) (h : Host) :
    (liftM x : Routine α) h = (x >>= fun a => .returns (a, h)) := rfl

def act (a : HostOp) : Routine Unit := fun h => .returns ((), h.log a)

/-- `Kokkos::Tools::pushRegion`. -/
def pushRegion (name : String) : Routine Unit := act (.pushRegion name)

/-- `Kokkos::Tools::popRegion`. -/
def popRegion : Routine Unit := act .popRegion

/-- `Kokkos::deep_copy(exec, dst, src)`. -/
def deepCopy (dst src : View) : Routine Unit := act (.space (.deepCopy dst src))

/-- `allocate_contiguous_for(exec, label, v)`. -/
def allocateContiguousFor (label : String) (v : View) : Routine View :=
  fun h => .returns (v.contiguousView h.nextAlloc, h.allocated label v)

/-- An NCCL call on the stream of the space. Its result is not checked. -/
def nccl (call : NcclCall) : Routine Unit := act (.nccl call)

/-- `ncclGroupStart()` and `ncclGroupEnd()`. -/
def groupStart : Routine Unit := act .groupStart
def groupEnd : Routine Unit := act .groupEnd

/-- `req.capture_stream_state(space.cuda_stream())`. -/
def captureStreamState (req : Request κ) : Routine (Request κ) := fun h =>
  let (req, events) := req.captureStreamState h.events
  .returns (req, { h with events := events })

@[simp] theorem act_apply (a : HostOp) (h : Host) : act a h = .returns ((), h.log a) := rfl

end Routine

/-! ## Packing

`Packer::DeepCopy`, the packer every view uses (`PackTraits`). -/

/-- `Packer::PackedNcclView`: the packed view and its count, an `int`. -/
structure PackedNcclView where
  view : View
  count : Int
  deriving DecidableEq, Repr

namespace Packer

/-- `DeepCopy::allocate_packed_for`. -/
def allocatePackedFor (label : String) (view : View) : Routine PackedNcclView := do
  let packed ← Routine.allocateContiguousFor label view
  return { view := packed, count := CInt.ofSize packed.span }

/-- `DeepCopy::pack`. -/
def pack (label : String) (view : View) : Routine PackedNcclView := do
  let packed ← allocatePackedFor label view
  Routine.deepCopy packed.view view
  return packed

@[simp] theorem allocatePackedFor_apply (label : String) (v : View) (h : Host) :
    allocatePackedFor label v h =
      .returns ({ view := v.contiguousView h.nextAlloc, count := CInt.ofSize v.size },
        h.allocated label v) := by
  simp [allocatePackedFor, Routine.allocateContiguousFor]

@[simp] theorem pack_apply (label : String) (v : View) (h : Host) :
    pack label v h =
      .returns ({ view := v.contiguousView h.nextAlloc, count := CInt.ofSize v.size },
        (h.allocated label v).log (.space (.deepCopy (v.contiguousView h.nextAlloc) v))) := by
  simp [pack, Routine.deepCopy]

end Packer

/-! ## Requests -/

section Requests

variable {κ α : Type}

/-- `extend_view_lifetime`: unmanaged views have `use_count() == 0`. -/
def Request.extendViewLifetime (r : Request Callback) (view : View) : Request Callback :=
  if view.managed then r.addCallback (.keepAlive view) else r

/-- The calls that complete a request, and the state of the device before
and after them. -/
inductive Completes (r : Request κ) : Cuda κ → Cuda κ → Prop where
  | wait {c c' : Cuda κ} {r' : Request κ} (h : r.wait c = .returns (r', c')) : Completes r c c'
  | test {c c' : Cuda κ} {r' : Request κ} (h : r.test c = .returns (true, r', c')) :
      Completes r c c'
  | waitAll {c c' : Cuda κ} {fuel : Nat} {rs : List (Request κ)}
      (h : waitAll fuel [r] c = .returns (rs, c')) : Completes r c c'
  | waitAny {c c' : Cuda κ} {fuel : Nat} {i : Int} {rs : List (Request κ)}
      (h : waitAny fuel [r] c = .returns (some i, rs, c')) : Completes r c c'

/-- The memory after some callbacks. -/
def runCallbacks (ran : List Callback) (h : Heap α) : Heap α :=
  ran.foldl (fun h cb => cb.run h) h

@[simp] theorem runCallbacks_addCallback (r : Request Callback) (cb : Callback) (h : Heap α) :
    runCallbacks (r.addCallback cb).callbacks_ h = cb.run (runCallbacks r.callbacks_ h) := by
  simp [runCallbacks, Request.addCallback]

@[simp] theorem runCallbacks_extendViewLifetime (r : Request Callback) (v : View) (h : Heap α) :
    runCallbacks (r.extendViewLifetime v).callbacks_ h = runCallbacks r.callbacks_ h := by
  unfold Request.extendViewLifetime
  split
  · simp [Callback.run, Callback.keepAlive]
  · rfl

@[simp] theorem request_extendViewLifetime (r : Request Callback) (v : View) :
    (r.extendViewLifetime v).request_ = r.request_ := by
  unfold Request.extendViewLifetime
  split <;> rfl

end Requests

/-! ## Memory -/

section Memory

variable {α : Type}

/-- The NCCL calls of a trace, each with the memory at its turn. -/
def callsOf : List HostOp → Heap α → List (NcclCall × Heap α)
  | [], _ => []
  | .nccl call :: trace, h => (call, h) :: callsOf trace h
  | .space c :: trace, h => callsOf trace (c.run h)
  | _ :: trace, h => callsOf trace h

/-- The memory after the copies of a trace. -/
def runTrace : List HostOp → Heap α → Heap α
  | [], h => h
  | .space c :: trace, h => runTrace trace (c.run h)
  | _ :: trace, h => runTrace trace h

end Memory

end KokkosComm.Nccl
