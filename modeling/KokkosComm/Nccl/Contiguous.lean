/-
KokkosComm.Nccl.Contiguous — the collectives of the NCCL backend that take
contiguous views only: `nccl::allgather`, `nccl::allreduce` and
`nccl::broadcast` (`nccl/allgather.hpp`, `nccl/allreduce.hpp`,
`nccl/broadcast.hpp`).

Each makes one NCCL call on the data handles of its views, with the span of
the view it sends as a `size_t`, captures the stream, and keeps its views
alive. Like the blocking routines of the MPI backend, a routine is given
with the call it makes; nothing else is enqueued. `broadcast` has one
view, which is sent on the root and received elsewhere.
-/
import KokkosComm.Nccl.Collectives

namespace KokkosComm.Nccl

open Mpi (Callback)
open Routine

/-- The NCCL functions, with their envelope. -/
inductive ContiguousFn where
  | ncclAllGather
  | ncclAllReduce (op : NcclRedOp)
  | ncclBcast (root : Int)
  deriving DecidableEq, Repr

structure ContiguousCall where
  fn : ContiguousFn
  sendbuff : Pointer
  recvbuff : Pointer
  count : Nat
  comm : NcclComm
  deriving DecidableEq, Repr

/-- What the three routines have in common; `views` are to be contiguous. -/
def contiguousCollective (region : String) (views : List View) (call : ContiguousCall) :
    Routine (Request Callback × ContiguousCall) := do
  pushRegion region
  let req ←
    if views.all View.isContiguous then captureStreamState Request.new
    else (Outcome.aborts : Outcome (Request Callback))
  let req := views.foldl Request.extendViewLifetime req
  popRegion
  return (req, call)

/-- `nccl::allgather`. -/
def allgather (sv rv : View) (comm : NcclComm) : Routine (Request Callback × ContiguousCall) :=
  contiguousCollective "KokkosComm::Experimental::nccl::allgather" [sv, rv]
    { fn := .ncclAllGather, sendbuff := dataHandle sv, recvbuff := dataHandle rv,
      count := sv.span, comm := comm }

/-- `nccl::allreduce`. -/
def allreduce (sv rv : View) (op : NcclRedOp) (comm : NcclComm) :
    Routine (Request Callback × ContiguousCall) :=
  contiguousCollective "KokkosComm::Experimental::nccl::allreduce" [sv, rv]
    { fn := .ncclAllReduce op, sendbuff := dataHandle sv, recvbuff := dataHandle rv,
      count := sv.span, comm := comm }

/-- `nccl::broadcast`, for views of rank at most 1 (a `static_assert`). -/
def broadcast (v : View) (root : Int) (comm : NcclComm) :
    Routine (Request Callback × ContiguousCall) :=
  contiguousCollective "KokkosComm::Experimental::nccl::broadcast" [v]
    { fn := .ncclBcast root, sendbuff := dataHandle v, recvbuff := dataHandle v,
      count := v.span, comm := comm }

/-! ## What they do -/

section Effect

variable {α : Type} {region : String} {views : List View} {call : ContiguousCall} {h : Host}

theorem request_extendViewLifetimes (r : Request Callback) (views : List View) :
    (views.foldl Request.extendViewLifetime r).request_ = r.request_ := by
  induction views generalizing r with
  | nil => rfl
  | cons v views ih =>
    rw [List.foldl_cons, ih]
    exact request_extendViewLifetime r v

theorem body_extendViewLifetime (r : Request Callback) (v : View) :
    (r.extendViewLifetime v).callbacks_.flatMap Callback.body =
      r.callbacks_.flatMap Callback.body := by
  unfold Request.extendViewLifetime
  split
  · simp [Request.addCallback, Callback.keepAlive]
  · rfl

theorem body_extendViewLifetimes (r : Request Callback) (views : List View) :
    (views.foldl Request.extendViewLifetime r).callbacks_.flatMap Callback.body =
      r.callbacks_.flatMap Callback.body := by
  induction views generalizing r with
  | nil => rfl
  | cons v views ih =>
    rw [List.foldl_cons, ih]
    exact body_extendViewLifetime r v

/-- Contiguous views: the call is made, the stream captured, and the
callbacks of the request do nothing. -/
theorem contiguousCollective_returns (region : String) (call : ContiguousCall) (h : Host)
    (hviews : ∀ v ∈ views, v.isContiguous = true) :
    ∃ req host, contiguousCollective region views call h = .returns ((req, call), host) ∧
      req.request_ = some h.events.next ∧ req.callbacks_.flatMap Callback.body = [] ∧
      host = { h with
        events := h.events.create.2.use h.events.next
        trace := h.trace ++ [.pushRegion region, .popRegion] } := by
  have hall : views.all View.isContiguous = true := by simpa using hviews
  unfold contiguousCollective
  simp only [hall, if_true, bind_apply, pushRegion, popRegion, act_apply, Outcome.returns_bind,
    captureStreamState, Request.captureStreamState, pure_apply]
  refine ⟨_, _, rfl, ?_, ?_, ?_⟩
  · rw [request_extendViewLifetimes]
    rfl
  · rw [body_extendViewLifetimes]
    rfl
  · simp [Host.log, destroyEvent, Request.new]

/-- Any other view ends the process. -/
theorem contiguousCollective_aborts {v : View} (hv : v ∈ views) (hc : v.isContiguous = false) :
    contiguousCollective region views call h = .aborts := by
  have hall : views.all View.isContiguous = false :=
    List.all_eq_false.mpr ⟨v, hv, by simp [hc]⟩
  simp [contiguousCollective, hall, pushRegion]

end Effect

end KokkosComm.Nccl
