/-
KokkosComm.Nccl.DataParallel — data-parallel programs with the NCCL backend.

§1 what the collectives of NCCL leave in the memories of the processes, by
their documentation: how much each process sends and receives, and what.
How a reduction is grouped is up to the communicator. §2 the programs: each
process calls the routine for its views and waits for the request.
§3 the views with which a collective does what it is for. `reduce` receives
through a packed view on the root, so that the default layout of the space
decides in which order the elements arrive; and on the other processes it
leaves `rv` alone only if that is contiguous.
-/
import KokkosComm.Collective
import KokkosComm.Nccl.Streams

namespace KokkosComm.Nccl

open MultiIndex Reduction

variable {α : Type} {n : Nat}

/-! ## §1 The collectives of NCCL -/

namespace TransportFn

/-- The number of elements each of `size` processes sends, … -/
def sendCount (size count : Nat) : TransportFn → Nat
  | .nccl .ncclAlltoAll => size * count
  | _ => count

/-- … and that each receives. -/
def recvCount (size count : Nat) : TransportFn → Nat
  | .nccl .ncclAlltoAll => size * count
  | .contiguous .ncclAllGather => size * count
  | _ => count

/-- What process `p` receives, when these messages are sent. -/
def received {ops : NcclRedOp → α → α → α} (combiners : ∀ op, Combiner (ops op)) (count : Nat)
    (messages : List (List α)) (p : Nat) : TransportFn → List α
  | .nccl (.ncclReduce op root) =>
    if (p : Int) = root then (combiners op).combineAll messages count else []
  | .nccl .ncclAlltoAll => messages.flatMap fun m => BlockExchange.block count m p
  | .contiguous .ncclAllGather => messages.flatten
  | .contiguous (.ncclAllReduce op) => (combiners op).combineAll messages count
  | .contiguous (.ncclBcast (.ofNat root)) => messages.getD root []
  | _ => []

end TransportFn

/-- A communicator whose collectives are as documented. -/
def documented [Inhabited α] {ops : NcclRedOp → α → α → α} (combiners : ∀ op, Combiner (ops op))
    (size : Nat) (size_pos : 0 < size) (comm : NcclComm) : Fabric α where
  size := size
  size_pos := size_pos
  comm := comm
  collective fn count calls p :=
    match calls[p]? with
    | some (call, h) =>
      Memory.scatter h (call.received (fn.recvCount size count))
        (fn.received combiners count
          (calls.map fun x => Memory.gather x.2 (x.1.sent (fn.sendCount size count))) p)
    | none => fun _ => default

/-! ## §2 Programs -/

/-- The call of process `p`. -/
def collectiveCall (p : Nat) : Collective → Call
  | .broadcast v root => .broadcast (v p) root
  | .allgather sv rv => .allgather (sv p) (rv p)
  | .alltoall sv rv count => .alltoall (sv p) (rv p) count
  | .allreduce sv rv op => .allreduce (sv p) (rv p) op
  | .reduce sv rv op root => .reduce (sv p) (rv p) op root

/-- The program of process `p` of `N`, which has made `m` calls before. -/
def parallelProgram (N : Nat) : List (ParallelStep α n) → Nat → Nat → List (Instr α)
  | [], _, _ => []
  | .event (.work q k) :: steps, p, m =>
    if q = p then .kernel k.run :: parallelProgram N steps p m else parallelProgram N steps p m
  | .event (.transfer src dst sv rv) :: steps, p, m =>
    if src = p then .call (.send sv dst) :: .wait m :: parallelProgram N steps p (m + 1)
    else if dst = p then .call (.recv rv src) :: .wait m :: parallelProgram N steps p (m + 1)
    else parallelProgram N steps p m
  | .all c :: steps, p, m =>
    if p < N then .call (collectiveCall p c) :: .wait m :: parallelProgram N steps p (m + 1)
    else parallelProgram N steps p m

def parallelPrograms (N : Nat) (steps : List (ParallelStep α n)) : List (List (Instr α)) :=
  (List.range N).map fun p => parallelProgram N steps p 0

/-! ## §3 The views -/

/-- The elements of `sv` reach the root of a reduction, where they are
received into `rv` by way of a packed view. -/
structure ReachesPacked (n : Nat) (sv rv : View) : Prop where
  sends : sv.alloc < n
  receives : rv.alloc < n
  extents : sv.extents = rv.extents
  orders : sv.route.order = rv.arrayLayout.indices rv.extents
  size : sv.size < 2147483648 ∨ sv.isContiguous = true
  sent : sv.isContiguous = true → sv.elements.Nodup
  distinct : rv.elements.Nodup

/-- A collective that does what it is for: sizes and offsets as its comment
assumes them, and orders that agree. A call in place is one with equal
views. -/
def ProperCollective (n N : Nat) : Collective → Prop
  | .broadcast v root => root < N ∧
    ∀ p < N, Flat n (v p) ∧ (v p).extents.length ≤ 1 ∧ Carries n (v root) (v p)
  | .allgather sv rv => ∀ p < N, Flat n (sv p) ∧ Flat n (rv p) ∧ Apart (sv p) (rv p) ∧
    (sv p).size = (sv 0).size ∧ (rv p).size = N * (sv 0).size
  | .alltoall sv rv count => ∀ p < N, Flat n (sv p) ∧ Flat n (rv p) ∧ Apart (sv p) (rv p) ∧
    (sv p).size = N * count ∧ (rv p).size = N * count
  | .allreduce sv rv _ => ∀ p < N, Flat n (sv p) ∧ Flat n (rv p) ∧
    (sv p = rv p ∨ Apart (sv p) (rv p)) ∧ ∀ q < N, Carries n (sv q) (rv p)
  | .reduce sv rv _ root => root < N ∧ ∀ p < N, ReachesPacked n (sv p) (rv root) ∧
    (p ≠ root → Flat n (rv p))

/-- A step that the programs of `N` processes do as it is meant. -/
def ProperStep (N : Nat) : ParallelStep α n → Prop
  | .event e => e.Proper N
  | .all c => ProperCollective n N c

end KokkosComm.Nccl
