/-
KokkosComm.Collective — what the collectives of `collective.hpp` are for.

A `Collective` is one call of one of them on all processes, with the views
that each of them passes. `apply` is what its comment says: the reductions
and `broadcast` index by index, `allgather` and `alltoall` by the offsets
behind the data handles. A data-parallel program is a list of steps
(`ParallelStep`), each an event of a choreography or a collective; `run` is
what it means, with no transport in it.
-/
import KokkosComm.Choreography
import KokkosComm.Foundation.BlockExchange

namespace KokkosComm

open MultiIndex Reduction

variable {α : Type} {n : Nat}

namespace View

/-- Element `i` becomes `f i`. -/
def fill (v : View) (f : List Nat → α) (h : Heap α) : Heap α :=
  Memory.scatter h v.elements ((Layout.layoutRight.indices v.extents).map f)

section Fill

variable {v : View} {f : List Nat → α} {h : Heap α}

theorem fill_cell (hnd : v.elements.Nodup) {i : List Nat} (hi : Valid v.extents i) :
    v.fill f h (v.cell i) = f i := Heap.scatter_cells hnd h f hi

theorem fill_of_not_mem {c : Cell} (hc : c ∉ v.elements) : v.fill f h c = h c :=
  Memory.scatter_of_not_mem fun hm => hc (List.mem_of_mem_take hm)

/-- A message with the elements in the order in which they travel. -/
theorem store_map (hnd : v.elements.Nodup) : v.store (v.route.order.map f) h = v.fill f h := by
  funext c
  by_cases hm : c ∈ v.elements
  · obtain ⟨i, hi, rfl⟩ := mem_elements.mp hm
    rw [fill_cell hnd hi]
    exact Memory.scatter_map v.cell f (nodup_traveling.mpr hnd)
      (v.enumerates_route.mem_iff.mpr hi)
  · rw [store_of_not_mem hm, fill_of_not_mem hm]

end Fill

end View

/-! ## The collectives -/

/-- A call of a collective on all processes. `op` is the handle of a
reduction operator. -/
inductive Collective where
  | broadcast (v : Nat → View) (root : Nat)
  | allgather (sv rv : Nat → View)
  | alltoall (sv rv : Nat → View) (count : Nat)
  | allreduce (sv rv : Nat → View) (op : Nat)
  | reduce (sv rv : Nat → View) (op root : Nat)

/-- The reduction of the elements `i` of the views of `N` processes; `x` is
for no process at all. -/
def combined (op : α → α → α) (N : Nat) (v : Nat → View) (heaps : Nat → Heap α) (x : α)
    (i : List Nat) : α :=
  (reduction op ((List.range N).map fun q => heaps q ((v q).cell i))).getD x

/-- The memory of process `p` of `N` after a collective. -/
def Collective.apply (ops : Nat → α → α → α) (N : Nat) (heaps : Nat → Heap α) (p : Nat) :
    Collective → Heap α
  | broadcast v root => (v p).fill (fun i => heaps root ((v root).cell i)) (heaps p)
  | allgather sv rv =>
    Memory.scatter (heaps p) ((rv p).buffer (N * (sv p).span))
      ((List.range N).flatMap fun q => Memory.gather (heaps q) ((sv q).buffer (sv q).span))
  | alltoall sv rv count =>
    Memory.scatter (heaps p) ((rv p).buffer (N * count)) ((List.range N).flatMap fun q =>
      BlockExchange.block count (Memory.gather (heaps q) ((sv q).buffer (N * count))) p)
  | allreduce sv rv op =>
    let result (i : List Nat) := combined (ops op) N sv heaps (heaps p ((rv p).cell i)) i
    (rv p).fill result (heaps p)
  | reduce sv rv op root =>
    let result (i : List Nat) := combined (ops op) N sv heaps (heaps p ((rv p).cell i)) i
    if p = root then (rv p).fill result (heaps p) else heaps p

/-- The memories of all processes. -/
def Collective.applyAll (ops : Nat → α → α → α) (N : Nat) (heaps : Nat → Heap α) (c : Collective)
    (p : Nat) : Heap α := if p < N then c.apply ops N heaps p else heaps p

/-! ## The views of a collective -/

/-- A contiguous view of the user. -/
structure Flat (n : Nat) (v : View) : Prop where
  contiguous : v.isContiguous = true
  user : v.alloc < n

/-- Buffers of one call do not overlap. -/
def Apart (sv rv : View) : Prop := ∀ c ∈ sv.elements, c ∉ rv.elements

/-! ## Data-parallel programs -/

/-- A step of a data-parallel program. -/
inductive ParallelStep (α : Type) (n : Nat) where
  | event (e : Event α n)
  | all (c : Collective)

namespace ParallelStep

/-- The memories of `N` processes after a step. -/
def apply (ops : Nat → α → α → α) (N : Nat) (heaps : Nat → Heap α) :
    ParallelStep α n → Nat → Heap α
  | event e => Event.apply heaps e
  | all c => c.applyAll ops N heaps

/-- … and after some steps. -/
def run (ops : Nat → α → α → α) (N : Nat) (heaps : Nat → Heap α)
    (steps : List (ParallelStep α n)) : Nat → Heap α := steps.foldl (apply ops N) heaps

end ParallelStep

end KokkosComm
