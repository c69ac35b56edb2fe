/-
KokkosComm.Choreography — what several processes are meant to do together,
said once for all of them and for both backends.

A choreography is a list of events: work of one process on its memory, or a
transfer from a view of one process to a view of another. `run` is what it
means, event after event, index by index, with no transport in it. `project`
is the program that a process gets, against the interface of
`point_to_point.hpp`, which hands its calls to the backend of the
communicator: to `nccl::send` and `nccl::recv`, or to the sends and receives
of MPI.
-/
import KokkosComm.Packing

namespace KokkosComm

variable {α : Type} {n : Nat}

/-! ## Work of the user -/

/-- Work of the user on a heap, with what it reads and what it writes. -/
structure Kernel (α : Type) where
  run : Heap α → Heap α
  reads : Cell → Prop
  writes : Cell → Prop
  frame : ∀ h c, ¬ writes c → run h c = h c
  locality : ∀ h h', (∀ c, reads c → h c = h' c) → ∀ c, writes c → run h c = run h' c

/-- … on the first `n` allocations, which are the user's. -/
structure UserKernel (α : Type) (n : Nat) extends Kernel α where
  user : ∀ c, reads c ∨ writes c → c.1 < n

namespace UserKernel

/-- No work. -/
def idle : UserKernel α n where
  run h := h
  reads _ := False
  writes _ := False
  frame _ _ _ := rfl
  locality _ _ _ _ hc := hc.elim
  user _ h := h.elim False.elim False.elim

/-- What is on the other allocations does not matter. -/
theorem agree (k : UserKernel α n) {h h' : Heap α} (heq : ∀ c : Cell, c.1 < n → h c = h' c)
    {c : Cell} (hc : c.1 < n) : k.run h c = k.run h' c := by
  by_cases hw : k.writes c
  · exact k.locality h h' (fun c hr => heq c (k.user c (.inl hr))) c hw
  · rw [k.frame h c hw, k.frame h' c hw]
    exact heq c hc

end UserKernel

/-! ## Events -/

/-- An event of a choreography. -/
inductive Event (α : Type) (n : Nat) where
  | work (p : Nat) (k : UserKernel α n)
  | transfer (src dst : Nat) (sv rv : View)

namespace Event

/-- The memories after an event: element `i` of the receive view becomes
element `i` of the send view. -/
def apply (heaps : Nat → Heap α) : Event α n → Nat → Heap α
  | work p k => Function.update heaps p (k.run (heaps p))
  | transfer src dst sv rv =>
    Function.update heaps dst
      (Memory.scatter (heaps dst) rv.elements (Memory.gather (heaps src) sv.elements))

/-- The memories after some events. -/
def run (heaps : Nat → Heap α) (es : List (Event α n)) : Nat → Heap α := es.foldl apply heaps

end Event

/-- An instruction of a program: `KokkosComm::send`, `KokkosComm::recv`,
`wait` on the request of the `op`-th call, or work of the user. -/
inductive Command (α : Type) (n : Nat) where
  | send (sv : View) (peer : Nat)
  | recv (rv : View) (peer : Nat)
  | wait (op : Nat)
  | work (k : UserKernel α n)

/-- The program of process `p`, which has made `m` calls before. -/
def Event.project (p : Nat) : Nat → List (Event α n) → List (Command α n)
  | _, [] => []
  | m, work q k :: es =>
    if q = p then .work k :: project p m es else project p m es
  | m, transfer src dst sv rv :: es =>
    if src = p then .send sv dst :: .wait m :: project p (m + 1) es
    else if dst = p then .recv rv src :: .wait m :: project p (m + 1) es
    else project p m es

/-- The elements of `sv` arrive in `rv` at their indices: equal extents,
orders of transfer that agree, and counts that reach NCCL unchanged. -/
structure Carries (n : Nat) (sv rv : View) : Prop where
  sends : sv.alloc < n
  receives : rv.alloc < n
  extents : sv.extents = rv.extents
  orders : sv.route.order = rv.route.order
  size : sv.size < 2147483648 ∨ sv.isContiguous = true ∧ rv.isContiguous = true
  sent : sv.isContiguous = true → sv.elements.Nodup
  distinct : rv.elements.Nodup

/-- An event of the first `N` processes that a program can do. -/
def Event.Proper (N : Nat) : Event α n → Prop
  | work p _ => p < N
  | transfer src dst sv rv => src < N ∧ dst < N ∧ src ≠ dst ∧ Carries n sv rv

/-- No other process has an event. -/
theorem Event.project_of_le {N p : Nat} {es : List (Event α n)} (hes : ∀ e ∈ es, e.Proper N)
    (hp : N ≤ p) (m : Nat) : Event.project p m es = [] := by
  induction es generalizing m with
  | nil => rfl
  | cons e es ih =>
    have he := hes e (by simp)
    have hrest := ih fun e he => hes e (by simp [he])
    cases e with
    | work q k =>
      have hq : q < N := he
      rw [project, if_neg (by omega), hrest]
    | transfer src dst sv rv =>
      have hs := he.1
      have hd := he.2.1
      rw [project, if_neg (by omega), if_neg (by omega), hrest]

namespace Carries

variable {sv rv : View}

theorem size_eq (hc : Carries n sv rv) : sv.size = rv.size := by
  rw [View.size, View.size, hc.extents]

/-- What travels arrives index by index. -/
theorem store_values (hc : Carries n sv rv) (h h' : Heap α) :
    rv.store (sv.values h) h' = Memory.scatter h' rv.elements (Memory.gather h sv.elements) := by
  funext c
  by_cases hm : c ∈ rv.elements
  · obtain ⟨i, hi, rfl⟩ := View.mem_elements.mp hm
    have hvalues : rv.values (rv.store (sv.values h) h') = sv.values h :=
      View.values_store hc.distinct (by rw [View.length_values, hc.size_eq])
    generalize rv.store (sv.values h) h' = g at hvalues ⊢
    unfold View.values View.traveling Memory.gather at hvalues
    rw [hc.orders, List.map_map, List.map_map, List.map_inj_left] at hvalues
    have hvalue := hvalues i (rv.enumerates_route.mem_iff.mpr hi)
    have hgather : Memory.gather h sv.elements =
        (Layout.layoutRight.indices rv.extents).map fun i => h (sv.cell i) := by
      simp [Memory.gather, View.elements, View.cells, hc.extents, Function.comp_def]
    rw [hgather]
    exact hvalue.trans (Heap.scatter_cells hc.distinct h' (fun i => h (sv.cell i)) hi).symm
  · rw [View.store_of_not_mem hm]
    exact (Memory.scatter_of_not_mem fun hmem => hm (List.mem_of_mem_take hmem)).symm

end Carries

end KokkosComm
