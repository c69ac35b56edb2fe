/-
KokkosComm.View — Kokkos views, as far as the library looks at them.

A view is a data handle (an allocation and a position in it), extents and
strides. `size`, `span` and `isContiguous` are the queries of `traits.hpp`;
`contiguousView` is the type of `impl/contiguous.hpp`:
same extents, the default layout of the view's EXECUTION SPACE, whatever
the layout of the view itself. Kokkos is modelled by its documented
behaviour: `span` is the distance between the elements of lowest and
highest address, and `deepCopy` copies by multi-index.

A heap maps cells to values of one element type. The values a fresh
allocation holds before it is written are whatever the heap has there.

`Ordered o v` says that along the enumeration `o` (rows first or columns
first) the addresses of `v` increase: the view has that memory order,
with any padding or stride. A contiguous ordered view has no choice left:
its elements lie at 0, 1, 2, … in that order (`map_offset_of_contiguous`).
-/
import KokkosComm.Foundation.MultiIndex
import KokkosComm.Foundation.Scatter

namespace KokkosComm

open MultiIndex

/-! ## Layouts -/

/-- `Kokkos::LayoutLeft` (first index fastest) and `Kokkos::LayoutRight`
(last index fastest). -/
inductive Layout where
  | layoutLeft
  | layoutRight
  deriving DecidableEq, Repr

namespace Layout

/-- The indices of a box in the order in which the layout stores them. -/
def indices : Layout → List Nat → List (List Nat)
  | layoutLeft => colMajor
  | layoutRight => rowMajor

/-- The strides of an unpadded allocation. -/
def strides : Layout → List Nat → List Nat
  | layoutLeft => colStrides
  | layoutRight => rowStrides

theorem mem_indices (o : Layout) {exts i : List Nat} : i ∈ o.indices exts ↔ Valid exts i := by
  cases o with
  | layoutLeft => exact mem_colMajor
  | layoutRight => exact mem_rowMajor

@[simp] theorem length_indices (o : Layout) (exts : List Nat) :
    (o.indices exts).length = exts.prod := by
  cases o with
  | layoutLeft => exact length_colMajor exts
  | layoutRight => exact length_rowMajor exts

@[simp] theorem length_strides (o : Layout) (exts : List Nat) :
    (o.strides exts).length = exts.length := by
  cases o with
  | layoutLeft => exact length_colStrides exts
  | layoutRight => exact length_rowStrides exts

theorem map_offset_strides (o : Layout) (exts : List Nat) :
    (o.indices exts).map (offset (o.strides exts)) = List.range exts.prod := by
  cases o with
  | layoutLeft => exact map_offset_colStrides exts
  | layoutRight => exact map_offset_rowStrides exts

theorem nodup_indices (o : Layout) (exts : List Nat) : (o.indices exts).Nodup := by
  refine List.Nodup.of_map (offset (o.strides exts)) ?_
  rw [map_offset_strides]
  exact List.nodup_range

theorem enumerates_indices (o : Layout) (exts : List Nat) : Enumerates (o.indices exts) exts :=
  (List.perm_ext_iff_of_nodup (o.nodup_indices exts) (layoutRight.nodup_indices exts)).mpr fun _ =>
    o.mem_indices.trans layoutRight.mem_indices.symm

/-- Two different layouts enumerate a box alike exactly when the box is
empty or has at most one extent larger than 1. -/
theorem indices_eq_iff (o o' : Layout) (exts : List Nat) :
    o.indices exts = o'.indices exts ↔ o = o' ∨ 0 ∈ exts ∨ exts.countP (1 < ·) ≤ 1 := by
  cases o with
  | layoutLeft =>
    cases o' with
    | layoutLeft => simp
    | layoutRight => simpa [indices, eq_comm] using rowMajor_eq_colMajor_iff exts
  | layoutRight =>
    cases o' with
    | layoutLeft => simpa [indices] using rowMajor_eq_colMajor_iff exts
    | layoutRight => simp

end Layout

/-! ## Views -/

abbrev AllocId := Nat

/-- A memory cell: an allocation and a position in it. -/
abbrev Cell := AllocId × Nat

/-- A `Kokkos::View`. `arrayLayout` is `View::execution_space::array_layout`;
`managed` views own a reference to their allocation. -/
structure View where
  alloc : AllocId
  base : Nat
  extents : List Nat
  strides : List Nat
  arrayLayout : Layout
  managed : Bool
  rank_eq : strides.length = extents.length
  deriving DecidableEq, Repr

namespace View

/-- `size(view)`: the product of the extents. -/
def size (v : View) : Nat := v.extents.prod

/-- `span(view)`: from the element of lowest to the one of highest address. -/
def span (v : View) : Nat :=
  if v.size = 0 then 0 else 1 + offset v.strides (top v.extents)

/-- `is_contiguous(view)`: the product of extents is equal to the span. -/
def isContiguous (v : View) : Bool := v.size == v.span

/-- `&view(i…)`. -/
def cell (v : View) (i : List Nat) : Cell := (v.alloc, v.base + offset v.strides i)

/-- The elements of the view, in the order `o`. -/
def cells (v : View) (o : Layout) : List Cell := (o.indices v.extents).map v.cell

/-- The elements of the view in index order, last index fastest. -/
def elements (v : View) : List Cell := v.cells .layoutRight

/-- `c` is an element of the view. -/
def Elem (v : View) (c : Cell) : Prop := ∃ i, Valid v.extents i ∧ v.cell i = c

/-- The `count` consecutive elements an MPI call sees behind the data handle. -/
def buffer (v : View) (count : Nat) : List Cell :=
  (List.range count).map fun k => (v.alloc, v.base + k)

/-- The `count` elements behind the data handle that are meant for process
`r`. -/
def block (v : View) (count r : Nat) : List Cell :=
  (List.range count).map fun k => (v.alloc, v.base + (r * count + k))

/-- The addresses of the view increase along the order `o`. -/
def Ordered (o : Layout) (v : View) : Prop :=
  ((o.indices v.extents).map (offset v.strides)).Pairwise (· < ·)

instance (o : Layout) (v : View) : Decidable (Ordered o v) :=
  inferInstanceAs (Decidable (List.Pairwise _ _))

/-- The indices of the view, by increasing address. -/
def memoryIndices (v : View) : List (List Nat) := byOffset v.strides v.extents

/-- `allocate_contiguous_for(exec, label, v)`, in the allocation `alloc`. -/
def contiguousView (alloc : AllocId) (v : View) : View where
  alloc := alloc
  base := 0
  extents := v.extents
  strides := v.arrayLayout.strides v.extents
  arrayLayout := v.arrayLayout
  managed := true
  rank_eq := by simp

/-- A managed view of rank 1: `n` elements, `stride` apart. -/
def line (alloc base n stride : Nat) : View where
  alloc := alloc
  base := base
  extents := [n]
  strides := [stride]
  arrayLayout := .layoutRight
  managed := true
  rank_eq := rfl

/-! ## Contiguity -/

@[simp] theorem contiguousView_alloc (a : AllocId) (v : View) :
    (v.contiguousView a).alloc = a := rfl
@[simp] theorem contiguousView_extents (a : AllocId) (v : View) :
    (v.contiguousView a).extents = v.extents := rfl
@[simp] theorem contiguousView_size (a : AllocId) (v : View) :
    (v.contiguousView a).size = v.size := rfl
@[simp] theorem contiguousView_managed (a : AllocId) (v : View) :
    (v.contiguousView a).managed = true := rfl
@[simp] theorem contiguousView_arrayLayout (a : AllocId) (v : View) :
    (v.contiguousView a).arrayLayout = v.arrayLayout := rfl

/-- A packed view enumerated in its own layout counts up. -/
theorem map_offset_contiguousView (a : AllocId) (v : View) :
    (v.arrayLayout.indices v.extents).map (offset (v.contiguousView a).strides)
      = List.range v.size :=
  Layout.map_offset_strides _ _

theorem ordered_contiguousView (a : AllocId) (v : View) :
    (v.contiguousView a).Ordered v.arrayLayout := by
  unfold Ordered
  rw [contiguousView_extents, map_offset_contiguousView]
  exact List.pairwise_lt_range

theorem offset_lt_span {v : View} {i : List Nat} (h : Valid v.extents i) :
    offset v.strides i < v.span := by
  have hsize : v.size ≠ 0 := by
    have hmem := (Layout.mem_indices .layoutRight).mpr h
    have hpos := List.length_pos_of_mem hmem
    rw [Layout.length_indices] at hpos
    exact Nat.ne_of_gt hpos
  have := offset_le_top v.strides h
  rw [span, if_neg hsize]
  omega

/-- A view that is dense in some order is contiguous. -/
theorem span_of_map_offset {v : View} {o : Layout}
    (h : (o.indices v.extents).map (offset v.strides) = List.range v.size) : v.span = v.size := by
  unfold span
  split
  · rename_i h0
    exact h0.symm
  · rename_i h0
    have htop : offset v.strides (top v.extents) ∈ List.range v.size := by
      rw [← h]
      exact List.mem_map_of_mem
        ((o.mem_indices).mpr (valid_top (prod_ne_zero_iff.mp h0)))
    -- the element of the highest address is the last one counted
    have hlast : v.size - 1 ∈ (o.indices v.extents).map (offset v.strides) := by
      rw [h]
      exact List.mem_range.mpr (by omega)
    obtain ⟨i, hi, hoff⟩ := List.mem_map.mp hlast
    have hle := offset_le_top v.strides ((o.mem_indices).mp hi)
    have := List.mem_range.mp htop
    omega

@[simp] theorem contiguousView_span (a : AllocId) (v : View) :
    (v.contiguousView a).span = v.size :=
  span_of_map_offset (map_offset_contiguousView a v)

@[simp] theorem isContiguous_contiguousView (a : AllocId) (v : View) :
    (v.contiguousView a).isContiguous = true := by
  simp [isContiguous]

theorem isContiguous_iff {v : View} : v.isContiguous = true ↔ v.span = v.size := by
  rw [isContiguous, beq_iff_eq, eq_comm]

/-- A contiguous view counts up in an order in which its addresses
increase. -/
theorem map_offset_of_pairwise_lt {v : View} {order : List (List Nat)}
    (he : Enumerates order v.extents) (hlt : (order.map (offset v.strides)).Pairwise (· < ·))
    (h : v.isContiguous = true) : order.map (offset v.strides) = List.range v.size := by
  have hlen : (order.map (offset v.strides)).length = v.size := by
    rw [List.length_map, he.length_eq, size]
  have hrange := eq_range_of_pairwise_lt hlt fun x hx => by
    obtain ⟨i, hi, rfl⟩ := List.mem_map.mp hx
    rw [hlen, ← isContiguous_iff.mp h]
    exact offset_lt_span (he.mem_iff.mp hi)
  rwa [hlen] at hrange

theorem map_offset_of_contiguous {v : View} {o : Layout} (ho : v.Ordered o)
    (h : v.isContiguous = true) :
    (o.indices v.extents).map (offset v.strides) = List.range v.size :=
  map_offset_of_pairwise_lt (o.enumerates_indices _) ho h

/-! ## Dense views -/

section Dense

variable {v : View} {order : List (List Nat)} {n : Nat}

/-- The elements of a dense view are its buffer. -/
theorem map_cell_eq_buffer (h : order.map (offset v.strides) = List.range v.size) :
    order.map v.cell = v.buffer v.size := by
  rw [buffer, ← h, List.map_map]
  exact List.map_congr_left fun i _ => rfl

/-- The first elements of a dense view are the first elements of its
buffer. -/
theorem buffer_eq_take (h : order.map (offset v.strides) = List.range v.size) (hn : n ≤ v.size) :
    v.buffer n = (order.map v.cell).take n := by
  rw [map_cell_eq_buffer h, buffer, buffer, ← List.map_take, List.take_range, Nat.min_eq_left hn]

/-- The cell of the `k`-th index is the `k`-th of the buffer. -/
theorem cell_of_dense (h : order.map (offset v.strides) = List.range v.size) {k : Nat}
    {i : List Nat} (hi : order[k]? = some i) : v.cell i = (v.alloc, v.base + k) := by
  have hk : (order.map v.cell)[k]? = some (v.cell i) := by simp [hi]
  rw [map_cell_eq_buffer h, buffer, List.getElem?_map] at hk
  obtain ⟨k', hk', heq⟩ := Option.map_eq_some_iff.mp hk
  obtain ⟨hlt, rfl⟩ := List.getElem?_eq_some_iff.mp hk'
  rw [← heq, List.getElem_range]

end Dense

/-! ## Elements -/

theorem mem_cells {v : View} {o : Layout} {c : Cell} : c ∈ v.cells o ↔ v.Elem c := by
  unfold cells Elem
  rw [List.mem_map]
  exact exists_congr fun i => and_congr_left' o.mem_indices

@[simp] theorem length_cells (v : View) (o : Layout) : (v.cells o).length = v.size := by
  rw [cells, List.length_map, Layout.length_indices, size]

@[simp] theorem length_buffer (v : View) (n : Nat) : (v.buffer n).length = n := by
  simp [buffer]

theorem nodup_buffer (v : View) (n : Nat) : (v.buffer n).Nodup :=
  List.nodup_range.map fun _ _ h => Nat.add_left_cancel (Prod.mk.inj h).2

theorem mem_buffer {v : View} {n : Nat} {c : Cell} :
    c ∈ v.buffer n ↔ c.1 = v.alloc ∧ v.base ≤ c.2 ∧ c.2 < v.base + n := by
  obtain ⟨a, p⟩ := c
  simp only [buffer, List.mem_map, List.mem_range, Prod.mk.injEq]
  constructor
  · rintro ⟨k, hk, rfl, rfl⟩; exact ⟨rfl, by omega, by omega⟩
  · rintro ⟨rfl, hle, hlt⟩; exact ⟨p - v.base, by omega, rfl, by omega⟩

/-- A buffer lies inside a longer one. -/
theorem buffer_subset_iff {v : View} {n m : Nat} :
    (∀ c ∈ v.buffer n, c ∈ v.buffer m) ↔ n ≤ m := by
  constructor
  · intro h
    by_contra hlt
    have hlast : (v.alloc, v.base + m) ∈ v.buffer m :=
      h _ (mem_buffer.mpr ⟨rfl, Nat.le_add_right _ _, by simp only; omega⟩)
    obtain ⟨-, -, hbound⟩ := mem_buffer.mp hlast
    omega
  · intro hle c hc
    obtain ⟨halloc, hbase, hbound⟩ := mem_buffer.mp hc
    exact mem_buffer.mpr ⟨halloc, hbase, by omega⟩

/-- All blocks together are the first elements of the buffer. -/
theorem block_subset_buffer {v : View} {count n m r : Nat} (hfits : n * count ≤ m) (hr : r < n)
    {c : Cell} (hc : c ∈ v.block count r) : c ∈ v.buffer m := by
  obtain ⟨k, hk, rfl⟩ := List.mem_map.mp hc
  have hk := List.mem_range.mp hk
  have hle : (r + 1) * count ≤ n * count := Nat.mul_le_mul_right count hr
  rw [Nat.succ_mul] at hle
  rw [mem_buffer]
  exact ⟨rfl, Nat.le_add_right _ _, by omega⟩

theorem nodup_offsets {v : View} {o : Layout} (ho : v.Ordered o) :
    ((o.indices v.extents).map (offset v.strides)).Nodup := ho.imp Nat.ne_of_lt

/-- Different indices of an ordered view are different cells. -/
theorem cell_injective {v : View} {o : Layout} (ho : v.Ordered o) {i j : List Nat}
    (hi : Valid v.extents i) (hj : Valid v.extents j) (h : v.cell i = v.cell j) : i = j := by
  exact List.inj_on_of_nodup_map (nodup_offsets ho) (o.mem_indices.mpr hi) (o.mem_indices.mpr hj)
    (Nat.add_left_cancel (Prod.mk.inj h).2)

/-- A view whose elements cover its first `n` cells, and has no more than
`n` elements, is contiguous. -/
theorem contiguous_of_cover {v : View} {o : Layout} {n : Nat}
    (hn : v.size ≤ n) (h : ∀ k < n, ∃ i, Valid v.extents i ∧ offset v.strides i = k) :
    v.isContiguous = true ∧ v.size = n := by
  have hlen : ((o.indices v.extents).map (offset v.strides)).length = v.size := by
    rw [List.length_map, Layout.length_indices, size]
  have hsub : List.range n ⊆ (o.indices v.extents).map (offset v.strides) := fun k hk => by
    obtain ⟨i, hi, rfl⟩ := h k (List.mem_range.mp hk)
    exact List.mem_map_of_mem ((o.mem_indices).mpr hi)
  have hperm := (List.nodup_range.subperm hsub).perm_of_length_le (by
    rw [hlen, List.length_range]
    exact hn)
  have hsize : v.size = n := by rw [← hlen, ← hperm.length_eq, List.length_range]
  refine ⟨isContiguous_iff.mpr ?_, hsize⟩
  unfold span
  split
  · rename_i h0
    exact h0.symm
  · rename_i h0
    have hlt : offset v.strides (top v.extents) < n := by
      refine List.mem_range.mp (hperm.symm.subset (List.mem_map_of_mem ?_))
      exact (o.mem_indices).mpr (valid_top (prod_ne_zero_iff.mp h0))
    obtain ⟨i, hi, hoff⟩ := h (n - 1) (by omega)
    have := offset_le_top v.strides hi
    omega

theorem nodup_cells {v : View} {o : Layout} (ho : v.Ordered o) (o' : Layout) :
    (v.cells o').Nodup :=
  (o'.nodup_indices v.extents).map_on fun _ hi _ hj h =>
    cell_injective ho (o'.mem_indices.mp hi) (o'.mem_indices.mp hj) h

/-- Different indices are different cells. -/
theorem cell_injective_of_nodup {v : View} (hnd : v.elements.Nodup) {i j : List Nat}
    (hi : Valid v.extents i) (hj : Valid v.extents j) (h : v.cell i = v.cell j) : i = j :=
  List.inj_on_of_nodup_map hnd (Layout.layoutRight.mem_indices.mpr hi)
    (Layout.layoutRight.mem_indices.mpr hj) h

/-! ## The memory order -/

theorem enumerates_memoryIndices (v : View) : Enumerates v.memoryIndices v.extents :=
  enumerates_byOffset _ _

theorem memoryIndices_of_ordered {v : View} {o : Layout} (ho : v.Ordered o) :
    v.memoryIndices = o.indices v.extents := byOffset_eq (o.enumerates_indices _) ho

/-- A contiguous view counts up in its memory order, if every index has a
cell of its own. -/
theorem map_offset_memoryIndices {v : View} (hnd : v.elements.Nodup)
    (h : v.isContiguous = true) : v.memoryIndices.map (offset v.strides) = List.range v.size := by
  have hcells : (v.memoryIndices.map v.cell).Nodup :=
    (v.enumerates_memoryIndices.map v.cell).nodup_iff.mpr hnd
  have hne : (v.memoryIndices.map (offset v.strides)).Nodup := by
    refine List.Nodup.of_map (fun k => (v.alloc, v.base + k)) ?_
    rw [List.map_map]
    exact hcells
  refine map_offset_of_pairwise_lt v.enumerates_memoryIndices ?_ h
  exact ((pairwise_byOffset v.strides v.extents).and hne).imp fun ⟨hle, hne⟩ =>
    Nat.lt_of_le_of_ne hle hne

/-! ## Views of rank at most 1

With one index there is one order, and a contiguous view has stride 1. -/

theorem isContiguous_line (alloc base n : Nat) : (line alloc base n 1).isContiguous = true := by
  rw [isContiguous_iff]
  simp only [span, size, line, List.prod_cons, List.prod_nil, top, List.map_cons, List.map_nil,
    offset]
  split <;> omega

theorem mem_elements {v : View} {c : Cell} : c ∈ v.elements ↔ v.Elem c := mem_cells

@[simp] theorem length_elements (v : View) : v.elements.length = v.size := length_cells v _

theorem fst_of_mem_elements {v : View} {c : Cell} (h : c ∈ v.elements) : c.1 = v.alloc := by
  obtain ⟨i, _, rfl⟩ := mem_elements.mp h
  rfl

theorem indices_of_rank_le_one {exts : List Nat} (h : exts.length ≤ 1) (o o' : Layout) :
    o.indices exts = o'.indices exts := by
  rw [Layout.indices_eq_iff]
  have := List.countP_le_length (p := fun e => decide (1 < e)) (l := exts)
  exact .inr (.inr (by omega))

theorem cells_eq_elements {v : View} (h : v.extents.length ≤ 1) (o : Layout) :
    v.cells o = v.elements := by
  rw [elements, cells, cells, indices_of_rank_le_one h o .layoutRight]

theorem map_offset_of_rank_le_one {v : View} (h : v.extents.length ≤ 1)
    (hc : v.isContiguous = true) :
    (Layout.layoutRight.indices v.extents).map (offset v.strides) = List.range v.size := by
  obtain ⟨alloc, base, extents, strides, arrayLayout, managed, hrank⟩ := v
  match extents, strides, hrank with
  | [], [], _ => rfl
  | [n], [s], _ =>
    -- a stride other than 1 leaves gaps as soon as there are two elements
    have hspan := isContiguous_iff.mp hc
    match n with
    | 0 => rfl
    | 1 => simp [Layout.indices, rowMajor, offset, size]
    | n + 2 =>
      have hs : s = 1 := by
        simp only [span, size, List.prod_cons, List.prod_nil, top, List.map_cons, List.map_nil,
          offset] at hspan
        rw [if_neg (by omega)] at hspan
        have hmul : (n + 1) * s = (n + 1) * 1 := by
          have hn : n + 2 - 1 = n + 1 := by omega
          rw [hn] at hspan
          omega
        exact Nat.eq_of_mul_eq_mul_left (by omega) hmul
      subst hs
      exact Layout.map_offset_strides .layoutRight [n + 2]
  | _ :: _ :: _, _, _ => simp at h

theorem buffer_eq_elements {v : View} (h : v.extents.length ≤ 1) (hc : v.isContiguous = true) :
    v.buffer v.size = v.elements :=
  (map_cell_eq_buffer (map_offset_of_rank_le_one h hc)).symm

theorem nodup_elements_of_rank_le_one {v : View} (h : v.extents.length ≤ 1)
    (hc : v.isContiguous = true) : v.elements.Nodup := by
  rw [← buffer_eq_elements h hc]
  exact v.nodup_buffer _

theorem memoryIndices_of_rank_le_one {v : View} (h : v.extents.length ≤ 1)
    (hc : v.isContiguous = true) : v.memoryIndices = Layout.layoutRight.indices v.extents := by
  refine memoryIndices_of_ordered ?_
  rw [Ordered, map_offset_of_rank_le_one h hc]
  exact List.pairwise_lt_range

theorem buffer_contiguousView {v : View} (h : v.extents.length ≤ 1) (a : AllocId) :
    (v.contiguousView a).buffer v.size = (v.contiguousView a).elements := by
  rw [← cells_eq_elements (v := v.contiguousView a) h v.arrayLayout]
  exact (map_cell_eq_buffer (map_offset_contiguousView a v)).symm

end View

/-! ## The heap -/

/-- The contents of all cells. -/
abbrev Heap (α : Type) := Cell → α

namespace Heap

variable {α : Type}

/-- `Kokkos::deep_copy(dst, src)`: element `i` of `dst` becomes element `i`
of `src`, for every multi-index. -/
def deepCopy (h : Heap α) (dst src : View) : Heap α :=
  Memory.scatter h (dst.cells .layoutRight)
    (Memory.gather h ((Layout.layoutRight.indices dst.extents).map src.cell))

/-- Cells that are no element of `dst` stay. -/
theorem deepCopy_of_not_elem (h : Heap α) {dst src : View} {c : Cell} (hc : ¬ dst.Elem c) :
    h.deepCopy dst src c = h c :=
  Memory.scatter_of_not_mem fun hmem =>
    hc (View.mem_cells.mp (List.mem_of_mem_take hmem))

/-- Writing a list of values along one enumeration writes them by index. -/
theorem scatter_cells {v : View} {o : Layout} (hnd : (v.cells o).Nodup) (h : Heap α)
    (f : List Nat → α) {i : List Nat} (hi : Valid v.extents i) :
    Memory.scatter h (v.cells o) ((o.indices v.extents).map f) (v.cell i) = f i :=
  Memory.scatter_map v.cell f hnd (o.mem_indices.mpr hi)

theorem deepCopy_cell (h : Heap α) {dst src : View} (hnd : (dst.cells .layoutRight).Nodup)
    {i : List Nat} (hi : Valid dst.extents i) :
    h.deepCopy dst src (dst.cell i) = h (src.cell i) := by
  unfold deepCopy Memory.gather
  rw [List.map_map]
  exact scatter_cells hnd h _ hi

/-- A copy of equal values, whatever cells are named how often. -/
theorem deepCopy_of_const (h : Heap α) {dst src : View} {x : α}
    (hsrc : ∀ i, Valid dst.extents i → h (src.cell i) = x) {c : Cell} (hc : dst.Elem c) :
    h.deepCopy dst src c = x := by
  have hvalues : Memory.gather h ((Layout.layoutRight.indices dst.extents).map src.cell) =
      List.replicate (dst.cells .layoutRight).length x := by
    refine List.eq_replicate_iff.mpr ⟨by simp [View.size], fun z hz => ?_⟩
    obtain ⟨_, hcell, rfl⟩ := List.mem_map.mp hz
    obtain ⟨i, hi, rfl⟩ := List.mem_map.mp hcell
    exact hsrc i (Layout.layoutRight.mem_indices.mp hi)
  rw [deepCopy, hvalues]
  refine Memory.scatter_replicate x ?_
  rw [List.take_length]
  exact View.mem_cells.mpr hc

/-- The copy, as a whole. -/
theorem gather_deepCopy (h : Heap α) {dst src : View} (hext : dst.extents = src.extents)
    (hnd : dst.elements.Nodup) :
    Memory.gather (h.deepCopy dst src) dst.elements = Memory.gather h src.elements := by
  have hvalues : (Memory.gather h ((Layout.layoutRight.indices dst.extents).map src.cell)).length
      = dst.elements.length := by simp [View.size]
  have hsrc : (Layout.layoutRight.indices dst.extents).map src.cell = src.elements := by
    rw [hext]
    rfl
  rw [← hsrc]
  exact Memory.gather_scatter hnd hvalues

section Dense

variable {v : View} {order : List (List Nat)} {n : Nat}

/-- Reading the first elements behind the data handle of a dense view. -/
theorem gather_buffer (h : order.map (offset v.strides) = List.range v.size) (hn : n ≤ v.size)
    (m : Heap α) :
    Memory.gather m (v.buffer n) = (order.map fun i => m (v.cell i)).take n := by
  rw [View.buffer_eq_take h hn, Memory.gather, List.map_take, List.map_map]
  rfl

/-- Writing behind the data handle of a dense view. -/
theorem scatter_buffer_cell (h : order.map (offset v.strides) = List.range v.size)
    {xs : List α} (hlen : xs.length ≤ n) (m : Heap α) {k : Nat} {i : List Nat}
    (hi : order[k]? = some i) :
    Memory.scatter m (v.buffer n) xs (v.cell i) = xs[k]?.getD (m (v.cell i)) := by
  rw [View.cell_of_dense h hi]
  by_cases hk : k < xs.length
  · have hbuf : k < (v.buffer n).length := by
      rw [View.length_buffer]
      omega
    have hcell := Memory.scatter_getElem (m := m) (View.nodup_buffer v n) k hbuf hk
    rw [List.getElem?_eq_getElem hk]
    simpa [View.buffer] using hcell
  · rw [List.getElem?_eq_none (by omega)]
    refine Memory.scatter_of_not_mem fun hmem => ?_
    rw [View.buffer, ← List.map_take, List.take_range, List.mem_map] at hmem
    obtain ⟨k', hk', heq⟩ := hmem
    have hk'' := List.mem_range.mp hk'
    have := Nat.add_left_cancel (Prod.mk.inj heq).2
    omega

theorem scatter_buffer_of_not_elem (he : Enumerates order v.extents)
    (h : order.map (offset v.strides) = List.range v.size) (hn : n ≤ v.size) (m : Heap α)
    (xs : List α) {c : Cell} (hc : ¬ v.Elem c) : Memory.scatter m (v.buffer n) xs c = m c := by
  refine Memory.scatter_of_not_mem fun hmem => hc ?_
  have hbuf := List.mem_of_mem_take hmem
  rw [View.buffer_eq_take h hn] at hbuf
  obtain ⟨i, hi, rfl⟩ := List.mem_map.mp (List.mem_of_mem_take hbuf)
  exact ⟨i, he.mem_iff.mp hi, rfl⟩

end Dense

theorem deepCopy_of_not_mem (h : Heap α) {dst src : View} {c : Cell} (hc : c ∉ dst.elements) :
    h.deepCopy dst src c = h c :=
  deepCopy_of_not_elem h fun hm => hc (View.mem_elements.mpr hm)

end Heap

end KokkosComm
