/-
KokkosComm.CollectiveTheorems — how the elements of a collective arrive, and
how collectives compose.

The elements arrive in their order, directly or by way of a packed view. A
reduction that everyone gets is one that the root gets and broadcasts
(`applyAll_reduce_broadcast`). Blocks that are sent out and sent back are
where they were (`gather_alltoall_alltoall`).
-/
import KokkosComm.Collective

namespace KokkosComm

open MultiIndex Reduction BlockExchange

variable {α : Type} {n N : Nat} {ops : Nat → α → α → α} {heaps : Nat → Heap α}

/-! ## Filling -/

namespace View

variable {v : View} {f g : List Nat → α} {h h' : Heap α}

/-- Only valid indices matter. -/
theorem fill_congr (hfg : ∀ i, Valid v.extents i → f i = g i) : v.fill f h = v.fill g h := by
  unfold fill
  rw [List.map_congr_left fun i hi => hfg i (Layout.layoutRight.mem_indices.mp hi)]

/-- Elements that stay what they are. -/
theorem fill_self (hnd : v.elements.Nodup) : v.fill (fun i => h (v.cell i)) h = h := by
  funext c
  by_cases hm : c ∈ v.elements
  · obtain ⟨i, hi, rfl⟩ := mem_elements.mp hm
    rw [fill_cell hnd hi]
  · rw [fill_of_not_mem hm]

/-- What was there before does not matter. -/
theorem fill_fill (hnd : v.elements.Nodup) : v.fill f (v.fill g h) = v.fill f h := by
  funext c
  by_cases hm : c ∈ v.elements
  · obtain ⟨i, hi, rfl⟩ := mem_elements.mp hm
    rw [fill_cell hnd hi, fill_cell hnd hi]
  · rw [fill_of_not_mem hm, fill_of_not_mem hm, fill_of_not_mem hm]

end View

/-! ## How elements arrive -/

section Arrival

variable {w : Route} {rv : View} {h h' g : Heap α} {f : List Nat → α}

/-- All elements have arrived, and nothing else has changed. -/
theorem delivered_fill (hd : Delivered w rv n h (w.order.map f) h') (hnd : rv.elements.Nodup)
    {c : Cell} (hlt : c.1 < n) (heq : h c = g c) : h' c = rv.fill f g c := by
  by_cases hm : c ∈ rv.elements
  · obtain ⟨i, hi, rfl⟩ := View.mem_elements.mp hm
    obtain ⟨k, hk⟩ := List.mem_iff_getElem?.mp (hd.enumerates.mem_iff.mpr hi)
    rw [View.fill_cell hnd hi]
    exact hd.element k i (f i) hk (by rw [List.getElem?_map, hk]; rfl)
  · rw [View.fill_of_not_mem hm, ← heq]
    exact hd.frame c (fun he => hm (View.mem_elements.mpr he)) hlt

/-- A contiguous view is received into as it is. -/
theorem fill_direct (hflat : Flat n rv) (hnd : rv.elements.Nodup) {c : Cell} (hlt : c.1 < n)
    (heq : h c = g c) :
    Memory.scatter h (rv.buffer rv.size) (rv.route.order.map f) c = rv.fill f g c := by
  have horder : rv.route.order = rv.memoryIndices := by rw [View.route, if_pos hflat.contiguous]
  rw [horder]
  exact delivered_fill (delivered_direct rv.enumerates_memoryIndices
    (View.map_offset_memoryIndices hnd hflat.contiguous) hflat.user (Nat.le_refl _)
    (by simp [rv.enumerates_memoryIndices.length_eq, View.size]) fun _ _ => rfl) hnd hlt heq

/-- Any other view, by way of a packed one. -/
theorem fill_packed {a : AllocId} (ha : n ≤ a) (hnd : rv.elements.Nodup) {c : Cell}
    (hlt : c.1 < n) (heq : h c = g c) :
    Heap.deepCopy (Memory.scatter h ((rv.contiguousView a).buffer rv.size)
      ((rv.arrayLayout.indices rv.extents).map f)) rv (rv.contiguousView a) c = rv.fill f g c :=
  delivered_fill (delivered_packed hnd ha (Nat.le_refl _)
    (by simp [(rv.arrayLayout.enumerates_indices rv.extents).length_eq, View.size])
    fun _ _ => rfl) hnd hlt heq

/-- What a contiguous view sends. -/
theorem gather_flat {v : View} (hc : v.isContiguous = true) (hnd : v.elements.Nodup)
    (h : Heap α) : Memory.gather h (v.buffer v.size) = v.values h := by
  have hsent := Heap.gather_handed_values (v := v) (fun _ => hnd) 0 h
  rwa [Heap.handed_of_contiguous 0 hc, View.handed_of_contiguous 0 hc] at hsent

/-- … in the order of the view that it is for. -/
theorem values_carried {sv : View} (hc : Carries n sv rv) (h : Heap α) :
    sv.values h = rv.route.order.map fun i => h (sv.cell i) := by
  rw [View.values, View.traveling, Memory.gather, List.map_map, hc.orders]
  rfl

/-- What is behind the data handle of a view of the user. -/
theorem gather_user {v : View} {k : Nat} (hv : v.alloc < n)
    (heq : ∀ c : Cell, c.1 < n → h c = g c) :
    Memory.gather h (v.buffer k) = Memory.gather g (v.buffer k) :=
  List.map_congr_left fun c hc => heq c (by rwa [(View.mem_buffer.mp hc).1])

/-- Messages in one order are combined index by index. -/
theorem combineAll_orders {op : α → α → α} [Std.Associative op] (c : Combiner op) {N : Nat}
    (hN : 0 < N) {order : List (List Nat)} {x : List Nat → Nat → α} (y : List Nat → α) :
    c.combineAll ((List.range N).map fun q => order.map fun i => x i q) order.length =
      order.map fun i => (reduction op ((List.range N).map (x i))).getD (y i) := by
  refine List.ext_getElem? fun k => ?_
  by_cases hk : k < order.length
  · have hcolumn : column ((List.range N).map fun q => order.map fun i => x i q) k =
        (List.range N).map (x order[k]) := column_eq (by simp [Function.comp_def, hk])
    have hne : (List.range N).map (x order[k]) ≠ [] := by simp; omega
    rw [combineAll_getElem? c hk, hcolumn, List.getElem?_map, List.getElem?_eq_getElem hk,
      Option.map_some, c.combine_eq k hne]
    rfl
  · rw [List.getElem?_eq_none (by simpa using hk), List.getElem?_eq_none (by simpa using hk)]

/-- Contributions in the order of the receive view, combined. -/
theorem combineAll_carried {op : α → α → α} [Std.Associative op] (c : Combiner op) (hN : 0 < N)
    {sv : Nat → View} {order : List (List Nat)} {messages : Nat → List α}
    (hlen : order.length = rv.size)
    (hmessages : ∀ q < N, messages q = order.map fun i => heaps q ((sv q).cell i))
    (h : Heap α) :
    c.combineAll ((List.range N).map messages) rv.size =
      order.map fun i => combined op N sv heaps (h (rv.cell i)) i := by
  have hall : (List.range N).map messages =
      (List.range N).map fun q => order.map fun i => heaps q ((sv q).cell i) :=
    List.map_congr_left fun q hq => hmessages q (List.mem_range.mp hq)
  rw [hall, ← hlen]
  exact combineAll_orders c hN fun i => h (rv.cell i)

/-- What `broadcast` is for, in the receive view of a process. -/
theorem broadcast_arrives {v : Nat → View} {root p : Nat} (hflat : Flat n (v p))
    (hc : Carries n (v root) (v p)) {cell : Cell} (hlt : cell.1 < n)
    (heq : h cell = heaps p cell) :
    Memory.scatter h ((v p).buffer (v p).size) ((v root).values (heaps root)) cell =
      (Collective.broadcast v root).apply ops N heaps p cell := by
  rw [values_carried hc]
  exact fill_direct hflat hc.distinct hlt heq

/-- What `allreduce` is for. -/
theorem allreduce_arrives {op p : Nat} [Std.Associative (ops op)] (c : Combiner (ops op))
    {sv rv : Nat → View} (hp : p < N) (hflat : Flat n (rv p))
    (hc : ∀ q < N, Carries n (sv q) (rv p)) {cell : Cell} (hlt : cell.1 < n)
    (heq : h cell = heaps p cell) :
    Memory.scatter h ((rv p).buffer (rv p).size) (c.combineAll
      ((List.range N).map fun q => (sv q).values (heaps q)) (rv p).size) cell =
        (Collective.allreduce sv rv op).apply ops N heaps p cell := by
  rw [combineAll_carried c (Nat.zero_lt_of_lt hp)
    (by simp [(rv p).enumerates_route.length_eq, View.size])
    (fun q hq => values_carried (hc q hq) _) (heaps p)]
  exact fill_direct hflat (hc p hp).distinct hlt heq

end Arrival

/-! ## Reduction and broadcast -/

theorem applyAll_of_lt {c : Collective} {p : Nat} (hp : p < N) :
    c.applyAll ops N heaps p = c.apply ops N heaps p := if_pos hp

theorem applyAll_of_not_lt {c : Collective} {p : Nat} (hp : ¬ p < N) :
    c.applyAll ops N heaps p = heaps p := if_neg hp

/-- With at least one process, there is a reduction. -/
theorem combined_eq (hN : 0 < N) (op : α → α → α) (v : Nat → View) (x y : α) (i : List Nat) :
    combined op N v heaps x i = combined op N v heaps y i := by
  have hne : (List.range N).map (fun q => heaps q ((v q).cell i)) ≠ [] := by simp; omega
  obtain ⟨z, hz⟩ : ∃ z, reduction op _ = some z := reduction_isSome hne
  rw [combined, combined, hz]
  rfl

variable (ops heaps) in
/-- The root reduces into a view, and broadcasts it. -/
theorem applyAll_reduce_broadcast (hN : 0 < N) (sv : Nat → View) {rv : Nat → View} (op : Nat)
    {root : Nat} (hroot : root < N) (hexts : ∀ p < N, (rv p).extents = (rv root).extents)
    (hnd : (rv root).elements.Nodup) :
    (Collective.broadcast rv root).applyAll ops N
      ((Collective.reduce sv rv op root).applyAll ops N heaps) =
      (Collective.allreduce sv rv op).applyAll ops N heaps := by
  funext p
  by_cases hp : p < N
  · have hresult : (Collective.reduce sv rv op root).applyAll ops N heaps root =
        (rv root).fill (fun i => combined (ops op) N sv heaps (heaps root ((rv root).cell i)) i)
          (heaps root) := by
      rw [applyAll_of_lt hroot, Collective.apply, if_pos rfl]
    have hfill : ∀ i, Valid (rv p).extents i →
        (Collective.reduce sv rv op root).applyAll ops N heaps root ((rv root).cell i) =
          combined (ops op) N sv heaps (heaps p ((rv p).cell i)) i := fun i hi => by
      rw [hresult, View.fill_cell hnd (by rwa [← hexts p hp])]
      exact combined_eq hN _ _ _ _ _
    rw [applyAll_of_lt hp, applyAll_of_lt hp, Collective.apply, Collective.apply,
      View.fill_congr hfill]
    by_cases hpr : p = root
    · subst hpr
      rw [hresult, View.fill_fill hnd]
    · rw [applyAll_of_lt hp, Collective.apply, if_neg hpr]
  · rw [applyAll_of_not_lt hp, applyAll_of_not_lt hp, applyAll_of_not_lt hp]

/-! ## Blocks out and back -/

/-- Lists in blocks, transposed twice. -/
theorem flatMap_block_block {m : Nat → List α} {count p : Nat} (hp : p < N)
    (hlen : ∀ q < N, (m q).length = N * count) :
    (List.range N).flatMap (fun q =>
      block count ((List.range N).flatMap fun r => block count (m r) q) p) = m p := by
  have hblock : ∀ q ∈ List.range N,
      block count ((List.range N).flatMap fun r => block count (m r) q) p =
        block count (m p) q := fun q hq =>
    block_flatMap (fun r hr =>
      length_block (hlen r (List.mem_range.mp hr)) (List.mem_range.mp hq)) (by simp [hp])
  rw [List.flatMap_congr hblock]
  exact flatMap_block (hlen p hp)

/-- What is in the receive buffers of an exchange of blocks. -/
theorem gather_alltoall {sv rv : Nat → View} {count p : Nat} (hp : p < N) :
    Memory.gather ((Collective.alltoall sv rv count).applyAll ops N heaps p)
      ((rv p).buffer (N * count)) = (List.range N).flatMap fun q =>
        block count (Memory.gather (heaps q) ((sv q).buffer (N * count))) p := by
  rw [applyAll_of_lt hp, Collective.apply]
  refine Memory.gather_scatter (View.nodup_buffer _ _) ?_
  have hlen : ∀ q ∈ List.range N,
      (block count (Memory.gather (heaps q) ((sv q).buffer (N * count))) p).length = count :=
    fun q _ => length_block (by simp) hp
  rw [List.length_flatMap, List.map_congr_left hlen]
  simp

/-- Blocks that are sent out and back are those that were there. -/
theorem gather_alltoall_alltoall {sv rv tv : Nat → View} {count p : Nat} (hp : p < N) :
    Memory.gather ((Collective.alltoall rv tv count).applyAll ops N
      ((Collective.alltoall sv rv count).applyAll ops N heaps) p) ((tv p).buffer (N * count)) =
      Memory.gather (heaps p) ((sv p).buffer (N * count)) := by
  rw [gather_alltoall hp, List.flatMap_congr fun q hq => by
    rw [gather_alltoall (List.mem_range.mp hq)]]
  exact flatMap_block_block (m := fun q => Memory.gather (heaps q) ((sv q).buffer (N * count))) hp
    fun q _ => by simp

/-! ## Runs -/

namespace ParallelStep

@[simp] theorem run_append (steps steps' : List (ParallelStep α n)) :
    run ops N heaps (steps ++ steps') = run ops N (run ops N heaps steps) steps' :=
  List.foldl_append

@[simp] theorem run_cons (s : ParallelStep α n) (steps : List (ParallelStep α n)) :
    run ops N heaps (s :: steps) = run ops N (s.apply ops N heaps) steps := rfl

@[simp] theorem run_nil : run ops N heaps ([] : List (ParallelStep α n)) = heaps := rfl

end ParallelStep

end KokkosComm
