/-
KokkosComm.Packing — a view as a list of values, in the order in which its
elements travel.

Both backends hand a contiguous view to the transport as it is, and any
other view by way of a packed one. `values` is what is sent for a view, and
`store` is what is left of a message in the view it was received into. A
packed view is a detour: `gather_handed_values` on the way out,
`unpacked_store` on the way in.
-/
import KokkosComm.Elementwise

namespace KokkosComm

open MultiIndex

variable {α : Type}

namespace View

/-- The cells of the elements, in the order in which they travel. -/
def traveling (v : View) : List Cell := v.route.order.map v.cell

/-- What is sent for a view. -/
def values (v : View) (h : Heap α) : List α := Memory.gather h v.traveling

/-- A message has arrived in a view. -/
def store (v : View) (xs : List α) (h : Heap α) : Heap α := Memory.scatter h v.traveling xs

variable {v : View}

@[simp] theorem length_traveling : v.traveling.length = v.size := by
  simp [traveling, v.enumerates_route.length_eq, View.size]

@[simp] theorem length_values (h : Heap α) : (v.values h).length = v.size := by simp [values]

theorem mem_traveling {c : Cell} : c ∈ v.traveling ↔ c ∈ v.elements := by
  rw [mem_elements, traveling, List.mem_map]
  exact exists_congr fun i => and_congr_left' v.enumerates_route.mem_iff

theorem perm_traveling : v.traveling.Perm v.elements := v.enumerates_route.map v.cell

theorem nodup_traveling : v.traveling.Nodup ↔ v.elements.Nodup := perm_traveling.nodup_iff

/-- What a view holds depends on its elements only. -/
theorem values_congr {h h' : Heap α} (heq : ∀ c ∈ v.elements, h c = h' c) :
    v.values h = v.values h' :=
  List.map_congr_left fun c hc => heq c (mem_traveling.mp hc)

theorem store_of_not_mem {xs : List α} {h : Heap α} {c : Cell} (hc : c ∉ v.elements) :
    v.store xs h c = h c :=
  Memory.scatter_of_not_mem fun hm => hc (mem_traveling.mp (List.mem_of_mem_take hm))

/-- What has arrived in a view is what it holds. -/
theorem values_store {xs : List α} {h : Heap α} (hnd : v.elements.Nodup)
    (hlen : xs.length = v.size) : v.values (v.store xs h) = xs :=
  Memory.gather_scatter (nodup_traveling.mpr hnd) (by simp [hlen])

/-- Heaps on which a view holds the same agree on its elements. -/
theorem eq_of_values_eq {h h' : Heap α} (heq : v.values h = v.values h') {c : Cell}
    (hc : c ∈ v.elements) : h c = h' c :=
  List.map_inj_left.mp heq c (mem_traveling.mpr hc)

/-- The data handle of what is handed over leads to the elements, in the order
in which they travel. -/
theorem buffer_handed (hnd : v.isContiguous = true → v.elements.Nodup) (a : AllocId) :
    (v.handed a).buffer v.size = v.route.order.map (v.handed a).cell := by
  by_cases hc : v.isContiguous = true
  · rw [handed_of_contiguous a hc, route, if_pos hc]
    exact (map_cell_eq_buffer (map_offset_memoryIndices (hnd hc) hc)).symm
  · have hp : v.isContiguous = false := by simpa using hc
    rw [handed_of_packed a hp, route, if_neg hc]
    exact (map_cell_eq_buffer (v := v.contiguousView a) (map_offset_contiguousView a v)).symm

end View

namespace Heap

variable {v : View} {a : AllocId}

/-- The heap after the callback of a receive view that was packed, if it
was. -/
def unpacked (a : AllocId) (v : View) (h : Heap α) : Heap α :=
  if v.isContiguous then h else h.deepCopy v (v.contiguousView a)

theorem unpacked_of_contiguous (hc : v.isContiguous = true) (h : Heap α) :
    unpacked a v h = h := if_pos hc

theorem unpacked_of_packed (hc : v.isContiguous = false) (h : Heap α) :
    unpacked a v h = h.deepCopy v (v.contiguousView a) := by simp [unpacked, hc]

/-- What is read for a view is what it holds. -/
theorem gather_handed_values (hnd : v.isContiguous = true → v.elements.Nodup) (a : AllocId)
    (h : Heap α) :
    Memory.gather (h.handed a v) ((v.handed a).buffer v.size) = v.values h := by
  rw [gather_handed hnd a (Nat.le_refl _), List.take_of_length_le
    (by simp [v.enumerates_route.length_eq, View.size]), View.values, View.traveling,
    Memory.gather, List.map_map]
  rfl

/-- What is in the buffer for a view at completion is in the view afterwards,
and nothing else has changed. -/
theorem unpacked_store {h h' : Heap α} {xs : List α} (hnd : v.elements.Nodup)
    (hbuf : Memory.gather h ((v.handed a).buffer v.size) = xs) {c : Cell}
    (hc : c ∈ v.elements ∨ h c = h' c) : unpacked a v h c = v.store xs h' c := by
  have hlen : xs.length = v.size := by rw [← hbuf]; simp
  rw [View.buffer_handed (fun _ => hnd)] at hbuf
  have hvalues : v.values (unpacked a v h) = xs := by
    rw [← hbuf]
    cases hcont : v.isContiguous with
    | true =>
      rw [unpacked_of_contiguous hcont, View.handed_of_contiguous a hcont]
      rfl
    | false =>
      rw [unpacked_of_packed hcont, View.handed_of_packed a hcont, View.values, View.traveling,
        Memory.gather, Memory.gather, List.map_map, List.map_map]
      exact List.map_congr_left fun i hi =>
        deepCopy_cell h hnd (v.enumerates_route.mem_iff.mp hi)
  by_cases hm : c ∈ v.elements
  · refine View.eq_of_values_eq ?_ hm
    rw [hvalues, View.values_store hnd hlen]
  · rw [View.store_of_not_mem hm, ← hc.resolve_left hm]
    unfold unpacked
    split
    · rfl
    · exact deepCopy_of_not_mem h hm

/-- A message that is stored and unpacked has arrived in the view. -/
theorem unpacked_scatter {n : Nat} {h h' : Heap α} {xs : List α} (hnd : v.elements.Nodup)
    (hlen : xs.length = v.size) (ha : n ≤ a) {c : Cell} (hlt : c.1 < n) (heq : h c = h' c) :
    unpacked a v (Memory.scatter h ((v.handed a).buffer v.size) xs) c = v.store xs h' c := by
  refine unpacked_store hnd
    (Memory.gather_scatter (View.nodup_buffer _ _) (by simp [hlen])) ?_
  by_cases hm : c ∈ v.elements
  · exact .inl hm
  · refine .inr ((Memory.scatter_of_not_mem fun hmem => hm ?_).trans heq)
    have hbuf : c ∈ (v.handed a).buffer v.size := List.mem_of_mem_take hmem
    cases hc : v.isContiguous with
    | true =>
      rw [View.buffer_handed (fun _ => hnd), View.handed_of_contiguous a hc] at hbuf
      exact View.mem_traveling.mp hbuf
    | false =>
      rw [View.handed_of_packed a hc] at hbuf
      have halloc : c.1 = a := (View.mem_buffer.mp hbuf).1
      exact absurd (halloc ▸ hlt) (Nat.not_lt.mpr ha)

end Heap

end KokkosComm
