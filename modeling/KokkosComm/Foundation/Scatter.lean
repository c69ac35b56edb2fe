/-
KokkosComm.Foundation.Scatter — reading and writing a memory at a list of
cells.

A memory is a function from cells to values. `gather` reads a list of
cells, `scatter` writes a list of values to a list of cells, one by one,
and stops at the end of the shorter list. On pairwise distinct cells the
two are inverse (`gather_scatter`), and no other cell changes
(`scatter_of_not_mem`).
-/
import Mathlib.Data.List.Nodup
import Mathlib.Logic.Function.Basic

namespace Memory

variable {ι α : Type}

/-- The values at a list of cells. -/
def gather (m : ι → α) (cells : List ι) : List α := cells.map m

@[simp] theorem length_gather (m : ι → α) (cells : List ι) :
    (gather m cells).length = cells.length := List.length_map m

variable [DecidableEq ι]

/-- Write the values to the cells, in order. -/
def scatter (m : ι → α) : List ι → List α → ι → α
  | c :: cells, x :: xs => scatter (Function.update m c x) cells xs
  | _, _ => m

/-- Only the first cells, one per value, are written. -/
theorem scatter_of_not_mem {c : ι} :
    ∀ {cells : List ι} {xs : List α} {m : ι → α}, c ∉ cells.take xs.length →
      scatter m cells xs c = m c
  | [], _, _, _ => by simp [scatter]
  | _ :: _, [], _, _ => by simp [scatter]
  | d :: cells, x :: xs, m, h => by
    simp only [List.length_cons, List.take_succ_cons, List.mem_cons, not_or] at h
    rw [scatter, scatter_of_not_mem h.2, Function.update_of_ne h.1]

/-- A cell that occurs once holds the value written to it. -/
theorem scatter_getElem :
    ∀ {cells : List ι} {xs : List α} {m : ι → α} (_ : cells.Nodup) (k : Nat)
      (hc : k < cells.length) (hx : k < xs.length), scatter m cells xs cells[k] = xs[k]
  | d :: cells, x :: xs, m, hnd, 0, _, _ => by
    have hd : d ∉ cells.take xs.length := fun h =>
      (List.nodup_cons.mp hnd).1 (List.mem_of_mem_take h)
    simp [scatter, scatter_of_not_mem hd]
  | d :: cells, x :: xs, m, hnd, k + 1, hc, hx => by
    simp only [List.getElem_cons_succ]
    rw [scatter]
    exact scatter_getElem (List.nodup_cons.mp hnd).2 k _ _

/-- Values and cells given by index: each cell holds its own value. -/
theorem scatter_map {κ : Type} {l : List κ} (cell : κ → ι) (value : κ → α) {m : ι → α}
    (hnd : (l.map cell).Nodup) {x : κ} (hx : x ∈ l) :
    scatter m (l.map cell) (l.map value) (cell x) = value x := by
  obtain ⟨k, hk, rfl⟩ := List.mem_iff_getElem.mp hx
  have hwritten := scatter_getElem (m := m) hnd k (by simpa using hk)
    (show k < (l.map value).length by simpa using hk)
  simpa using hwritten

/-- Reading back what was written. -/
theorem gather_scatter {cells : List ι} {xs : List α} {m : ι → α} (hnd : cells.Nodup)
    (hlen : xs.length = cells.length) : gather (scatter m cells xs) cells = xs := by
  refine List.ext_getElem (by simp [hlen]) fun k hk hk' => ?_
  simp only [gather, List.getElem_map]
  exact scatter_getElem hnd k _ _

/-- Reading cells none of which was written. -/
theorem gather_scatter_of_disjoint {cells others : List ι} {xs : List α} {m : ι → α}
    (hdisj : ∀ c ∈ others, c ∉ cells) : gather (scatter m cells xs) others = gather m others :=
  List.map_congr_left fun c hc =>
    scatter_of_not_mem fun h => hdisj c hc (List.mem_of_mem_take h)

/-- What a cell holds depends on what it held, and on what was written. -/
theorem scatter_congr {c : ι} :
    ∀ {cells : List ι} {xs : List α} {m m' : ι → α}, m c = m' c →
      scatter m cells xs c = scatter m' cells xs c
  | [], _, _, _, h => h
  | _ :: _, [], _, _, h => h
  | d :: cells, x :: xs, m, m', h => by
    rw [scatter, scatter]
    refine scatter_congr ?_
    by_cases hc : c = d
    · simp [hc]
    · rw [Function.update_of_ne hc, Function.update_of_ne hc, h]

/-- One value written to many cells. -/
theorem scatter_replicate {c : ι} (x : α) : ∀ {cells : List ι} {n : Nat} {m : ι → α},
    c ∈ cells.take n → scatter m cells (List.replicate n x) c = x
  | [], _, _, h => by simp at h
  | _ :: _, 0, _, h => by simp at h
  | d :: cells, n + 1, m, h => by
    rw [List.replicate_succ, scatter]
    by_cases hmem : c ∈ cells.take n
    · exact scatter_replicate x hmem
    · rw [List.take_succ_cons, List.mem_cons] at h
      obtain rfl := h.resolve_right hmem
      rw [scatter_of_not_mem (by simpa using hmem), Function.update_self]

end Memory
