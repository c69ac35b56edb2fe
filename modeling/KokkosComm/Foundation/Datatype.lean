/-
KokkosComm.Foundation.Datatype — MPI datatypes as type maps, and what the
transfer of one item does to the bytes.

A datatype is a list of basic types, each at a displacement in bytes.
`hvector` makes equidistant copies of one. Dimension after dimension it
describes a strided box, in the order in which the first coordinate varies
fastest (`hvectors_eq`).

One item is sent by reading the bytes of its entries, and received by
writing them. Two datatypes with entries for the same indices transfer
index by index (`receive_send`), provided that the receiving one names no
byte twice.
-/
import KokkosComm.Foundation.MultiIndex
import KokkosComm.Foundation.Scatter
import Mathlib.Algebra.Order.Ring.Int

/-- Basic types and their displacements. -/
abbrev TypeMap (β : Type) := List (β × Int)

namespace TypeMap

open MultiIndex

variable {β : Type}

/-- Every entry `d` bytes further on. -/
def shift (t : TypeMap β) (d : Int) : TypeMap β := t.map fun e => (e.1, e.2 + d)

/-- `count` copies, `stride` bytes apart (`MPI_Type_create_hvector` with
blocks of one item). -/
def hvector (t : TypeMap β) (count : Nat) (stride : Int) : TypeMap β :=
  (List.range count).flatMap fun (j : Nat) => t.shift (j * stride)

/-- One dimension after the other: counts and strides. -/
def hvectors (t : TypeMap β) : List (Nat × Int) → TypeMap β
  | [] => t
  | (count, stride) :: dims => (t.hvector count stride).hvectors dims

/-- The displacement of an index. -/
def disp : List (Nat × Int) → List Nat → Int
  | (_, stride) :: dims, x :: is => x * stride + disp dims is
  | _, _ => 0

@[simp] theorem shift_zero (t : TypeMap β) : t.shift 0 = t := by
  simp [shift]

theorem shift_shift (t : TypeMap β) (d d' : Int) : (t.shift d).shift d' = t.shift (d + d') := by
  unfold shift
  rw [List.map_map]
  refine List.map_congr_left fun e _ => ?_
  show (e.1, e.2 + d + d') = (e.1, e.2 + (d + d'))
  rw [Int.add_assoc]

theorem shift_flatMap {κ : Type} (l : List κ) (f : κ → TypeMap β) (d : Int) :
    shift (l.flatMap f) d = l.flatMap fun x => (f x).shift d := by
  unfold shift
  rw [List.map_flatMap]

/-- The first dimension is the innermost, so it varies fastest. -/
theorem hvectors_eq (t : TypeMap β) (dims : List (Nat × Int)) :
    t.hvectors dims = (colMajor (dims.map Prod.fst)).flatMap fun i => t.shift (disp dims i) := by
  induction dims generalizing t with
  | nil => simp [hvectors, colMajor, disp]
  | cons dim dims ih =>
    obtain ⟨count, stride⟩ := dim
    rw [hvectors, ih, List.map_cons, colMajor, List.flatMap_assoc]
    refine List.flatMap_congr fun is _ => ?_
    rw [hvector, shift_flatMap, List.flatMap_map]
    exact List.flatMap_congr fun x _ => shift_shift ..

/-! ## Bytes -/

section Bytes

variable (size : β → Nat)

/-- The displacements of the bytes of an item. -/
def bytes (t : TypeMap β) : List Int :=
  t.flatMap fun e => (List.range (size e.1)).map fun (k : Nat) => e.2 + k

variable {ι γ : Type}

/-- One item is sent: `src` is the cell at a displacement. -/
def send (t : TypeMap β) (src : Int → ι) (m : ι → γ) : List γ :=
  Memory.gather m ((t.bytes size).map src)

/-- One item is received. -/
def receive [DecidableEq ι] (t : TypeMap β) (dst : Int → ι) (message : List γ) (m : ι → γ) :
    ι → γ :=
  Memory.scatter m ((t.bytes size).map dst) message

/-- The bytes of a datatype with one entry per index. -/
theorem bytes_map {κ : Type} (l : List κ) (b : β) (f : κ → Int) :
    bytes size (l.map fun i => (b, f i)) =
      (l.flatMap fun i => (List.range (size b)).map fun (k : Nat) => (i, k)).map
        fun p => f p.1 + p.2 := by
  rw [bytes, List.flatMap_map, List.map_flatMap]
  refine List.flatMap_congr fun i _ => ?_
  rw [List.map_map]
  rfl

variable [DecidableEq ι] {κ : Type} {l : List κ} {b : β} {f g : κ → Int} {src dst : Int → ι}

/-- An item of one datatype is received as an item of another one with
entries for the same indices. -/
theorem receive_send (m₀ m : ι → γ)
    (hnd : ((bytes size (l.map fun i => (b, g i))).map dst).Nodup) {i : κ} (hi : i ∈ l) {k : Nat}
    (hk : k < size b) :
    receive size (l.map fun i => (b, g i)) dst (send size (l.map fun i => (b, f i)) src m₀) m
      (dst (g i + k)) = m₀ (src (f i + k)) := by
  rw [bytes_map, List.map_map] at hnd
  rw [receive, send, Memory.gather, bytes_map, bytes_map, List.map_map, List.map_map,
    List.map_map]
  have hmem : (i, k) ∈ l.flatMap fun i => (List.range (size b)).map fun (k : Nat) => (i, k) :=
    List.mem_flatMap.mpr ⟨i, hi, List.mem_map.mpr ⟨k, List.mem_range.mpr hk, rfl⟩⟩
  exact Memory.scatter_map (dst ∘ fun p => g p.1 + p.2) (m₀ ∘ src ∘ fun p => f p.1 + p.2)
    hnd hmem

/-- Other bytes stay. -/
theorem receive_of_not_mem {t : TypeMap β} {message : List γ} {m : ι → γ} {c : ι}
    (h : ∀ d ∈ t.bytes size, dst d ≠ c) : receive size t dst message m c = m c := by
  refine Memory.scatter_of_not_mem fun hmem => ?_
  obtain ⟨d, hd, heq⟩ := List.mem_map.mp (List.mem_of_mem_take hmem)
  exact h d hd heq

end Bytes

end TypeMap
