/-
KokkosComm.Foundation.MultiIndex — multi-indices of a box of extents, the
two orders in which a machine enumerates them, and strided offsets.

An index is a list of coordinates, one per extent. `rowMajor` enumerates
the indices with the LAST coordinate varying fastest, `colMajor` with the
FIRST. `offset strides i` is the strided address of an index. The strides
`rowStrides`/`colStrides` are the dense ones: along its own enumeration a
dense layout counts 0, 1, 2, … (`map_offset_rowStrides`,
`map_offset_colStrides`).

The other way round, an injective monotone layout with no holes is the
dense one: a strictly increasing list of numbers below its length is
`range` (`eq_range_of_pairwise_lt`).

Any other strides put the indices in an order of their own (`byOffset`).
The two enumerations agree only for boxes that are one-dimensional up to
extents 1, or empty (`rowMajor_eq_colMajor_iff`).
-/
import Mathlib.Algebra.BigOperators.Ring.List
import Mathlib.Algebra.Order.Ring.Nat
import Mathlib.Data.List.Nodup
import Mathlib.Data.List.Sort
import Mathlib.Data.List.Perm.Subperm

namespace MultiIndex

/-! ## Enumerations -/

/-- `i` is an index of the box `exts`. -/
def Valid (exts i : List Nat) : Prop := List.Forall₂ (fun e x => x < e) exts i

/-- All indices, last coordinate fastest. -/
def rowMajor : List Nat → List (List Nat)
  | [] => [[]]
  | e :: es => (List.range e).flatMap fun x => (rowMajor es).map (x :: ·)

/-- All indices, first coordinate fastest. -/
def colMajor : List Nat → List (List Nat)
  | [] => [[]]
  | e :: es => (colMajor es).flatMap fun is => (List.range e).map (· :: is)

theorem valid_cons {e : Nat} {es i : List Nat} :
    Valid (e :: es) i ↔ ∃ x is, i = x :: is ∧ x < e ∧ Valid es is := by
  unfold Valid
  rw [List.forall₂_cons_left_iff]
  constructor
  · rintro ⟨x, is, hx, his, rfl⟩; exact ⟨x, is, rfl, hx, his⟩
  · rintro ⟨x, is, rfl, hx, his⟩; exact ⟨x, is, hx, his, rfl⟩

theorem mem_rowMajor {exts i : List Nat} : i ∈ rowMajor exts ↔ Valid exts i := by
  induction exts generalizing i with
  | nil => simp [rowMajor, Valid]
  | cons e es ih =>
    simp only [rowMajor, List.mem_flatMap, List.mem_range, List.mem_map, valid_cons, ih]
    constructor
    · rintro ⟨x, hx, is, his, rfl⟩; exact ⟨x, is, rfl, hx, his⟩
    · rintro ⟨x, is, rfl, hx, his⟩; exact ⟨x, hx, is, his, rfl⟩

theorem mem_colMajor {exts i : List Nat} : i ∈ colMajor exts ↔ Valid exts i := by
  induction exts generalizing i with
  | nil => simp [colMajor, Valid]
  | cons e es ih =>
    simp only [colMajor, List.mem_flatMap, List.mem_range, List.mem_map, valid_cons, ih]
    constructor
    · rintro ⟨is, his, x, hx, rfl⟩; exact ⟨x, is, rfl, hx, his⟩
    · rintro ⟨x, is, rfl, hx, his⟩; exact ⟨is, his, x, hx, rfl⟩

theorem length_rowMajor (exts : List Nat) : (rowMajor exts).length = exts.prod := by
  induction exts with
  | nil => rfl
  | cons e es ih => simp [rowMajor, List.length_flatMap, ih, List.map_const']

theorem length_colMajor (exts : List Nat) : (colMajor exts).length = exts.prod := by
  induction exts with
  | nil => rfl
  | cons e es ih =>
    simp [colMajor, List.length_flatMap, ih, List.map_const', Nat.mul_comm]

/-! ## Strided offsets -/

/-- The strided address of an index. -/
def offset : List Nat → List Nat → Nat
  | s :: ss, x :: is => x * s + offset ss is
  | _, _ => 0

/-- Dense strides, last coordinate fastest. -/
def rowStrides : List Nat → List Nat
  | [] => []
  | _ :: es => es.prod :: rowStrides es

/-- Dense strides in units of `c`, first coordinate fastest. -/
def colStridesFrom (c : Nat) : List Nat → List Nat
  | [] => []
  | e :: es => c :: colStridesFrom (c * e) es

/-- Dense strides, first coordinate fastest. -/
def colStrides (exts : List Nat) : List Nat := colStridesFrom 1 exts

@[simp] theorem length_rowStrides (exts : List Nat) : (rowStrides exts).length = exts.length := by
  induction exts with
  | nil => rfl
  | cons e es ih => simp [rowStrides, ih]

theorem length_colStridesFrom (c : Nat) (exts : List Nat) :
    (colStridesFrom c exts).length = exts.length := by
  induction exts generalizing c with
  | nil => rfl
  | cons e es ih => simp [colStridesFrom, ih]

@[simp] theorem length_colStrides (exts : List Nat) : (colStrides exts).length = exts.length :=
  length_colStridesFrom 1 exts

/-- Counting to `m * n` in `m` rounds of `n`. -/
theorem range_mul (m n : Nat) :
    List.range (m * n) = (List.range m).flatMap fun k => (List.range n).map (k * n + ·) := by
  induction m with
  | zero => simp
  | succ m ih =>
    rw [List.range_succ, List.flatMap_append, ← ih, Nat.succ_mul, List.range_add]
    simp

theorem map_offset_rowStrides (exts : List Nat) :
    (rowMajor exts).map (offset (rowStrides exts)) = List.range exts.prod := by
  induction exts with
  | nil => rfl
  | cons e es ih =>
    rw [List.prod_cons, range_mul, rowMajor, List.map_flatMap]
    refine List.flatMap_congr fun x _ => ?_
    rw [← ih, List.map_map, List.map_map]
    exact List.map_congr_left fun is _ => rfl

theorem map_offset_colStridesFrom (c : Nat) (exts : List Nat) :
    (colMajor exts).map (offset (colStridesFrom c exts)) = (List.range exts.prod).map (· * c) := by
  induction exts generalizing c with
  | nil => simp [colMajor, offset]
  | cons e es ih =>
    rw [List.prod_cons, Nat.mul_comm e, range_mul, colMajor, List.map_flatMap, List.map_flatMap]
    -- the tails advance by `c * e`, one round of the first coordinate
    have hround : ∀ is, ((List.range e).map (· :: is)).map (offset (colStridesFrom c (e :: es)))
        = (List.range e).map fun x => x * c + offset (colStridesFrom (c * e) es) is := by
      intro is
      rw [List.map_map]
      exact List.map_congr_left fun x _ => rfl
    simp only [hround]
    rw [← List.flatMap_map (f := offset (colStridesFrom (c * e) es))
        (g := fun k => (List.range e).map fun x => x * c + k), ih, List.flatMap_map]
    refine List.flatMap_congr fun k _ => ?_
    rw [List.map_map]
    refine List.map_congr_left fun x _ => ?_
    change x * c + k * (c * e) = (k * e + x) * c
    rw [Nat.add_mul, Nat.mul_comm c e, ← Nat.mul_assoc, Nat.add_comm]

theorem map_offset_colStrides (exts : List Nat) :
    (colMajor exts).map (offset (colStrides exts)) = List.range exts.prod := by
  rw [colStrides, map_offset_colStridesFrom]
  simp

/-! ## Extreme indices -/

/-- The index whose coordinates are all as large as possible. -/
def top (exts : List Nat) : List Nat := exts.map (· - 1)

theorem offset_le_top {exts i : List Nat} (strides : List Nat) (h : Valid exts i) :
    offset strides i ≤ offset strides (top exts) := by
  induction exts generalizing i strides with
  | nil =>
    obtain rfl : i = [] := by simpa [Valid] using h
    exact Nat.le_refl _
  | cons e es ih =>
    obtain ⟨x, is, rfl, hx, his⟩ := valid_cons.mp h
    cases strides with
    | nil => simp [offset]
    | cons s ss =>
      simp only [offset, top, List.map_cons]
      exact Nat.add_le_add (Nat.mul_le_mul_right s (by omega)) (ih ss his)

theorem valid_top {exts : List Nat} (h : 0 ∉ exts) : Valid exts (top exts) := by
  induction exts with
  | nil => exact .nil
  | cons e es ih =>
    simp only [List.mem_cons, not_or] at h
    exact valid_cons.mpr ⟨e - 1, top es, rfl, by omega, ih h.2⟩

theorem prod_ne_zero_iff {exts : List Nat} : exts.prod ≠ 0 ↔ 0 ∉ exts := by
  rw [Ne, List.prod_eq_zero_iff]

/-! ## No holes -/

/-- A strictly increasing list of numbers below its length counts up. -/
theorem eq_range_of_pairwise_lt {l : List Nat} (hl : l.Pairwise (· < ·))
    (hlt : ∀ x ∈ l, x < l.length) : l = List.range l.length := by
  have hnd : l.Nodup := hl.imp Nat.ne_of_lt
  have hsub : l ⊆ List.range l.length := fun x hx => List.mem_range.mpr (hlt x hx)
  have hperm : l.Perm (List.range l.length) :=
    (List.subperm_of_subset hnd hsub).perm_of_length_le (by simp)
  exact hperm.eq_of_pairwise (fun a b _ _ h h' => absurd h (Nat.lt_asymm h')) hl
    List.pairwise_lt_range

/-! ## Any order -/

/-- The list is the box `exts` in some order. -/
def Enumerates (order : List (List Nat)) (exts : List Nat) : Prop := order.Perm (rowMajor exts)

namespace Enumerates

variable {order : List (List Nat)} {exts : List Nat}

theorem mem_iff (h : Enumerates order exts) {i : List Nat} : i ∈ order ↔ Valid exts i :=
  (List.Perm.mem_iff h).trans mem_rowMajor

theorem length_eq (h : Enumerates order exts) : order.length = exts.prod :=
  (List.Perm.length_eq h).trans (length_rowMajor exts)

theorem exists_getElem? (h : Enumerates order exts) {k : Nat} (hk : k < exts.prod) :
    ∃ i, order[k]? = some i :=
  ⟨_, List.getElem?_eq_getElem (h.length_eq ▸ hk)⟩

/-- Two orders that differ have different indices at some place. -/
theorem exists_ne {order' : List (List Nat)} (h : Enumerates order exts)
    (h' : Enumerates order' exts) (hne : order ≠ order') :
    ∃ k, k < exts.prod ∧ order[k]? ≠ order'[k]? := by
  obtain ⟨k, hk⟩ : ∃ k : Nat, order[k]? ≠ order'[k]? := by
    by_contra hsame
    push Not at hsame
    exact hne (List.ext_getElem? hsame)
  refine ⟨k, ?_, hk⟩
  by_contra hge
  have hge := Nat.le_of_not_lt hge
  exact hk (by rw [List.getElem?_eq_none (h.length_eq ▸ hge),
    List.getElem?_eq_none (h'.length_eq ▸ hge)])

end Enumerates

/-- All indices, by increasing offset. -/
def byOffset (strides exts : List Nat) : List (List Nat) :=
  (rowMajor exts).insertionSort (Order.Preimage (offset strides) (· ≤ ·))

theorem enumerates_byOffset (strides exts : List Nat) :
    Enumerates (byOffset strides exts) exts := List.perm_insertionSort _ _

theorem pairwise_byOffset (strides exts : List Nat) :
    ((byOffset strides exts).map (offset strides)).Pairwise (· ≤ ·) :=
  List.pairwise_map.mpr
    (List.pairwise_insertionSort (Order.Preimage (offset strides) (· ≤ ·)) _)

/-- There is one order in which the offsets increase. -/
theorem byOffset_eq {strides exts : List Nat} {order : List (List Nat)}
    (he : Enumerates order exts) (hlt : (order.map (offset strides)).Pairwise (· < ·)) :
    byOffset strides exts = order := by
  have hnd : (order.map (offset strides)).Nodup := hlt.imp Nat.ne_of_lt
  have hperm : (byOffset strides exts).Perm order :=
    (enumerates_byOffset strides exts).trans he.symm
  refine hperm.eq_of_pairwise (fun i j hi hj hle hle' => ?_)
    (List.pairwise_insertionSort (Order.Preimage (offset strides) (· ≤ ·)) _)
    ((List.pairwise_map.mp hlt).imp Nat.le_of_lt)
  exact List.inj_on_of_nodup_map hnd (hperm.subset hi) hj (Nat.le_antisymm hle hle')

/-! ## When the two enumerations agree -/

theorem rowMajor_eq_nil {exts : List Nat} (h : 0 ∈ exts) : rowMajor exts = [] :=
  List.eq_nil_of_length_eq_zero (by rw [length_rowMajor, List.prod_eq_zero h])

theorem colMajor_eq_nil {exts : List Nat} (h : 0 ∈ exts) : colMajor exts = [] :=
  List.eq_nil_of_length_eq_zero (by rw [length_colMajor, List.prod_eq_zero h])

theorem countP_one_lt_eq_zero {exts : List Nat} (hpos : 0 ∉ exts) :
    exts.countP (1 < ·) = 0 ↔ exts.prod = 1 := by
  induction exts with
  | nil => simp
  | cons e es ih =>
    simp only [List.mem_cons, not_or] at hpos
    rw [List.countP_cons, List.prod_cons]
    have hmul : e * es.prod = 1 ↔ e = 1 ∧ es.prod = 1 := by
      constructor
      · intro h
        exact ⟨Nat.eq_one_of_mul_eq_one_right h, Nat.eq_one_of_mul_eq_one_left h⟩
      · rintro ⟨rfl, h⟩
        omega
    rw [hmul, ← ih hpos.2]
    by_cases h : 1 < e
    · simp only [h, decide_true, if_true]
      omega
    · simp only [h, decide_false, Bool.false_eq_true, if_false]
      omega

/-- A box with a single index. -/
theorem rowMajor_of_prod_eq_one {exts : List Nat} (h : exts.prod = 1) :
    rowMajor exts = [top exts] ∧ colMajor exts = [top exts] := by
  have hpos : 0 ∉ exts := prod_ne_zero_iff.mp (by omega)
  have htop := valid_top hpos
  constructor
  · obtain ⟨a, ha⟩ := List.length_eq_one_iff.mp ((length_rowMajor exts).trans h)
    have : top exts ∈ rowMajor exts := mem_rowMajor.mpr htop
    rw [ha] at this ⊢
    simp [List.mem_singleton.mp this]
  · obtain ⟨a, ha⟩ := List.length_eq_one_iff.mp ((length_colMajor exts).trans h)
    have : top exts ∈ colMajor exts := mem_colMajor.mpr htop
    rw [ha] at this ⊢
    simp [List.mem_singleton.mp this]

/-- The two enumerations of a box are the same list exactly when the box
is empty or has at most one extent larger than 1. -/
theorem rowMajor_eq_colMajor_iff (exts : List Nat) :
    rowMajor exts = colMajor exts ↔ 0 ∈ exts ∨ exts.countP (1 < ·) ≤ 1 := by
  by_cases hzero : 0 ∈ exts
  · simp [hzero, rowMajor_eq_nil, colMajor_eq_nil]
  simp only [hzero, false_or]
  induction exts with
  | nil => simp [rowMajor, colMajor]
  | cons e es ih =>
    simp only [List.mem_cons, not_or] at hzero
    obtain ⟨he, hes⟩ := hzero
    rw [List.countP_cons]
    by_cases h1 : 1 < e
    · simp only [h1, decide_true, if_true]
      constructor
      · intro h
        rw [show es.countP (1 < ·) = 0 from ?_]
        rw [countP_one_lt_eq_zero hes]
        by_contra hprod
        have hprod' : 1 < es.prod := by
          have := prod_ne_zero_iff.mpr hes
          omega
        -- the second index differs in its first coordinate
        have hrow : ((rowMajor (e :: es)).map List.head?)[1]? = some (some 0) := by
          obtain ⟨e', rfl⟩ : ∃ m, e = m + 1 := ⟨e - 1, by omega⟩
          rw [rowMajor, List.range_succ_eq_map, List.flatMap_cons, List.map_append,
            List.getElem?_append_left (by simpa [length_rowMajor] using hprod')]
          simp [length_rowMajor, hprod']
        have hcol : ((colMajor (e :: es)).map List.head?)[1]? = some (some 1) := by
          have hlen : 0 < (colMajor es).length := by rw [length_colMajor]; omega
          obtain ⟨i, rest, hi⟩ := List.exists_cons_of_ne_nil (List.ne_nil_of_length_pos hlen)
          rw [colMajor, hi, List.flatMap_cons, List.map_append,
            List.getElem?_append_left (by simpa using h1)]
          simp [h1]
        rw [h, hcol] at hrow
        cases hrow
      · intro h
        have hprod := (countP_one_lt_eq_zero hes).mp (by omega)
        obtain ⟨hr, hc⟩ := rowMajor_of_prod_eq_one hprod
        simp [rowMajor, colMajor, hr, hc, List.map_eq_flatMap]
    · obtain rfl : e = 1 := by omega
      simp only [h1, decide_false, Bool.false_eq_true, if_false, Nat.add_zero]
      rw [← ih hes]
      have hrow : rowMajor (1 :: es) = (rowMajor es).map (0 :: ·) := by simp [rowMajor]
      have hcol : colMajor (1 :: es) = (colMajor es).map (0 :: ·) := by
        simp [colMajor, List.map_eq_flatMap]
      rw [hrow, hcol]
      exact (List.map_injective_iff.mpr fun a b hab => (List.cons.inj hab).2).eq_iff

end MultiIndex
