/-
KokkosComm.Subview — `Kokkos::subview`, and what its elements are.

Each argument is an index, which removes a dimension, a pair, which cuts a
piece out of one, or `Kokkos::ALL`. `embed` takes an index of the subview to
the index of the same element in the view.
-/
import KokkosComm.Packing

namespace KokkosComm

open MultiIndex

/-- An argument of `Kokkos::subview`. -/
inductive Slice where
  | index (i : Nat)
  | pair (a b : Nat)
  | all
  deriving DecidableEq, Repr

namespace Slice

/-- Where it starts in its dimension. -/
def start : Slice → Nat
  | index i => i
  | pair a _ => a
  | all => 0

/-- The extents and strides that are left. -/
def dims : List Slice → List Nat → List Nat → List (Nat × Nat)
  | index _ :: xs, _ :: es, _ :: ss => dims xs es ss
  | pair a b :: xs, _ :: es, s :: ss => (b - a, s) :: dims xs es ss
  | all :: xs, e :: es, s :: ss => (e, s) :: dims xs es ss
  | _, _, _ => []

/-- The index in the view. -/
def embed : List Slice → List Nat → List Nat
  | index i :: xs, is => i :: embed xs is
  | pair a _ :: xs, i :: is => (a + i) :: embed xs is
  | all :: xs, i :: is => i :: embed xs is
  | _, _ => []

/-- The argument stays within its extent. -/
def InRange (e : Nat) : Slice → Prop
  | index i => i < e
  | pair a b => a ≤ b ∧ b ≤ e
  | all => True

variable {xs : List Slice} {es ss is js : List Nat}

theorem valid_embed (hxs : List.Forall₂ InRange es xs) (hss : ss.length = es.length)
    (hi : Valid ((dims xs es ss).map Prod.fst) is) : Valid es (embed xs is) := by
  induction hxs generalizing ss is with
  | nil => exact List.Forall₂.nil
  | @cons e x es xs hx hxs ih =>
    obtain ⟨s, ss, rfl⟩ := List.exists_cons_of_length_eq_add_one hss
    have hss' : ss.length = es.length := by simpa using hss
    cases x with
    | index i => exact valid_cons.mpr ⟨i, _, rfl, hx, ih hss' hi⟩
    | pair a b =>
      obtain ⟨i, is, rfl, hlt, hrest⟩ := valid_cons.mp hi
      have hx : a ≤ b ∧ b ≤ e := hx
      exact valid_cons.mpr ⟨a + i, _, rfl, by omega, ih hss' hrest⟩
    | all =>
      obtain ⟨i, is, rfl, hlt, hrest⟩ := valid_cons.mp hi
      exact valid_cons.mpr ⟨i, _, rfl, hlt, ih hss' hrest⟩

theorem embed_injective (hxs : List.Forall₂ InRange es xs) (hss : ss.length = es.length)
    (hi : Valid ((dims xs es ss).map Prod.fst) is) (hj : Valid ((dims xs es ss).map Prod.fst) js)
    (heq : embed xs is = embed xs js) : is = js := by
  induction hxs generalizing ss is js with
  | nil =>
    have hnil : ∀ {l}, Valid ((dims [] [] ss).map Prod.fst) l → l = [] := by simp [dims, Valid]
    rw [hnil hi, hnil hj]
  | @cons e x es xs hx hxs ih =>
    obtain ⟨s, ss, rfl⟩ := List.exists_cons_of_length_eq_add_one hss
    have hss' : ss.length = es.length := by simpa using hss
    cases x with
    | index i => exact ih hss' hi hj (List.cons.inj heq).2
    | pair a b =>
      obtain ⟨i, is, rfl, -, hrest⟩ := valid_cons.mp hi
      obtain ⟨j, js, rfl, -, hrest'⟩ := valid_cons.mp hj
      obtain ⟨hhead, htail⟩ := List.cons.inj heq
      rw [Nat.add_left_cancel hhead, ih hss' hrest hrest' htail]
    | all =>
      obtain ⟨i, is, rfl, -, hrest⟩ := valid_cons.mp hi
      obtain ⟨j, js, rfl, -, hrest'⟩ := valid_cons.mp hj
      obtain ⟨rfl, htail⟩ := List.cons.inj heq
      rw [ih hss' hrest hrest' htail]

/-- An element of the subview is where it is in the view. -/
theorem offset_embed (hxs : List.Forall₂ InRange es xs) (hss : ss.length = es.length)
    (hi : Valid ((dims xs es ss).map Prod.fst) is) :
    offset ss (embed xs is) =
      offset ss (xs.map start) + offset ((dims xs es ss).map Prod.snd) is := by
  induction hxs generalizing ss is with
  | nil =>
    obtain rfl := List.eq_nil_of_length_eq_zero hss
    rfl
  | @cons e x es xs hx hxs ih =>
    obtain ⟨s, ss, rfl⟩ := List.exists_cons_of_length_eq_add_one hss
    have hss' : ss.length = es.length := by simpa using hss
    cases x with
    | index i =>
      have hrest := ih hss' hi
      simp only [embed, offset, dims, List.map_cons, start, hrest]
      omega
    | pair a b =>
      obtain ⟨i, is, rfl, -, hvalid⟩ := valid_cons.mp hi
      have hrest := ih hss' hvalid
      simp only [embed, offset, dims, List.map_cons, start, hrest, Nat.add_mul]
      omega
    | all =>
      obtain ⟨i, is, rfl, -, hvalid⟩ := valid_cons.mp hi
      have hrest := ih hss' hvalid
      simp only [embed, offset, dims, List.map_cons, start, hrest, Nat.zero_mul]
      omega

end Slice

namespace View

open Slice

variable {v : View} {xs : List Slice} {i : List Nat}

/-- `Kokkos::subview(v, xs...)`. -/
def subview (v : View) (xs : List Slice) : View where
  alloc := v.alloc
  base := v.base + offset v.strides (xs.map start)
  extents := (dims xs v.extents v.strides).map Prod.fst
  strides := (dims xs v.extents v.strides).map Prod.snd
  arrayLayout := v.arrayLayout
  managed := v.managed
  rank_eq := by simp

/-- The arguments of a subview stay within the view. -/
def Slices (v : View) (xs : List Slice) : Prop := List.Forall₂ InRange v.extents xs

theorem cell_subview (hxs : v.Slices xs) (hi : Valid (v.subview xs).extents i) :
    (v.subview xs).cell i = v.cell (embed xs i) := by
  unfold cell
  rw [offset_embed hxs v.rank_eq hi, ← Nat.add_assoc]
  rfl

theorem nodup_elements_subview (hnd : v.elements.Nodup) (hxs : v.Slices xs) :
    (v.subview xs).elements.Nodup := by
  refine List.Nodup.map_on (fun i hi j hj heq => ?_) (Layout.nodup_indices _ _)
  have hi := (Layout.mem_indices _).mp hi
  have hj := (Layout.mem_indices _).mp hj
  rw [cell_subview hxs hi, cell_subview hxs hj] at heq
  exact embed_injective hxs v.rank_eq hi hj (cell_injective_of_nodup hnd
    (valid_embed hxs v.rank_eq hi) (valid_embed hxs v.rank_eq hj) heq)

/-- Views of equal shape, on equal execution spaces, send and receive index by
index. -/
theorem values_eq_iff {α : Type} {rv sv : View} {h h' : Heap α} (hext : rv.extents = sv.extents)
    (hstr : rv.strides = sv.strides) (hlay : rv.arrayLayout = sv.arrayLayout) :
    rv.values h = sv.values h' ↔ ∀ i, Valid sv.extents i → h (rv.cell i) = h' (sv.cell i) := by
  have hroute : rv.route.order = sv.route.order := by
    cases rv
    cases sv
    subst hext hstr hlay
    rfl
  unfold values traveling Memory.gather
  rw [hroute, List.map_map, List.map_map, List.map_inj_left]
  exact forall_congr' fun i => by rw [sv.enumerates_route.mem_iff]; rfl

end View

end KokkosComm
