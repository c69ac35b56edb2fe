/-
KokkosComm.Mpi.HaloTheorems — the halo exchange of the performance tests
fills the halos, over MPI, whatever its timing.

§1 the elements of the eight views: those that are sent are inside, those
that are received into are on the four sides of the halo. §2 the neighbours:
who sends in a direction to whom. So the exchange is a `Stencil` (§3), for
every number of processes; with `rs` 1 or 2 the neighbours coincide. §4 is
every run.
-/
import KokkosComm.Mpi.Halo
import KokkosComm.Mpi.Stencil

namespace KokkosComm.Mpi.Halo

open Messaging MultiIndex

variable {α : Type} {P : Halo}

/-! ## §1 The views -/

theorem nodup_elements_v (P : Halo) : P.v.elements.Nodup := by
  refine View.nodup_cells (o := .layoutRight) ?_ _
  have hrange : (Layout.layoutRight.indices P.v.extents).map (offset P.v.strides) =
      List.range P.v.extents.prod := Layout.layoutRight.map_offset_strides _
  rw [View.Ordered, hrange]
  exact List.pairwise_lt_range

theorem valid_three {a b c i j k : Nat} : Valid [a, b, c] [i, j, k] ↔ i < a ∧ j < b ∧ k < c := by
  simp [Valid]

/-- A side of the grid at `x = i`. -/
theorem slices_x {i : Nat} (hi : i < P.nx + 2) :
    P.v.Slices [.index i, .pair 1 (P.ny + 1), .all] :=
  .cons hi (.cons ⟨by omega, by omega⟩ (.cons trivial .nil))

/-- A side of the grid at `y = j`. -/
theorem slices_y {j : Nat} (hj : j < P.ny + 2) :
    P.v.Slices [.pair 1 (P.nx + 1), .index j, .all] :=
  .cons ⟨by omega, by omega⟩ (.cons hj (.cons trivial .nil))

theorem valid_two {a b : Nat} {i : List Nat} :
    Valid [a, b] i ↔ ∃ j k, i = [j, k] ∧ j < a ∧ k < b := by
  rw [valid_cons]
  constructor
  · rintro ⟨j, is, rfl, hj, his⟩
    obtain ⟨k, is, rfl, hk, hnil⟩ := valid_cons.mp his
    obtain rfl : is = [] := by simpa [Valid] using hnil
    exact ⟨j, k, rfl, hj, hk⟩
  · rintro ⟨j, k, rfl, hj, hk⟩
    exact ⟨j, [k], rfl, hj, valid_cons.mpr ⟨k, [], rfl, hk, .nil⟩⟩

theorem extents_x (i : Nat) :
    (P.v.subview [.index i, .pair 1 (P.ny + 1), .all]).extents = [P.ny, P.nprops] := rfl

theorem extents_y (j : Nat) :
    (P.v.subview [.pair 1 (P.nx + 1), .index j, .all]).extents = [P.nx, P.nprops] := rfl

theorem cell_x {i j k : Nat} (hi : i < P.nx + 2) (hj : j < P.ny) (hk : k < P.nprops) :
    (P.v.subview [.index i, .pair 1 (P.ny + 1), .all]).cell [j, k] = P.point i (1 + j) k :=
  View.cell_subview (slices_x hi) (valid_two.mpr ⟨j, k, rfl, hj, hk⟩)

theorem cell_y {i j k : Nat} (hj : j < P.ny + 2) (hi : i < P.nx) (hk : k < P.nprops) :
    (P.v.subview [.pair 1 (P.nx + 1), .index j, .all]).cell [i, k] = P.point (1 + i) j k :=
  View.cell_subview (slices_y hj) (valid_two.mpr ⟨i, k, rfl, hi, hk⟩)

theorem mem_x {i : Nat} (hi : i < P.nx + 2) {c : Cell} :
    c ∈ (P.v.subview [.index i, .pair 1 (P.ny + 1), .all]).elements ↔
      ∃ j k, 1 ≤ j ∧ j ≤ P.ny ∧ k < P.nprops ∧ c = P.point i j k := by
  rw [View.mem_elements, View.Elem, extents_x]
  constructor
  · rintro ⟨_, hvalid, rfl⟩
    obtain ⟨j, k, rfl, hj, hk⟩ := valid_two.mp hvalid
    exact ⟨1 + j, k, by omega, by omega, hk, cell_x hi hj hk⟩
  · rintro ⟨j, k, hj, hj', hk, rfl⟩
    refine ⟨[j - 1, k], valid_two.mpr ⟨j - 1, k, rfl, by omega, hk⟩, ?_⟩
    rw [cell_x hi (by omega) hk, Nat.add_sub_of_le hj]

theorem mem_y {j : Nat} (hj : j < P.ny + 2) {c : Cell} :
    c ∈ (P.v.subview [.pair 1 (P.nx + 1), .index j, .all]).elements ↔
      ∃ i k, 1 ≤ i ∧ i ≤ P.nx ∧ k < P.nprops ∧ c = P.point i j k := by
  rw [View.mem_elements, View.Elem, extents_y]
  constructor
  · rintro ⟨_, hvalid, rfl⟩
    obtain ⟨i, k, rfl, hi, hk⟩ := valid_two.mp hvalid
    exact ⟨1 + i, k, by omega, by omega, hk, cell_y hj hi hk⟩
  · rintro ⟨i, k, hi, hi', hk, rfl⟩
    refine ⟨[i - 1, k], valid_two.mpr ⟨i - 1, k, rfl, by omega, hk⟩, ?_⟩
    rw [cell_y hj (by omega) hk, Nat.add_sub_of_le hi]

theorem point_injective {i j k i' j' k' : Nat} (hi : i < P.nx + 2) (hj : j < P.ny + 2)
    (hk : k < P.nprops) (hi' : i' < P.nx + 2) (hj' : j' < P.ny + 2) (hk' : k' < P.nprops)
    (h : P.point i j k = P.point i' j' k') : i = i' ∧ j = j' ∧ k = k' := by
  have heq := View.cell_injective_of_nodup (nodup_elements_v P)
    (valid_three.mpr ⟨hi, hj, hk⟩) (valid_three.mpr ⟨hi', hj', hk'⟩) h
  simpa using heq

/-! ## §2 The neighbours -/

theorem p1_lt {x : Nat} (hx : x < P.rs) : P.p1 x < P.rs := Nat.mod_lt _ (Nat.zero_lt_of_lt hx)

theorem m1_lt {x : Nat} (hx : x < P.rs) : P.m1 x < P.rs := Nat.mod_lt _ (Nat.zero_lt_of_lt hx)

/-- The neighbour in plus direction is the one whose neighbour in minus
direction one is. -/
theorem p1_eq_iff {x y : Nat} (hx : x < P.rs) (hy : y < P.rs) : P.p1 x = y ↔ P.m1 y = x := by
  have hp : P.p1 x = if x + 1 = P.rs then 0 else x + 1 := by
    unfold p1
    split
    · rename_i h
      rw [h, Nat.mod_self]
    · exact Nat.mod_eq_of_lt (by omega)
  have hm : P.m1 y = if y = 0 then P.rs - 1 else y - 1 := by
    unfold m1
    split
    · rename_i h
      rw [h, Nat.zero_add]
      exact Nat.mod_eq_of_lt (by omega)
    · rw [show y + P.rs - 1 = y - 1 + P.rs by omega, Nat.add_mod_right]
      exact Nat.mod_eq_of_lt (by omega)
  rw [hp, hm]
  split <;> split <;> omega

theorem mem_ranks {p : Int} : p ∈ P.ranks ↔ ∃ x y, x < P.rs ∧ y < P.rs ∧ p = P.getRank x y := by
  simp only [ranks, List.mem_map, List.mem_range]
  constructor
  · rintro ⟨r, hr, rfl⟩
    have hrs : 0 < P.rs := by
      rcases Nat.eq_zero_or_pos P.rs with h | h
      · simp [h] at hr
      · exact h
    refine ⟨r % P.rs, r / P.rs, Nat.mod_lt r hrs, Nat.div_lt_of_lt_mul hr, ?_⟩
    rw [getRank, Nat.mul_comm, Nat.div_add_mod]
    rfl
  · rintro ⟨x, y, hx, hy, rfl⟩
    refine ⟨y * P.rs + x, ?_, rfl⟩
    calc y * P.rs + x < y * P.rs + P.rs := by omega
      _ = (y + 1) * P.rs := by rw [Nat.add_mul, Nat.one_mul]
      _ ≤ P.rs * P.rs := Nat.mul_le_mul_right _ hy

theorem rx_getRank {x y : Nat} (hx : x < P.rs) : P.rx (P.getRank x y) = x := by
  rw [rx, getRank, Int.toNat_natCast, Nat.add_comm, Nat.add_mul_mod_self_right,
    Nat.mod_eq_of_lt hx]

theorem ry_getRank {x y : Nat} (hx : x < P.rs) : P.ry (P.getRank x y) = y := by
  rw [ry, getRank, Int.toNat_natCast, Nat.add_comm,
    Nat.add_mul_div_right _ _ (Nat.zero_lt_of_lt hx), Nat.div_eq_of_lt hx, Nat.zero_add]

theorem getRank_inj {x y x' y' : Nat} (hx : x < P.rs) (hx' : x' < P.rs) :
    P.getRank x y = P.getRank x' y' ↔ x = x' ∧ y = y' := by
  constructor
  · intro h
    exact ⟨by rw [← rx_getRank (y := y) hx, h, rx_getRank hx'],
      by rw [← ry_getRank (y := y) hx, h, ry_getRank hx']⟩
  · rintro ⟨rfl, rfl⟩
    rfl

/-! ## §3 A stencil -/

/-- The directions of the messages. -/
inductive Direction where
  | xp
  | xm
  | yp
  | ym

/-- What is sent in a direction, and where it arrives. -/
def sent (P : Halo) : Direction → View
  | .xp => P.xp1S
  | .xm => P.xm1S
  | .yp => P.yp1S
  | .ym => P.ym1S

def received (P : Halo) : Direction → View
  | .xp => P.xm1R
  | .xm => P.xp1R
  | .yp => P.ym1R
  | .ym => P.yp1R

def dest (P : Halo) (rank : Int) : Direction → Int
  | .xp => P.getRank (P.p1 (P.rx rank)) (P.ry rank)
  | .xm => P.getRank (P.m1 (P.rx rank)) (P.ry rank)
  | .yp => P.getRank (P.rx rank) (P.p1 (P.ry rank))
  | .ym => P.getRank (P.rx rank) (P.m1 (P.ry rank))

def source (P : Halo) (rank : Int) : Direction → Int
  | .xp => P.getRank (P.m1 (P.rx rank)) (P.ry rank)
  | .xm => P.getRank (P.p1 (P.rx rank)) (P.ry rank)
  | .yp => P.getRank (P.rx rank) (P.m1 (P.ry rank))
  | .ym => P.getRank (P.rx rank) (P.p1 (P.ry rank))

/-- What is sent is inside. -/
theorem mem_sent {d : Direction} {c : Cell} (h : c ∈ (P.sent d).elements) :
    ∃ i j k, (1 ≤ i ∧ i ≤ P.nx ∧ 1 ≤ j ∧ j ≤ P.ny) ∧ k < P.nprops ∧ c = P.point i j k := by
  have hx := P.nx_pos
  have hy := P.ny_pos
  cases d with
  | xp =>
    obtain ⟨j, k, hj, hj', hk, rfl⟩ := (mem_x (by omega)).mp h
    exact ⟨_, j, k, by omega, hk, rfl⟩
  | xm =>
    obtain ⟨j, k, hj, hj', hk, rfl⟩ := (mem_x (by omega)).mp h
    exact ⟨_, j, k, by omega, hk, rfl⟩
  | yp =>
    obtain ⟨i, k, hi, hi', hk, rfl⟩ := (mem_y (by omega)).mp h
    exact ⟨i, _, k, by omega, hk, rfl⟩
  | ym =>
    obtain ⟨i, k, hi, hi', hk, rfl⟩ := (mem_y (by omega)).mp h
    exact ⟨i, _, k, by omega, hk, rfl⟩

/-- The side of the halo at which a direction arrives. -/
def AtSide (P : Halo) (i j : Nat) : Direction → Prop
  | .xp => i = 0 ∧ 1 ≤ j ∧ j ≤ P.ny
  | .xm => i = P.nx + 1 ∧ 1 ≤ j ∧ j ≤ P.ny
  | .yp => j = 0 ∧ 1 ≤ i ∧ i ≤ P.nx
  | .ym => j = P.ny + 1 ∧ 1 ≤ i ∧ i ≤ P.nx

theorem mem_received {d : Direction} {c : Cell} (h : c ∈ (P.received d).elements) :
    ∃ i j k, P.AtSide i j d ∧ k < P.nprops ∧ c = P.point i j k := by
  cases d with
  | xp =>
    obtain ⟨j, k, hj, hj', hk, rfl⟩ := (mem_x (by omega)).mp h
    exact ⟨_, j, k, ⟨rfl, hj, hj'⟩, hk, rfl⟩
  | xm =>
    obtain ⟨j, k, hj, hj', hk, rfl⟩ := (mem_x (by omega)).mp h
    exact ⟨_, j, k, ⟨rfl, hj, hj'⟩, hk, rfl⟩
  | yp =>
    obtain ⟨i, k, hi, hi', hk, rfl⟩ := (mem_y (by omega)).mp h
    exact ⟨i, _, k, ⟨rfl, hi, hi'⟩, hk, rfl⟩
  | ym =>
    obtain ⟨i, k, hi, hi', hk, rfl⟩ := (mem_y (by omega)).mp h
    exact ⟨i, _, k, ⟨rfl, hi, hi'⟩, hk, rfl⟩

/-- Where two directions arrive is apart, and apart from the inside. -/
theorem apart_received {d e : Direction} (hde : d ≠ e) {c : Cell}
    (hc : c ∈ (P.received d).elements) : c ∉ (P.received e).elements := by
  intro hc'
  obtain ⟨i, j, k, hd, hk, rfl⟩ := mem_received hc
  obtain ⟨i', j', k', he, hk', heq⟩ := mem_received hc'
  have hlt : ∀ {i j d}, P.AtSide i j d → i < P.nx + 2 ∧ j < P.ny + 2 := by
    intro i j d h
    cases d <;> (unfold AtSide at h; omega)
  obtain ⟨hi, hj⟩ := hlt hd
  obtain ⟨hi', hj'⟩ := hlt he
  obtain ⟨rfl, rfl, -⟩ := point_injective hi hj hk hi' hj' hk' heq
  cases d <;> cases e <;> first
    | exact absurd rfl hde
    | (unfold AtSide at hd he; omega)

theorem apart_sent (d e : Direction) {c : Cell} (hc : c ∈ (P.sent d).elements) :
    c ∉ (P.received e).elements := by
  intro hc'
  obtain ⟨i, j, k, hd, hk, rfl⟩ := mem_sent hc
  obtain ⟨i', j', k', he, hk', heq⟩ := mem_received hc'
  have hlt : i' < P.nx + 2 ∧ j' < P.ny + 2 := by
    cases e <;> (unfold AtSide at he; omega)
  obtain ⟨rfl, rfl, -⟩ := point_injective (by omega) (by omega) hk hlt.1 hlt.2 hk' heq
  cases e <;> (unfold AtSide at he; omega)

theorem size_sent (d : Direction) : (P.sent d).size < 2147483648 ∧
    (P.sent d).size = (P.received d).size := by
  have hx : [P.ny, P.nprops].prod < 2147483648 := by simpa using P.xFits
  have hy : [P.nx, P.nprops].prod < 2147483648 := by simpa using P.yFits
  cases d with
  | xp => exact ⟨hx, rfl⟩
  | xm => exact ⟨hx, rfl⟩
  | yp => exact ⟨hy, rfl⟩
  | ym => exact ⟨hy, rfl⟩

theorem nodup_sent (d : Direction) : (P.sent d).elements.Nodup := by
  have hx := P.nx_pos
  have hy := P.ny_pos
  cases d with
  | xp => exact View.nodup_elements_subview (nodup_elements_v P) (slices_x (by omega))
  | xm => exact View.nodup_elements_subview (nodup_elements_v P) (slices_x (by omega))
  | yp => exact View.nodup_elements_subview (nodup_elements_v P) (slices_y (by omega))
  | ym => exact View.nodup_elements_subview (nodup_elements_v P) (slices_y (by omega))

theorem nodup_received (d : Direction) : (P.received d).elements.Nodup := by
  cases d with
  | xp => exact View.nodup_elements_subview (nodup_elements_v P) (slices_x (by omega))
  | xm => exact View.nodup_elements_subview (nodup_elements_v P) (slices_x (by omega))
  | yp => exact View.nodup_elements_subview (nodup_elements_v P) (slices_y (by omega))
  | ym => exact View.nodup_elements_subview (nodup_elements_v P) (slices_y (by omega))

/-- The exchange is one with neighbours. -/
def stencil (P : Halo) : Stencil 1 P.ranks Direction where
  dirs := [.xp, .xm, .yp, .ym]
  sv := P.sent
  rv := P.received
  dest d rank := P.dest rank d
  src d rank := P.source rank d
  sendable d := ⟨by cases d <;> exact Nat.one_pos, (size_sent d).1, fun _ => nodup_sent d⟩
  receivable d := ⟨by cases d <;> exact Nat.one_pos, (size_sent d).2 ▸ (size_sent d).1,
    nodup_received d⟩
  size d := (size_sent d).2
  apart d e c hc := apart_sent d e hc
  disjoint := by
    refine List.Pairwise.imp (fun {d e} hne c hc => apart_received hne hc) ?_
    simp [List.pairwise_cons]
  fits := by decide
  dest_mem d a ha := by
    obtain ⟨x, y, hx, hy, rfl⟩ := mem_ranks.mp ha
    simp only [dest, rx_getRank hx, ry_getRank hx]
    cases d with
    | xp => exact mem_ranks.mpr ⟨_, y, p1_lt hx, hy, rfl⟩
    | xm => exact mem_ranks.mpr ⟨_, y, m1_lt hx, hy, rfl⟩
    | yp => exact mem_ranks.mpr ⟨x, _, hx, p1_lt hy, rfl⟩
    | ym => exact mem_ranks.mpr ⟨x, _, hx, m1_lt hy, rfl⟩
  src_mem d b hb := by
    obtain ⟨x, y, hx, hy, rfl⟩ := mem_ranks.mp hb
    simp only [source, rx_getRank hx, ry_getRank hx]
    cases d with
    | xp => exact mem_ranks.mpr ⟨_, y, m1_lt hx, hy, rfl⟩
    | xm => exact mem_ranks.mpr ⟨_, y, p1_lt hx, hy, rfl⟩
    | yp => exact mem_ranks.mpr ⟨x, _, hx, m1_lt hy, rfl⟩
    | ym => exact mem_ranks.mpr ⟨x, _, hx, p1_lt hy, rfl⟩
  opposite d a b ha hb := by
    obtain ⟨x, y, hx, hy, rfl⟩ := mem_ranks.mp ha
    obtain ⟨x', y', hx', hy', rfl⟩ := mem_ranks.mp hb
    simp only [dest, source, rx_getRank hx, ry_getRank hx, rx_getRank hx', ry_getRank hx']
    cases d with
    | xp =>
      rw [getRank_inj (p1_lt hx) hx', getRank_inj (m1_lt hx') hx, p1_eq_iff hx hx',
        eq_comm (a := y)]
    | xm =>
      rw [getRank_inj (m1_lt hx) hx', getRank_inj (p1_lt hx') hx, p1_eq_iff hx' hx,
        eq_comm (a := y)]
    | yp => rw [getRank_inj hx hx', getRank_inj hx' hx, p1_eq_iff hy hy', eq_comm (a := x)]
    | ym => rw [getRank_inj hx hx', getRank_inj hx' hx, p1_eq_iff hy' hy, eq_comm (a := x)]

/-- The calls are those of the source. -/
theorem legs_stencil {rank : Int} (h : rank ∈ P.ranks) :
    P.stencil.legs rank = P.sendRecv rank := Stencil.legs_of_mem h

theorem programs_eq (works : List (Work α 1)) :
    P.programs works = Round.programs (works.map fun work => P.stencil.round work) := by
  have hprogram : ∀ (rank : Int), rank ∈ P.ranks → ∀ m, P.iterations rank m works =
      Round.program rank m (works.map fun work => P.stencil.round work) := by
    intro rank hrank
    induction works with
    | nil => exact fun _ => rfl
    | cons work works ih =>
      intro m
      have hlegs : (P.stencil.round work).legs rank = P.sendRecv rank := legs_stencil hrank
      rw [List.map_cons, Round.program, Round.instrs, hlegs, iterations, ih]
      rfl
  funext rank
  unfold programs Round.programs
  split
  · rename_i hrank
    exact hprogram rank hrank 0
  · rfl

/-! ## §4 Every run -/

/-- What a direction brings to a process. -/
theorem received_eq (work : Work α 1) (heaps : Int → Heap α) {x y : Nat} (hx : x < P.rs)
    (hy : y < P.rs) (d : Direction) {i : List Nat} (hi : Valid (P.sent d).extents i) :
    (P.stencil.round work).exchange heaps (P.getRank x y) ((P.received d).cell i) =
      heaps (P.source (P.getRank x y) d) ((P.sent d).cell i) := by
  have hvalues := Stencil.values_exchange (S := P.stencil) work heaps
    (mem_ranks.mpr ⟨x, y, hx, hy, rfl⟩) (show d ∈ P.stencil.dirs by cases d <;> simp [stencil])
  refine (View.values_eq_iff ?_ ?_ ?_).mp hvalues i hi <;> cases d <;> rfl

section Arrives

variable (work : Work α 1) (heaps : Int → Heap α) {x y i j k : Nat} {d : Direction}

theorem arrives_x {i' : Nat} (hx : x < P.rs) (hy : y < P.rs) (hi : i < P.nx + 2)
    (hi' : i' < P.nx + 2) (hj : 1 ≤ j) (hj' : j ≤ P.ny) (hk : k < P.nprops)
    (hr : P.received d = P.v.subview [.index i, .pair 1 (P.ny + 1), .all])
    (hs : P.sent d = P.v.subview [.index i', .pair 1 (P.ny + 1), .all]) :
    (P.stencil.round work).exchange heaps (P.getRank x y) (P.point i j k) =
      heaps (P.source (P.getRank x y) d) (P.point i' j k) := by
  have h := received_eq work heaps hx hy d (i := [j - 1, k]) (by
    rw [hs, extents_x]
    exact valid_two.mpr ⟨_, k, rfl, by omega, hk⟩)
  rwa [hr, hs, cell_x hi (by omega) hk, cell_x hi' (by omega) hk, Nat.add_sub_of_le hj] at h

theorem arrives_y {j' : Nat} (hx : x < P.rs) (hy : y < P.rs) (hj : j < P.ny + 2)
    (hj' : j' < P.ny + 2) (hi : 1 ≤ i) (hi' : i ≤ P.nx) (hk : k < P.nprops)
    (hr : P.received d = P.v.subview [.pair 1 (P.nx + 1), .index j, .all])
    (hs : P.sent d = P.v.subview [.pair 1 (P.nx + 1), .index j', .all]) :
    (P.stencil.round work).exchange heaps (P.getRank x y) (P.point i j k) =
      heaps (P.source (P.getRank x y) d) (P.point i j' k) := by
  have h := received_eq work heaps hx hy d (i := [i - 1, k]) (by
    rw [hs, extents_y]
    exact valid_two.mpr ⟨_, k, rfl, by omega, hk⟩)
  rwa [hr, hs, cell_y hj (by omega) hk, cell_y hj' (by omega) hk, Nat.add_sub_of_le hi] at h

end Arrives

theorem inHalo_of_atSide {i j : Nat} {d : Direction} (h : P.AtSide i j d) : P.InHalo i j := by
  cases d <;> (unfold AtSide at h; unfold InHalo; omega)

/-- A round of the stencil is an exchange. -/
theorem exchanged_round (work : Work α 1) (heaps : Int → Heap α) :
    P.Exchanged (work.run P.ranks heaps) ((P.stencil.round work).run heaps) := by
  have hpos := P.nx_pos
  have hpos' := P.ny_pos
  generalize hbefore : work.run P.ranks heaps = before
  have hrun : (P.stencil.round work).run heaps = (P.stencil.round work).exchange before := by
    rw [← hbefore]
    rfl
  rw [hrun]
  exact
    { xm1 := fun x y j k hx hy hj hj' hk => by
        have h := arrives_x work before (d := .xp) hx hy (by omega)
          (by omega) hj hj' hk rfl rfl
        rwa [source, rx_getRank hx, ry_getRank hx] at h
      xp1 := fun x y j k hx hy hj hj' hk => by
        have h := arrives_x work before (d := .xm) hx hy (by omega)
          (by omega) hj hj' hk rfl rfl
        rwa [source, rx_getRank hx, ry_getRank hx] at h
      ym1 := fun x y i k hx hy hi hi' hk => by
        have h := arrives_y work before (d := .yp) hx hy (by omega)
          (by omega) hi hi' hk rfl rfl
        rwa [source, rx_getRank hx, ry_getRank hx] at h
      yp1 := fun x y i k hx hy hi hi' hk => by
        have h := arrives_y work before (d := .ym) hx hy (by omega)
          (by omega) hi hi' hk rfl rfl
        rwa [source, rx_getRank hx, ry_getRank hx] at h
      kept := fun rank c hc => Stencil.exchange_of_not_mem fun d _ hm => by
        obtain ⟨i, j, k, hside, hk, rfl⟩ := mem_received hm
        exact hc i j k (inHalo_of_atSide hside) hk rfl
      inactive := fun rank hrank => by
        have hnone : (P.stencil.round work).legs rank = [] := Stencil.legs_of_not_mem hrank
        rw [Round.exchange, hnone]
        rfl }

theorem nodup_ranks (P : Halo) : P.ranks.Nodup :=
  List.nodup_range.map Int.ofNat_injective

/-- The heaps after the first `i` iterations. -/
def after (P : Halo) (works : List (Work α 1)) (heaps : Int → Heap α) (i : Nat) : Int → Heap α :=
  Round.runAll ((works.take i).map fun work => P.stencil.round work) heaps

theorem exchanged_after {works : List (Work α 1)} {i : Nat} {work : Work α 1}
    (hwork : works[i]? = some work) (heaps : Int → Heap α) :
    P.Exchanged (work.run P.ranks (P.after works heaps i)) (P.after works heaps (i + 1)) := by
  have hsucc : P.after works heaps (i + 1) =
      (P.stencil.round work).run (P.after works heaps i) := by
    rw [after, List.take_add_one, hwork, Option.toList_some, List.map_append, Round.runAll,
      List.foldl_append]
    rfl
  rw [hsucc]
  exact exchanged_round work _

/-- **The halo exchange fills the halos.** For every grid, every square number
of processes, however often it is repeated and whatever is computed in
between: every run over MPI, with standard or synchronous sends, with or
without buffers, can be finished, and then each exchange has had the effect
that it is for. -/
theorem halo_exchanged (T : Transport) (P : Halo) (works : List (Work α 1))
    (heaps : Int → Heap α) {acts : List Act} {w : Peers α}
    (hacts : Lts.exec (Peers.step T) (.start (P.programs works) heaps 1) acts = some w) :
    (∃ acts' w', Lts.exec (Peers.step T) w acts' = some w' ∧ w'.Finished) ∧
      (w.Finished → ∃ hs : Nat → Int → Heap α, hs 0 = heaps ∧
        (∀ i work, works[i]? = some work →
          P.Exchanged (work.run P.ranks (hs i)) (hs (i + 1))) ∧
        ∀ rank (c : Cell), c.1 < 1 → (w rank).proc.heap c = hs works.length rank c) := by
  rw [programs_eq] at hacts
  have hmeans : Says false _ heaps _ := Round.saysAll (nodup_ranks P)
    (works.map fun work => P.stencil.round work) heaps
  obtain ⟨hcan, hfinished⟩ := hmeans.carried (Round.keepsOff_programs _) Bool.noConfusion hacts
  refine ⟨hcan, fun hw => ⟨P.after works heaps, rfl, fun i work hwork =>
    exchanged_after hwork heaps, fun rank c hc => ?_⟩⟩
  rw [after, List.take_length]
  exact hfinished hw rank c hc

/-- Four processes, with one element each. -/
def four : Halo where
  rs := 2
  nx := 1
  ny := 1
  nprops := 1
  layout := .layoutLeft
  nx_pos := by decide
  ny_pos := by decide
  xFits := by decide
  yFits := by decide

theorem halo_exchanged_four : ∃ acts w,
    Lts.exec (Peers.step synchronous)
      (.start (four.programs [Work.idle]) (fun p c => 100 * p.toNat + c.2) 1) acts = some w ∧
      w.Finished ∧ (w 2).proc.heap (four.point 0 1 0) = 304 := by
  have hstart : Lts.exec (Peers.step synchronous)
    (.start (four.programs [Work.idle]) (fun p c => 100 * p.toNat + c.2) 1) [] = some _ := rfl
  obtain ⟨⟨acts, w, hacts, hw⟩, -⟩ := halo_exchanged synchronous four [Work.idle] _ hstart
  obtain ⟨-, hresult⟩ := halo_exchanged synchronous four [Work.idle] _ hacts
  obtain ⟨hs, h0, hstep, hheap⟩ := hresult hw
  refine ⟨acts, w, hacts, hw, ?_⟩
  rw [hheap 2 _ (by decide)]
  exact ((hstep 0 Work.idle rfl).xm1 0 1 1 0 (by decide) (by decide) (by decide) (by decide)
    (by decide)).trans (by rw [h0]; decide)

end KokkosComm.Mpi.Halo
