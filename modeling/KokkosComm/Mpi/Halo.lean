/-
KokkosComm.Mpi.Halo — the halo exchange of
`perf_tests/mpi/test_2d_halo.cpp`, on `rs × rs` processes with periodic
neighbours.

§1 is the program, as it is there: the eight subviews, the neighbours, four
sends, four receives, `wait_all`. `wait_all` gets the requests in the order
of the calls. Between two exchanges the processes may compute; in the
benchmark they do not. §2 is what an exchange is for (`Exchanged`), point by
point.
-/
import KokkosComm.Mpi.Supersteps
import KokkosComm.Subview

namespace KokkosComm.Mpi

open Messaging

variable {α : Type}

/-- The parameters of the benchmark. `layout` is that of the execution space,
which packs the views that are not contiguous. The counts of the messages
are `int`s. -/
structure Halo where
  rs : Nat
  nx : Nat
  ny : Nat
  nprops : Nat
  layout : Layout
  nx_pos : 0 < nx
  ny_pos : 0 < ny
  xFits : ny * nprops < 2147483648
  yFits : nx * nprops < 2147483648

namespace Halo

variable (P : Halo)

/-! ## §1 The program -/

/-- `grid_type grid("", nx + 2, ny + 2, nprops)`, which has `LayoutRight`. -/
def v : View where
  alloc := 0
  base := 0
  extents := [P.nx + 2, P.ny + 2, P.nprops]
  strides := Layout.layoutRight.strides [P.nx + 2, P.ny + 2, P.nprops]
  arrayLayout := P.layout
  managed := true
  rank_eq := by simp

/-! The views that are sent, and those that are received into. -/

def xp1S : View := P.v.subview [.index (P.nx + 2 - 2), .pair 1 (P.ny + 1), .all]
def xp1R : View := P.v.subview [.index (P.nx + 2 - 1), .pair 1 (P.ny + 1), .all]
def xm1S : View := P.v.subview [.index 1, .pair 1 (P.ny + 1), .all]
def xm1R : View := P.v.subview [.index 0, .pair 1 (P.ny + 1), .all]
def yp1S : View := P.v.subview [.pair 1 (P.nx + 1), .index (P.ny + 2 - 2), .all]
def yp1R : View := P.v.subview [.pair 1 (P.nx + 1), .index (P.ny + 2 - 1), .all]
def ym1S : View := P.v.subview [.pair 1 (P.nx + 1), .index 1, .all]
def ym1R : View := P.v.subview [.pair 1 (P.nx + 1), .index 0, .all]

/-- The ranks that take part. -/
def ranks : List Int := (List.range (P.rs * P.rs)).map Int.ofNat

def rx (rank : Int) : Nat := rank.toNat % P.rs

def ry (rank : Int) : Nat := rank.toNat / P.rs

/-- The neighbours in minus and plus direction. -/
def m1 (x : Nat) : Nat := (x + P.rs - 1) % P.rs

def p1 (x : Nat) : Nat := (x + 1) % P.rs

def getRank (x y : Nat) : Int := ((y * P.rs + x : Nat) : Int)

/-- The calls of `send_recv`, up to `wait_all`. -/
def sendRecv (rank : Int) : List Leg :=
  let rx := P.rx rank
  let ry := P.ry rank
  [ .send P.xp1S (P.getRank (P.p1 rx) ry),
    .send P.xm1S (P.getRank (P.m1 rx) ry),
    .send P.yp1S (P.getRank rx (P.p1 ry)),
    .send P.ym1S (P.getRank rx (P.m1 ry)),
    .recv P.xm1R (P.getRank (P.m1 rx) ry),
    .recv P.xp1R (P.getRank (P.p1 rx) ry),
    .recv P.ym1R (P.getRank rx (P.m1 ry)),
    .recv P.yp1R (P.getRank rx (P.p1 ry)) ]

/-- The iterations of a process, after `m` calls. -/
def iterations (rank : Int) : Nat → List (Work α 1) → List (Instr α)
  | _, [] => []
  | m, work :: works =>
    .kernel (work rank).toKernel ::
      ((P.sendRecv rank).map Leg.instr ++ [.waitAll (List.range' m 8)]) ++
      iterations rank (m + 8) works

def programs (works : List (Work α 1)) (rank : Int) : List (Instr α) :=
  if rank ∈ P.ranks then P.iterations rank 0 works else []

/-! ## §2 What it is for -/

/-- The `k`-th property of the grid element `(i, j)`. -/
def point (i j k : Nat) : Cell := P.v.cell [i, j, k]

/-- The halo, without its corners. -/
def InHalo (i j : Nat) : Prop :=
  ((i = 0 ∨ i = P.nx + 1) ∧ 1 ≤ j ∧ j ≤ P.ny) ∨ ((j = 0 ∨ j = P.ny + 1) ∧ 1 ≤ i ∧ i ≤ P.nx)

/-- The halo of each process has become the boundary of the grids next to it,
and nothing else has changed. -/
structure Exchanged (before after : Int → Heap α) : Prop where
  xm1 : ∀ x y j k, x < P.rs → y < P.rs → 1 ≤ j → j ≤ P.ny → k < P.nprops →
    after (P.getRank x y) (P.point 0 j k) =
      before (P.getRank (P.m1 x) y) (P.point P.nx j k)
  xp1 : ∀ x y j k, x < P.rs → y < P.rs → 1 ≤ j → j ≤ P.ny → k < P.nprops →
    after (P.getRank x y) (P.point (P.nx + 1) j k) =
      before (P.getRank (P.p1 x) y) (P.point 1 j k)
  ym1 : ∀ x y i k, x < P.rs → y < P.rs → 1 ≤ i → i ≤ P.nx → k < P.nprops →
    after (P.getRank x y) (P.point i 0 k) =
      before (P.getRank x (P.m1 y)) (P.point i P.ny k)
  yp1 : ∀ x y i k, x < P.rs → y < P.rs → 1 ≤ i → i ≤ P.nx → k < P.nprops →
    after (P.getRank x y) (P.point i (P.ny + 1) k) =
      before (P.getRank x (P.p1 y)) (P.point i 1 k)
  kept : ∀ rank c, (∀ i j k, P.InHalo i j → k < P.nprops → c ≠ P.point i j k) →
    after rank c = before rank c
  inactive : ∀ rank, rank ∉ P.ranks → after rank = before rank

end Halo

end KokkosComm.Mpi
