/-
KokkosComm.Mpi.ChannelTheorems — which cells a cycle of a channel touches.

A persistent request is a base address and a count: the span of the view,
which for a strided view is more than it has elements. So MPI reads and
writes the cells between the elements, too, and puts the k-th CELL of the
send view into the k-th cell of the receive view. Nothing of this happens
to contiguous views (`cycle_exact_iff`); the low-level `mpi::irecv` and
`mpi::isend` reject all others, `sendinit` and `recvinit` accept them.
-/
import KokkosComm.Mpi.Channel

namespace KokkosComm.Mpi

open MultiIndex

variable {α : Type}

/-- The cycle read elements of `sv` only, and changed the elements of `rv`
and no other cell, to the elements of `sv` with the same multi-index. -/
def TransfersExactly (sv rv : View) (hs hr : Heap α) (out : List Cell × Heap α) : Prop :=
  (∀ c ∈ out.1, sv.Elem c) ∧ (∀ i, Valid rv.extents i → out.2 (rv.cell i) = hs (sv.cell i)) ∧
    ∀ c, ¬ rv.Elem c → out.2 c = hr c

/-! ## §1 A cycle in closed form -/

section Cycle

variable (a b tag : Int) (comm : MpiComm) {sv rv : View} {o : Layout}

/-- A channel with its only request. -/
theorem init_new (fn : PersistentFn) (failure : String) (v : View) :
    (Channel.new b a tag comm).init fn failure v 1 [] =
      if spanCount v < 0 then .aborts
      else .returns
        ({ Channel.new b a tag comm with requests_ := [some 0], statuses_ := 1 },
          [{ fn := fn, buffer := v, count := spanCount v, elemSize := 1, comm := comm }]) := by
  unfold Channel.init mpiInit
  by_cases h : spanCount v < 0
  · rw [if_pos h, if_pos h]
    rfl
  · rw [if_neg h, if_neg h]
    rfl

theorem cells_eq_buffer (fn : PersistentFn) (v : View) (count : Int) (comm : MpiComm) :
    PersistentCall.cells { fn := fn, buffer := v, count := count, elemSize := 1, comm := comm }
      = v.buffer count.toNat := by
  simp [PersistentCall.cells, View.buffer]

theorem start_one {c : Channel} (h : c.requests_ = [some 0]) :
    c.start = .returns [some 0] := by
  have hone : CInt.ofSize 1 = 1 := CInt.ofSize_of_lt (by decide)
  simp only [Channel.start, mpiStartall, h, List.length_singleton, hone]
  rfl

theorem wait_one {c : Channel} (h : c.requests_ = [some 0]) (hs : c.statuses_ = 1) :
    c.wait = .returns [some 0] := by
  have hone : CInt.ofSize 1 = 1 := CInt.ofSize_of_lt (by decide)
  simp only [Channel.wait, mpiWaitallPersistent, h, hs, List.length_singleton, hone]
  rfl

/-- The message is what the buffer of the send view holds; the receive view
has to span as much. -/
theorem cycle_eq (sv rv : View) (hs hr : Heap α) : cycle a b tag comm sv rv hs hr =
    if spanCount sv < 0 ∨ spanCount rv < 0 ∨ spanCount rv < spanCount sv then .aborts
    else .returns (sv.buffer (spanCount sv).toNat,
      Memory.scatter hr (rv.buffer (spanCount rv).toNat)
        (Memory.gather hs (sv.buffer (spanCount sv).toNat))) := by
  unfold cycle Channel.sendinit Channel.recvinit
  rw [init_new, init_new]
  by_cases hsv : spanCount sv < 0
  · rw [if_pos hsv, if_pos (Or.inl hsv)]
    rfl
  by_cases hrv : spanCount rv < 0
  · rw [if_neg hsv, if_pos hrv, if_pos (Or.inr (Or.inl hrv))]
    rfl
  rw [if_neg hsv, if_neg hrv]
  simp only [Outcome.returns_bind, start_one, wait_one, PersistentTable.calls, List.filterMap_cons,
    List.filterMap_nil, Option.bind_some, List.getElem?_cons_zero]
  simp only [PersistentCall.matching, Channel.new, beq_self_eq_true, Bool.and_self, if_true,
    PersistentCall.receive, cells_eq_buffer, Memory.length_gather, View.length_buffer]
  by_cases hle : spanCount rv < spanCount sv
  · have hlong : ¬ (spanCount sv).toNat ≤ (spanCount rv).toNat := by omega
    rw [if_neg hlong, if_pos (Or.inr (Or.inr hle))]
    rfl
  · have hfits : (spanCount sv).toNat ≤ (spanCount rv).toNat := by omega
    rw [if_pos hfits, if_neg (by omega)]
    rfl

/-! ## §2 Contiguous views -/

/-- The cells of a contiguous view are its buffer. -/
theorem transfersExactly_of_contiguous (hsv : sv.Ordered o) (hrv : rv.Ordered o)
    (hext : rv.extents = sv.extents) (hsc : sv.isContiguous = true)
    (hrc : rv.isContiguous = true) (hs hr : Heap α) :
    TransfersExactly sv rv hs hr (sv.buffer sv.size,
      Memory.scatter hr (rv.buffer rv.size) (Memory.gather hs (sv.buffer sv.size))) := by
  rw [← View.map_cell_eq_buffer (View.map_offset_of_contiguous hsv hsc),
    ← View.map_cell_eq_buffer (View.map_offset_of_contiguous hrv hrc)]
  refine ⟨fun c hc => View.mem_cells.mp hc, fun i hi => ?_, fun c hc => ?_⟩
  · simp only [Memory.gather, List.map_map, ← hext]
    exact Heap.scatter_cells (View.nodup_cells hrv o) hr _ hi
  · exact Memory.scatter_of_not_mem fun hmem =>
      hc (View.mem_cells.mp (List.mem_of_mem_take hmem))

/-! ## §3 Other views -/

/-- A count that reads elements only, and writes each element and nothing
else, is the size of two contiguous views. -/
theorem contiguous_of_transfersExactly [Nontrivial α] (hrv : rv.Ordered o)
    (hext : rv.extents = sv.extents) {n m : Nat} (hnm : n ≤ m)
    (h : ∀ hs hr : Heap α, TransfersExactly sv rv hs hr (sv.buffer n,
      Memory.scatter hr (rv.buffer m) (Memory.gather hs (sv.buffer n)))) :
    (sv.isContiguous = true ∧ rv.isContiguous = true) ∧ sv.size = n := by
  obtain ⟨x, y, hxy⟩ := exists_pair_ne α
  obtain ⟨hread, hwrite, hframe⟩ := h (fun _ => x) (fun _ => y)
  have hsize : rv.size = sv.size := by rw [View.size, View.size, hext]
  -- the first `n` cells hold `x` now, all others still `y`
  have htake : (rv.buffer m).take n = rv.buffer n := by
    rw [View.buffer, ← List.map_take, List.take_range, Nat.min_eq_left hnm, View.buffer]
  have hmessage : Memory.gather (fun _ => x) (sv.buffer n) = List.replicate n x := by
    rw [Memory.gather, List.map_const', View.length_buffer]
  have hcover : ∀ k < n, ∃ i, Valid rv.extents i ∧ offset rv.strides i = k := fun k hk => by
    have hmem : (rv.alloc, rv.base + k) ∈ rv.buffer n :=
      View.mem_buffer.mpr ⟨rfl, by simp, by simpa⟩
    have helem : rv.Elem (rv.alloc, rv.base + k) := by
      by_contra hnot
      have hkept := hframe _ hnot
      simp only [hmessage] at hkept
      exact hxy ((Memory.scatter_replicate x (by rwa [htake])).symm.trans hkept)
    obtain ⟨i, hi, heq⟩ := helem
    exact ⟨i, hi, Nat.add_left_cancel (Prod.mk.inj heq).2⟩
  have hinside : ∀ i, Valid rv.extents i → rv.cell i ∈ rv.buffer n := fun i hi => by
    by_contra hnot
    have hwritten := hwrite i hi
    simp only [hmessage] at hwritten
    have hkept : Memory.scatter (fun _ => y) (rv.buffer m) (List.replicate n x) (rv.cell i) = y :=
      Memory.scatter_of_not_mem (by rwa [List.length_replicate, htake])
    exact hxy (hwritten.symm.trans hkept)
  have hle : rv.size ≤ n := by
    rw [← View.length_cells rv o, ← View.length_buffer rv n]
    refine ((View.nodup_cells hrv o).subperm fun c hc => ?_).length_le
    obtain ⟨i, hi, rfl⟩ := View.mem_cells.mp hc
    exact hinside i hi
  obtain ⟨hrc, hrn⟩ := View.contiguous_of_cover (o := o) hle hcover
  have hread : ∀ k < n, ∃ i, Valid sv.extents i ∧ offset sv.strides i = k := fun k hk => by
    have hmem : (sv.alloc, sv.base + k) ∈ sv.buffer n :=
      View.mem_buffer.mpr ⟨rfl, by simp, by simpa⟩
    obtain ⟨i, hi, heq⟩ := hread _ hmem
    exact ⟨i, hi, Nat.add_left_cancel (Prod.mk.inj heq).2⟩
  obtain ⟨hsc, hsn⟩ := View.contiguous_of_cover (o := o) (by omega) hread
  exact ⟨⟨hsc, hrc⟩, hsn⟩

end Cycle

/-! ## §4 Exact transfers -/

/-- **A channel transfers exactly the elements** if and only if both views
are contiguous and the count is exact, or no cycle completes: a count is
negative, or the message is longer than the receive view spans. -/
theorem cycle_exact_iff [Nontrivial α] (a b tag : Int) (comm : MpiComm) {sv rv : View}
    {o : Layout} (hsv : sv.Ordered o) (hrv : rv.Ordered o) (hext : rv.extents = sv.extents) :
    (∀ (hs hr : Heap α) out, cycle a b tag comm sv rv hs hr = .returns out →
      TransfersExactly sv rv hs hr out) ↔
    CInt.ofSize sv.span < 0 ∨ CInt.ofSize rv.span < 0 ∨
      CInt.ofSize rv.span < CInt.ofSize sv.span ∨
      (sv.isContiguous = true ∧ rv.isContiguous = true ∧ sv.size < 2147483648) := by
  constructor
  · intro hall
    by_contra hnot
    simp only [not_or, Int.not_lt] at hnot
    obtain ⟨hs0, hr0, hle, hnot⟩ := hnot
    obtain ⟨⟨hsc, hrc⟩, hsize⟩ := contiguous_of_transfersExactly hrv hext
      (n := (spanCount sv).toNat) (m := (spanCount rv).toNat) (Int.toNat_le_toNat hle)
      fun hs hr : Heap α => hall hs hr _ (by
        rw [cycle_eq, if_neg (by simp only [spanCount]; omega)])
    have hmax := CInt.ofSize_le_intMax sv.span
    simp only [spanCount, CInt.intMax] at hsize hmax
    exact hnot ⟨hsc, hrc, by omega⟩
  · intro hwhen hs hr out hout
    rw [cycle_eq] at hout
    simp only [spanCount] at hout
    obtain ⟨hnot, hout⟩ := Outcome.ite_aborts_eq_returns.mp hout
    obtain ⟨hsc, hrc, hlt⟩ : sv.isContiguous = true ∧ rv.isContiguous = true ∧
        sv.size < 2147483648 := by tauto
    have hsize : rv.size = sv.size := by rw [View.size, View.size, hext]
    rw [View.isContiguous_iff.mp hsc, View.isContiguous_iff.mp hrc, hsize, CInt.ofSize_of_lt hlt,
      Int.toNat_natCast] at hout
    cases hout
    have := transfersExactly_of_contiguous hsv hrv hext hsc hrc hs hr
    rwa [hsize] at this

/-- A column of two in a row-major array with two columns. -/
def columnOfTwo : View := .line 0 0 2 2

/-- Two neighbours. -/
def pairOfTwo : View := .line 0 0 2 1

theorem cycle_exact_pair : pairOfTwo.Ordered .layoutRight ∧ ∀ (hs hr : Heap Nat) out,
    cycle 0 1 5 0 pairOfTwo pairOfTwo hs hr = .returns out →
    TransfersExactly pairOfTwo pairOfTwo hs hr out :=
  have ho : pairOfTwo.Ordered .layoutRight := by decide
  ⟨ho, (cycle_exact_iff 0 1 5 0 ho ho rfl).mpr (by decide +kernel)⟩

/-- Between the two elements of a column lies one of the other column: it
is overwritten. -/
theorem cycle_overwrites_column :
    ¬ ∀ (a b tag : Int) (comm : MpiComm) (sv rv : View) (o : Layout), sv.Ordered o →
      rv.Ordered o → rv.extents = sv.extents → ∀ (hs hr : Heap Nat) out,
      cycle a b tag comm sv rv hs hr = .returns out → TransfersExactly sv rv hs hr out := by
  intro hall
  have hget : ((cycle 0 1 5 0 columnOfTwo columnOfTwo (fun _ => 7) (fun _ => 9)).toOption.map
      fun out => out.2 (0, 1)) = some 7 := by
    decide +kernel
  obtain ⟨out, hout, hvalue⟩ := Option.map_eq_some_iff.mp hget
  obtain ⟨-, -, hframe⟩ := hall _ _ _ _ columnOfTwo columnOfTwo .layoutRight (by decide) (by decide)
    rfl _ _ out (Outcome.toOption_eq_some.mp hout)
  have hsame := hframe (0, 1) fun helem => by
    have := View.mem_cells (o := .layoutRight) |>.mpr helem
    revert this
    decide
  rw [hvalue] at hsame
  cases hsame

end KokkosComm.Mpi
