/-
KokkosComm.Mpi.TransferTheorems — when a transfer preserves logical indices.

A contiguous view travels in its own memory order. Any other view is packed
into a view with the default layout of the execution space, and travels in
THAT order (`wireOrder`). Sender and receiver choose on their own, so the
two orders are the same for every pair of views only if the memory order
of the views is the default layout, or the order of elements is no choice:
an empty box, or one with at most one extent larger than 1.

§1 the message of a send, §2 what a receive makes of a message, element by
element, §3 the exact condition (`transfer_preserves_iff`).
-/
import KokkosComm.Mpi.RoutinesTheorems
import KokkosComm.Mpi.Transfer

namespace KokkosComm.Mpi

open MultiIndex

variable {α : Type}

/-- The number of elements a send or receive of `v` passes to MPI. -/
def wireCount (v : View) : Int := CInt.ofSize v.size

/-- The order in which the elements of a view of memory order `o` travel. -/
def wireOrder (o : Layout) (v : View) : Layout := if v.isContiguous then o else v.arrayLayout

/-- The elements of a view, in the order in which they travel. -/
def wireIndices (o : Layout) (v : View) : List (List Nat) := (wireOrder o v).indices v.extents

theorem wireIndices_contiguous {o : Layout} {v : View} (h : v.isContiguous = true) :
    wireIndices o v = o.indices v.extents := by
  rw [wireIndices, wireOrder, if_pos h]

theorem wireIndices_packed {o : Layout} {v : View} (h : v.isContiguous = false) :
    wireIndices o v = v.arrayLayout.indices v.extents := by
  rw [wireIndices, wireOrder, if_neg (by simp [h])]

@[simp] theorem length_wireIndices (o : Layout) (v : View) :
    (wireIndices o v).length = v.size := Layout.length_indices _ _

theorem mem_wireIndices {o : Layout} {v : View} {i : List Nat} :
    i ∈ wireIndices o v ↔ Valid v.extents i := Layout.mem_indices _

theorem toNat_wireCount_le (v : View) : (wireCount v).toNat ≤ v.size := CInt.toNat_ofSize_le _

theorem spanCount_of_contiguous {v : View} (h : v.isContiguous = true) :
    spanCount v = wireCount v := by
  rw [spanCount, wireCount, View.isContiguous_iff.mp h]

/-! ## §1 The message of a send -/

section Send

variable (mode : CommunicationMode) {sv : View} (dest : Int) (comm : MpiComm)

theorem sendEnvelope_mpiIsendFn (tag : Int) :
    (mpiIsendFn mode dest tag).sendEnvelope = some (dest, tag) := by
  cases mode <;> rfl

/-- A send with a negative count is rejected. -/
theorem send_aborts (h : wireCount sv < 0) (host : Host) :
    send mode sv dest comm host = .aborts := by
  have hinvalid : ∀ (c : MpiCall) (h₁ : Host), c.sendcount < 0 →
      Routine.start c h₁ = .aborts := fun c h₁ hc => by
    rw [Routine.start, if_neg]
    simp only [MpiCall.validCounts, Bool.and_eq_true, decide_eq_true_eq, not_and_or]
    exact .inl (Int.not_le.mpr hc)
  unfold send
  cases hc : sv.isContiguous with
  | true =>
    rw [isendImpl_contiguous hc, hinvalid _ _ (by rwa [spanCount_of_contiguous hc])]
    rfl
  | false =>
    rw [isendImpl_packed hc, hinvalid _ _ h]
    rfl

variable (α) in
/-- Any other send makes one call, whose message are the elements in the
order in which they travel, as many as the count says. -/
theorem send_returns (o : Layout) (ho : sv.Ordered o) (alloc : AllocId)
    (h : 0 ≤ wireCount sv) : ∃ req host call,
      send mode sv dest comm (Host.start 0 alloc) = .returns (req, host) ∧
      mpiCalls host.trace = [(0, call)] ∧
      call.fn.sendEnvelope = some (dest, pointToPointTag) ∧ call.comm = comm ∧
      ∀ hs : Heap α, call.message (runTrace host.trace hs) =
        ((wireIndices o sv).map fun i => hs (sv.cell i)).take (wireCount sv).toNat := by
  unfold send
  cases hc : sv.isContiguous with
  | true =>
    rw [isendImpl_contiguous hc, spanCount_of_contiguous hc, Routine.start, if_pos (by
      simp [MpiCall.validCounts, h])]
    refine ⟨_, _, _, rfl, rfl, sendEnvelope_mpiIsendFn .., rfl, fun hs => ?_⟩
    simp only [MpiCall.message, Option.toList_some, List.flatMap_cons, List.flatMap_nil,
      List.append_nil, wireIndices_contiguous hc]
    exact Heap.gather_buffer (View.map_offset_of_contiguous ho hc) (toNat_wireCount_le sv) hs
  | false =>
    rw [isendImpl_packed hc, Routine.start, if_pos (by
      simp [MpiCall.validCounts, show 0 ≤ CInt.ofSize sv.size from h])]
    refine ⟨_, _, _, rfl, rfl, sendEnvelope_mpiIsendFn .., rfl, fun hs => ?_⟩
    have hcopy : ∀ i ∈ wireIndices o sv,
        hs.deepCopy (sv.contiguousView alloc) sv ((sv.contiguousView alloc).cell i)
          = hs (sv.cell i) := fun i hi =>
      Heap.deepCopy_cell hs (View.nodup_cells (View.ordered_contiguousView alloc sv) _)
        (show Valid sv.extents i from mem_wireIndices.mp hi)
    simp only [MpiCall.message, Option.toList_some, List.flatMap_cons, List.flatMap_nil,
      List.append_nil]
    rw [wireIndices_packed hc] at hcopy ⊢
    refine (Heap.gather_buffer (v := sv.contiguousView alloc)
      (View.map_offset_contiguousView alloc sv) (toNat_wireCount_le sv) _).trans ?_
    exact congrArg _ (List.map_congr_left hcopy)

end Send

/-! ## §2 What a receive makes of a message -/

section Recv

variable {rv : View} (src : Int) (comm : MpiComm)

/-- The heap `h'` after a receive into `rv` got `message`, and its request
completed: the elements of `rv`, in the order in which they travel, are
those of the message, and past its end whatever was somewhere in the heap
`h` before. Other cells, of allocations older than `alloc`, are as before. -/
structure Received (o : Layout) (rv : View) (alloc : AllocId) (h : Heap α) (message : List α)
    (h' : Heap α) : Prop where
  element : ∀ (k : Nat) i (x : α), (wireIndices o rv)[k]? = some i → message[k]? = some x →
    h' (rv.cell i) = x
  rest : ∀ (k : Nat) i, (wireIndices o rv)[k]? = some i → message.length ≤ k →
    ∃ c, h' (rv.cell i) = h c
  frame : ∀ c : Cell, ¬ rv.Elem c → c.1 < alloc → h' c = h c

/-- A dense view receives a message. -/
theorem received_scatter {v : View} {o' : Layout}
    (h : (o'.indices v.extents).map (offset v.strides) = List.range v.size) {n : Nat}
    (hn : n ≤ v.size) {message : List α} (hlen : message.length ≤ n) (heap : Heap α) :
    (∀ (k : Nat) i (x : α), (o'.indices v.extents)[k]? = some i → message[k]? = some x →
      Memory.scatter heap (v.buffer n) message (v.cell i) = x) ∧
    (∀ (k : Nat) i, (o'.indices v.extents)[k]? = some i → message.length ≤ k →
      Memory.scatter heap (v.buffer n) message (v.cell i) = heap (v.cell i)) ∧
    ∀ c, ¬ v.Elem c → Memory.scatter heap (v.buffer n) message c = heap c := by
  refine ⟨fun k i x hi hx => ?_, fun k i hi hk => ?_, fun c hc => ?_⟩
  · rw [Heap.scatter_buffer_cell h hlen heap hi, hx]
    rfl
  · rw [Heap.scatter_buffer_cell h hlen heap hi, List.getElem?_eq_none hk]
    rfl
  · exact Heap.scatter_buffer_of_not_elem (o'.enumerates_indices _) h hn heap message hc

variable (α) in
/-- A receive with any other count makes one call, which takes every
message that is not longer. -/
theorem recv_returns (o : Layout) (ho : rv.Ordered o) (alloc : AllocId)
    (h : 0 ≤ wireCount rv) : ∃ req host call,
      recv rv src comm (Host.start 0 alloc) = .returns (req, host) ∧
      mpiCalls host.trace = [(0, call)] ∧
      call.fn.recvEnvelope = some (src, pointToPointTag) ∧ call.comm = comm ∧
      ∀ (hr : Heap α) (message : List α), message.length ≤ (wireCount rv).toNat →
        ∃ h', call.receive message (runTrace host.trace hr) = .returns h' ∧
          Received o rv alloc hr message (req.complete h') := by
  unfold recv
  cases hc : rv.isContiguous with
  | true =>
    rw [recvExecute_contiguous hc, spanCount_of_contiguous hc, Routine.start, if_pos (by
      simp [MpiCall.validCounts, h])]
    refine ⟨_, _, _, rfl, rfl, rfl, rfl, fun hr message hlen => ⟨_, if_pos hlen, ?_⟩⟩
    have hcomplete : ∀ h' : Heap α, (((Request.new (some 0)).extendViewLifetime rv).complete h')
        = h' := by simp
    obtain ⟨helement, hrest, hframe⟩ := received_scatter
      (View.map_offset_of_contiguous ho hc) (toNat_wireCount_le rv) hlen hr
    rw [← wireIndices_contiguous hc] at helement hrest
    refine { element := fun k i x hi hx => ?_, rest := fun k i hi hk => ⟨rv.cell i, ?_⟩,
             frame := fun c hc _ => ?_ }
    · exact (congrFun (hcomplete _) _).trans (helement k i x hi hx)
    · exact (congrFun (hcomplete _) _).trans (hrest k i hi hk)
    · exact (congrFun (hcomplete _) _).trans (hframe c hc)
  | false =>
    rw [recvExecute_packed hc, Routine.start, if_pos (by
      simp [MpiCall.validCounts, show 0 ≤ CInt.ofSize rv.size from h])]
    refine ⟨_, _, _, rfl, rfl, rfl, rfl, fun hr message hlen => ⟨_, if_pos hlen, ?_⟩⟩
    obtain ⟨helement, hrest, hframe⟩ := received_scatter (v := rv.contiguousView alloc)
      (View.map_offset_contiguousView alloc rv) (toNat_wireCount_le rv) hlen hr
    -- the callback copies the packed view by index
    have hcopy : ∀ i ∈ wireIndices o rv, ∀ h' : Heap α,
        h'.deepCopy rv (rv.contiguousView alloc) (rv.cell i)
          = h' ((rv.contiguousView alloc).cell i) := fun i hi h' =>
      Heap.deepCopy_cell h' (View.nodup_cells ho _) (mem_wireIndices.mp hi)
    have hindices : wireIndices o rv = (rv.contiguousView alloc).arrayLayout.indices
        (rv.contiguousView alloc).extents := wireIndices_packed hc
    refine { element := fun k i x hi hx => ?_, rest := fun k i hi hk =>
               ⟨(rv.contiguousView alloc).cell i, ?_⟩,
             frame := fun c hc hold => ?_ }
    · refine (hcopy i (List.mem_of_getElem? hi) _).trans ?_
      rw [hindices] at hi
      exact helement k i x hi hx
    · refine (hcopy i (List.mem_of_getElem? hi) _).trans ?_
      rw [hindices] at hi
      exact hrest k i hi hk
    · refine (Heap.deepCopy_of_not_elem _ hc).trans (hframe c ?_)
      rintro ⟨i, -, rfl⟩
      exact Nat.lt_irrefl _ hold

end Recv

/-! ## §3 The transfer -/

/-- Every element of the receive view is the element of the send view with
the same multi-index, and no other cell of an allocation of the receiver is
modified. -/
def PreservesIndices (sv rv : View) (allocB : AllocId) (hs hr h' : Heap α) : Prop :=
  (∀ i, Valid rv.extents i → h' (rv.cell i) = hs (sv.cell i)) ∧
    ∀ c : Cell, ¬ rv.Elem c → c.1 < allocB → h' c = hr c

section Transfer

variable (mode : CommunicationMode) (a b : Int) (comm : MpiComm) {sv rv : View}
  (allocA allocB : AllocId) {o : Layout}

theorem transfer_aborts (h : wireCount sv < 0) (hs hr : Heap α) :
    transfer mode a b comm sv rv allocA allocB hs hr = .aborts := by
  rw [transfer, send_aborts mode b comm h]
  rfl

theorem wireCount_congr (hext : rv.extents = sv.extents) : wireCount rv = wireCount sv := by
  rw [wireCount, wireCount, View.size, View.size, hext]

theorem transfer_returns (hsv : sv.Ordered o) (hrv : rv.Ordered o)
    (hext : rv.extents = sv.extents) (h : 0 ≤ wireCount sv) (hs hr : Heap α) :
    ∃ h', transfer mode a b comm sv rv allocA allocB hs hr = .returns h' ∧
      Received o rv allocB hr
        (((wireIndices o sv).map fun i => hs (sv.cell i)).take (wireCount sv).toNat) h' := by
  obtain ⟨_, hostA, callA, hsend, hcallsA, hfnA, hcommA, hmessage⟩ :=
    send_returns α mode b comm o hsv allocA h
  obtain ⟨req, hostB, callB, hrecv, hcallsB, hfnB, hcommB, hreceive⟩ :=
    recv_returns α a comm o hrv allocB (by rwa [wireCount_congr hext])
  obtain ⟨h', hh', hreceived⟩ := hreceive hr (callA.message (runTrace hostA.trace hs)) (by
    rw [hmessage, wireCount_congr hext]
    exact List.length_take_le _ _)
  rw [hmessage] at hreceived
  refine ⟨_, ?_, hreceived⟩
  have hmatch : MpiCall.matching a b callA callB = true := by
    simp [MpiCall.matching, hfnA, hfnB, hcommA, hcommB]
  simp only [transfer, hsend, hrecv, Outcome.returns_bind, hcallsA, hcallsB, hmatch, if_true, hh']

/-- All elements travel, in orders that agree. -/
theorem preserves_of_wireIndices {hs hr h' : Heap α}
    (h : Received o rv allocB hr
      (((wireIndices o sv).map fun i => hs (sv.cell i)).take (wireCount sv).toNat) h')
    (hcount : wireCount sv = sv.size) (horder : wireIndices o rv = wireIndices o sv) :
    PreservesIndices sv rv allocB hs hr h' := by
  refine ⟨fun i hi => ?_, h.frame⟩
  obtain ⟨k, hk⟩ := List.mem_iff_getElem?.mp (mem_wireIndices.mpr hi)
  refine h.element k i _ hk ?_
  rw [List.take_of_length_le (by simp [hcount]), List.getElem?_map, ← horder, hk]
  rfl

variable (α) in
/-- A count that wraps leaves an element out. -/
theorem not_preserves_of_count [Nontrivial α] (hsv : sv.Ordered o) (hrv : rv.Ordered o)
    (hext : rv.extents = sv.extents) (h : 0 ≤ wireCount sv) (hcount : wireCount sv ≠ sv.size) :
    ∃ hs hr h' : Heap α, transfer mode a b comm sv rv allocA allocB hs hr = .returns h' ∧
      ¬ PreservesIndices sv rv allocB hs hr h' := by
  obtain ⟨x, y, hxy⟩ := exists_pair_ne α
  obtain ⟨h', hh', hreceived⟩ := transfer_returns mode a b comm allocA allocB
    hsv hrv hext h (fun _ => x) (fun _ => y)
  refine ⟨_, _, h', hh', fun hpres => hxy ?_⟩
  have hle := CInt.ofSize_le sv.size
  have hlt : (wireCount sv).toNat < (wireIndices o rv).length := by
    rw [length_wireIndices, View.size, hext, ← View.size]
    have : wireCount sv ≤ sv.size := hle
    omega
  obtain ⟨c, hc⟩ := hreceived.rest _ _ (List.getElem?_eq_getElem hlt) (List.length_take_le _ _)
  rw [hpres.1 _ (mem_wireIndices.mp (List.getElem_mem hlt))] at hc
  exact hc

variable (α) in
/-- Orders that differ swap two elements. -/
theorem not_preserves_of_wireIndices [Nontrivial α] (hsv : sv.Ordered o) (hrv : rv.Ordered o)
    (hext : rv.extents = sv.extents) (hcount : wireCount sv = sv.size)
    (horder : wireIndices o rv ≠ wireIndices o sv) :
    ∃ hs hr h' : Heap α, transfer mode a b comm sv rv allocA allocB hs hr = .returns h' ∧
      ¬ PreservesIndices sv rv allocB hs hr h' := by
  obtain ⟨x, y, hxy⟩ := exists_pair_ne α
  have hlen : (wireIndices o rv).length = (wireIndices o sv).length := by
    rw [length_wireIndices, length_wireIndices, View.size, View.size, hext]
  obtain ⟨k, hk, hk', hne⟩ : ∃ k, ∃ (hk : k < (wireIndices o rv).length)
      (hk' : k < (wireIndices o sv).length), (wireIndices o rv)[k] ≠ (wireIndices o sv)[k] := by
    by_contra hall
    refine horder (List.ext_getElem hlen fun k hk hk' => ?_)
    by_contra hne
    exact hall ⟨k, hk, hk', hne⟩
  -- the heap of the sender tells the two elements apart
  obtain ⟨h', hh', hreceived⟩ := transfer_returns mode a b comm allocA allocB
    hsv hrv hext (by omega)
    (fun c => if c = sv.cell (wireIndices o rv)[k] then x else y) (fun _ => y)
  refine ⟨_, _, h', hh', fun hpres => hxy ?_⟩
  have hvalid : Valid rv.extents (wireIndices o rv)[k] := mem_wireIndices.mp (List.getElem_mem hk)
  have hget := hreceived.element k (wireIndices o rv)[k] y (List.getElem?_eq_getElem hk) (by
    rw [List.take_of_length_le (by simp [hcount]), List.getElem?_map,
      List.getElem?_eq_getElem hk', Option.map_some, if_neg]
    exact fun heq => hne (View.cell_injective hsv (mem_wireIndices.mp (List.getElem_mem hk'))
      (hext ▸ hvalid) heq).symm)
  rw [hpres.1 _ hvalid] at hget
  simpa using hget

/-- The orders agree if both views take the same path, or the paths make
no difference. -/
theorem wireIndices_eq_iff (hext : rv.extents = sv.extents)
    (hlayout : rv.arrayLayout = sv.arrayLayout) :
    wireIndices o rv = wireIndices o sv ↔ sv.isContiguous = rv.isContiguous ∨
      o = sv.arrayLayout ∨ 0 ∈ sv.extents ∨ sv.extents.countP (1 < ·) ≤ 1 := by
  rw [wireIndices, wireIndices, hext, Layout.indices_eq_iff]
  unfold wireOrder
  cases sv.isContiguous <;> cases rv.isContiguous <;> simp [hlayout, eq_comm]

end Transfer

/-- **Transfers preserve logical indices** exactly when the count is
rejected, or is exact and the elements travel in one order: both views
contiguous, or both not, or in the default layout of the execution space,
or with at most one extent larger than 1. -/
theorem transfer_preserves_iff [Nontrivial α] (mode : CommunicationMode) (a b : Int)
    (comm : MpiComm) {sv rv : View} {o : Layout} (hsv : sv.Ordered o) (hrv : rv.Ordered o)
    (hext : rv.extents = sv.extents) (hlayout : rv.arrayLayout = sv.arrayLayout)
    (allocA allocB : AllocId) :
    (∀ hs hr h' : Heap α, transfer mode a b comm sv rv allocA allocB hs hr = .returns h' →
      PreservesIndices sv rv allocB hs hr h') ↔
    CInt.ofSize sv.size < 0 ∨ (CInt.ofSize sv.size = sv.size ∧
      (sv.isContiguous = rv.isContiguous ∨ o = sv.arrayLayout ∨ 0 ∈ sv.extents ∨
        sv.extents.countP (1 < ·) ≤ 1)) := by
  rw [← wireIndices_eq_iff hext hlayout]
  constructor
  · intro hall
    by_contra hnot
    simp only [not_or, not_and, Int.not_lt] at hnot
    obtain ⟨hpos, hnot⟩ := hnot
    by_cases hcount : CInt.ofSize sv.size = sv.size
    · obtain ⟨hs, hr, h', hh', hbad⟩ :=
        not_preserves_of_wireIndices α mode a b comm allocA allocB hsv hrv hext hcount
          (hnot hcount)
      exact hbad (hall hs hr h' hh')
    · obtain ⟨hs, hr, h', hh', hbad⟩ := not_preserves_of_count α mode a b comm allocA allocB
        hsv hrv hext hpos hcount
      exact hbad (hall hs hr h' hh')
  · rintro (hneg | ⟨hcount, horder⟩) hs hr h' hh'
    · rw [transfer_aborts _ _ _ _ _ _ hneg] at hh'
      cases hh'
    · obtain ⟨h'', hh'', hreceived⟩ := transfer_returns mode a b comm allocA allocB
        hsv hrv hext (by rw [wireCount, hcount]; exact Int.natCast_nonneg _) hs hr
      cases hh''.symm.trans hh'
      exact preserves_of_wireIndices allocB hreceived hcount horder

/-- Two rows of three, contiguous. -/
def denseRows : View :=
  { alloc := 0, base := 0, extents := [2, 3], strides := [3, 1], arrayLayout := .layoutRight,
    managed := true, rank_eq := rfl }

/-- Every second element of two rows. -/
def sparseRows : View :=
  { denseRows with strides := [6, 2] }

/-- Two columns of two, contiguous, on a space whose default is rows. -/
def denseColumns : View :=
  { denseRows with extents := [2, 2], strides := [1, 2] }

/-- Two columns out of many. -/
def sparseColumns : View :=
  { denseColumns with strides := [2, 8] }

/-- Rows sent in place arrive in every second element of other rows. -/
theorem transfer_preserves_rows :
    (denseRows.Ordered .layoutRight ∧ sparseRows.Ordered .layoutRight) ∧
    ∀ hs hr h' : Heap Nat,
      transfer .standard 0 1 0 denseRows sparseRows 1 1 hs hr = .returns h' →
      PreservesIndices denseRows sparseRows 1 hs hr h' :=
  have hsv : denseRows.Ordered .layoutRight := by decide
  have hrv : sparseRows.Ordered .layoutRight := by decide
  ⟨⟨hsv, hrv⟩,
    (transfer_preserves_iff .standard 0 1 0 hsv hrv rfl rfl 1 1).mpr (by decide +kernel)⟩

/-- Columns sent in place are received packed by rows, and element (0, 1)
gets the value of (1, 0). -/
theorem transfer_transposes :
    ¬ ∀ (mode : CommunicationMode) (a b : Int) (comm : MpiComm) (sv rv : View) (o : Layout)
      (allocA allocB : AllocId), sv.Ordered o → rv.Ordered o → rv.extents = sv.extents →
      rv.arrayLayout = sv.arrayLayout → ∀ hs hr h' : Heap Nat,
      transfer mode a b comm sv rv allocA allocB hs hr = .returns h' →
      PreservesIndices sv rv allocB hs hr h' := by
  intro hall
  have hget : ((transfer .standard 0 1 0 denseColumns sparseColumns 1 1 (fun c => c.2)
      (fun _ => 9)).toOption.map fun h' => h' (sparseColumns.cell [0, 1])) = some 1 := by
    decide +kernel
  obtain ⟨h', hh', hvalue⟩ := Option.map_eq_some_iff.mp hget
  have hpres := hall _ _ _ _ denseColumns sparseColumns .layoutLeft _ _ (by decide) (by decide) rfl
    rfl _ _ h' (Outcome.toOption_eq_some.mp hh')
  have hsame := hpres.1 [0, 1] (mem_rowMajor.mp (by decide))
  rw [hvalue] at hsame
  cases hsame

end KokkosComm.Mpi
