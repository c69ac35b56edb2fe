/-
KokkosComm.Mpi.AlltoallTheorems — which counts `mpi::alltoall` lets
through.

The caller gives a count for each view, as a `size_t`. The routine ends
the process if count times communicator size, again a `size_t`, is greater
than the FIRST extent of the view, and passes the count to MPI as an `int`.
MPI exchanges a block of that many elements with each process.

§1 both variants are a check of each of their views, followed by the call.
§2 the check is compared with the number of elements of the view.
-/
import KokkosComm.Mpi.Blocking

namespace KokkosComm.Mpi

/-! ## §1 The checks and the call -/

/-- A view that is passed to `alltoall`, with its count. -/
structure CountedView where
  view : View
  count : UInt64

namespace CountedView

/-- The check that the routine makes. -/
def passes (b : CountedView) (size : Nat) : Bool :=
  decide (mulSize b.count.toNat size ≤ b.view.extent 0)

/-- The blocks of all processes together have no more elements than the
view. -/
def Fits (b : CountedView) (size : Nat) : Prop := b.count.toNat * size ≤ b.view.size

theorem checkCount_eq (b : CountedView) (which : String) (size : Nat) :
    Blocking.checkCount which b.count size b.view =
      if b.passes size then .returns () else .aborts := by
  unfold Blocking.checkCount failIf passes
  by_cases h : mulSize b.count.toNat size ≤ b.view.extent 0
  · simp [h]
  · simp [h]

end CountedView

/-- A call of `mpi::alltoall`, with two buffers or in place. -/
inductive AlltoallCall where
  | separate (send recv : CountedView)
  | inPlace (recv : CountedView)

namespace AlltoallCall

def views : AlltoallCall → List CountedView
  | separate send recv => [send, recv]
  | inPlace recv => [recv]

def routine (size : Nat) (comm : MpiComm) : AlltoallCall → BlockingRoutine
  | separate send recv => Blocking.alltoall send.view send.count recv.view recv.count size comm
  | inPlace recv => Blocking.alltoallInPlace recv.view recv.count size comm

/-- The call of MPI. -/
def mpiCall (comm : MpiComm) : AlltoallCall → BlockingCall
  | separate send recv =>
    { fn := .mpiAlltoall, sendbuf := some send.view, sendcount := CInt.ofSize send.count.toNat,
      recvbuf := some recv.view, recvcount := CInt.ofSize recv.count.toNat, comm := comm }
  | inPlace recv =>
    { fn := .mpiAlltoall, sendbuf := none, sendcount := 0, recvbuf := some recv.view,
      recvcount := CInt.ofSize recv.count.toNat, comm := comm }

end AlltoallCall

/-- The routine, begun in `h`, gets as far as `call`. -/
def BlockingRoutine.Reaches (routine : BlockingRoutine) (h : Host) (call : BlockingCall) : Prop :=
  ∃ after h', routine h = .returns ((call, after), h')

/-- The views of a call with their counts, those of `MPI_IN_PLACE` apart. -/
def BlockingCall.buffers (call : BlockingCall) : List (View × Int) :=
  call.sendbuf.toList.map (·, call.sendcount) ++ call.recvbuf.toList.map (·, call.recvcount)

namespace AlltoallCall

variable {a : AlltoallCall} {size : Nat} {comm : MpiComm} {h : Host} {call : BlockingCall}

theorem buffers_mpiCall (a : AlltoallCall) (comm : MpiComm) :
    (a.mpiCall comm).buffers = a.views.map fun b => (b.view, CInt.ofSize b.count.toNat) := by
  cases a with
  | separate send recv => rfl
  | inPlace recv => rfl

/-- A call with contiguous views makes its checks and then calls MPI. -/
theorem routine_eq (hcontiguous : ∀ b ∈ a.views, b.view.isContiguous = true) :
    a.routine size comm h =
      if ∀ b ∈ a.views, b.passes size = true then
        .returns ((a.mpiCall comm, [.popRegion]),
          (h.log (.pushRegion "KokkosComm::mpi::alltoall")).log
            (.space (.fence "KokkosComm::mpi::alltoall")))
      else .aborts := by
  cases a with
  | separate send recv =>
    have hs : send.view.isContiguous = true := hcontiguous send (by simp [views])
    have hr : recv.view.isContiguous = true := hcontiguous recv (by simp [views])
    cases hsend : send.passes size with
    | false =>
      simp [routine, Blocking.alltoall, views, CountedView.checkCount_eq, hs, hr, hsend]
    | true =>
      cases hrecv : recv.passes size with
      | false =>
        simp [routine, Blocking.alltoall, views, CountedView.checkCount_eq, hs, hr, hsend, hrecv]
      | true =>
        simp [routine, Blocking.alltoall, views, CountedView.checkCount_eq, hs, hr, hsend, hrecv,
          mpiCall]
  | inPlace recv =>
    have hr : recv.view.isContiguous = true := hcontiguous recv (by simp [views])
    cases hrecv : recv.passes size with
    | false => simp [routine, Blocking.alltoallInPlace, views, CountedView.checkCount_eq, hr, hrecv]
    | true =>
      simp [routine, Blocking.alltoallInPlace, views, CountedView.checkCount_eq, hr, hrecv,
        mpiCall]

/-- Contiguous views that pass their checks are passed on. -/
theorem reaches_iff (hcontiguous : ∀ b ∈ a.views, b.view.isContiguous = true) :
    (a.routine size comm).Reaches h call ↔
      (∀ b ∈ a.views, b.passes size = true) ∧ call = a.mpiCall comm := by
  unfold BlockingRoutine.Reaches
  rw [routine_eq hcontiguous]
  by_cases hpass : ∀ b ∈ a.views, b.passes size = true
  · rw [if_pos hpass]
    constructor
    · rintro ⟨_, _, heq⟩
      cases heq
      exact ⟨hpass, rfl⟩
    · rintro ⟨-, rfl⟩
      exact ⟨_, _, rfl⟩
  · simp [hpass]

end AlltoallCall

/-! ## §2 The check and the number of elements -/

/-- Counts are validated exactly: MPI is called if and only if the blocks of
all processes fit into the views, and with the counts of the caller; so all
blocks lie inside the views. -/
structure ValidatesCounts (a : AlltoallCall) (size : Nat) (comm : MpiComm) : Prop where
  reached : ∀ h, (∃ call, (a.routine size comm).Reaches h call) ↔ ∀ b ∈ a.views, b.Fits size
  counts : ∀ h call, (a.routine size comm).Reaches h call →
    call.buffers = a.views.map fun b => (b.view, (b.count.toNat : Int))
  inside : ∀ h call, (a.routine size comm).Reaches h call → ∀ b ∈ call.buffers, ∀ r < size,
    ∀ c ∈ b.1.block b.2.toNat r, c ∈ b.1.buffer b.1.span

section Validation

variable {a : AlltoallCall} {size : Nat} (comm : MpiComm)

/-- A product that does not wrap passes if it is at most the first extent. -/
theorem CountedView.passes_iff {b : CountedView} (hsize : b.view.size < 18446744073709551616)
    (hfits : b.Fits size) : b.passes size = true ↔ b.count.toNat * size ≤ b.view.extent 0 := by
  have hwrap : mulSize b.count.toNat size = b.count.toNat * size :=
    Nat.mod_eq_of_lt (Nat.lt_of_le_of_lt hfits hsize)
  rw [CountedView.passes, hwrap, decide_eq_true_iff]

/-- Blocks that fit are rejected, or their counts narrowed. -/
theorem not_validates_of_fits (hcontiguous : ∀ b ∈ a.views, b.view.isContiguous = true)
    (hsize : ∀ b ∈ a.views, b.view.size < 18446744073709551616)
    (hfits : ∀ b ∈ a.views, b.Fits size) {b : CountedView} (hb : b ∈ a.views)
    (h : b.view.extent 0 < b.count.toNat * size ∨ 2147483648 ≤ b.count.toNat) :
    ¬ ValidatesCounts a size comm := by
  intro hvalid
  obtain ⟨call, hreached⟩ := (hvalid.reached (Host.start 0 0)).mpr hfits
  obtain ⟨hpass, rfl⟩ := (AlltoallCall.reaches_iff hcontiguous).mp hreached
  rcases h with hextent | hcount
  · have := (CountedView.passes_iff (hsize b hb) (hfits b hb)).mp (hpass b hb)
    omega
  · have hbuffers := hvalid.counts _ _ hreached
    rw [AlltoallCall.buffers_mpiCall, List.map_inj_left] at hbuffers
    have hself := (CInt.ofSize_eq_self_iff _).mp (Prod.mk.inj (hbuffers b hb)).2
    omega

/-- Counts of contiguous views are validated exactly in two cases: blocks
that fit must fit into the first extents, with counts below 2^31; if some
do not, a product must be greater than a first extent even modulo 2^64. -/
theorem alltoall_validates_iff (hcontiguous : ∀ b ∈ a.views, b.view.isContiguous = true)
    (hsize : ∀ b ∈ a.views, b.view.size < 18446744073709551616) :
    ValidatesCounts a size comm ↔
      ((∀ b ∈ a.views, b.Fits size) → ∀ b ∈ a.views,
        b.count.toNat * size ≤ b.view.extent 0 ∧ b.count.toNat < 2147483648) ∧
      ((∃ b ∈ a.views, ¬ b.Fits size) → ∃ b ∈ a.views,
        b.view.extent 0 < mulSize b.count.toNat size) := by
  constructor
  · intro hvalid
    refine ⟨fun hfits b hb => ?_, fun hnot => ?_⟩
    · by_contra hwrong
      refine not_validates_of_fits comm hcontiguous hsize hfits hb ?_ hvalid
      omega
    · by_contra hpass
      push Not at hpass
      obtain ⟨b, hb, hb'⟩ := hnot
      refine hb' ((hvalid.reached (Host.start 0 0)).mp ⟨a.mpiCall comm, ?_⟩ b hb)
      rw [AlltoallCall.reaches_iff hcontiguous]
      exact ⟨fun b hb => decide_eq_true (hpass b hb), rfl⟩
  · rintro ⟨hfit, hreject⟩
    have hreached : ∀ h call, (a.routine size comm).Reaches h call →
        call = a.mpiCall comm ∧ ∀ b ∈ a.views, b.Fits size := by
      intro h call hcall
      obtain ⟨hpass, rfl⟩ := (AlltoallCall.reaches_iff hcontiguous).mp hcall
      refine ⟨rfl, ?_⟩
      by_contra hnot
      push Not at hnot
      obtain ⟨b, hb, hlt⟩ := hreject hnot
      exact Nat.not_lt.mpr (of_decide_eq_true (hpass b hb)) hlt
    have hcounts : ∀ h call, (a.routine size comm).Reaches h call →
        call.buffers = a.views.map fun b => (b.view, (b.count.toNat : Int)) := by
      intro h call hcall
      obtain ⟨rfl, hfits⟩ := hreached h call hcall
      rw [AlltoallCall.buffers_mpiCall, List.map_inj_left]
      intro b hb
      rw [CInt.ofSize_of_lt (hfit hfits b hb).2]
    refine ⟨fun h => ⟨?_, fun hfits => ⟨a.mpiCall comm, ?_⟩⟩, hcounts, ?_⟩
    · rintro ⟨call, hcall⟩
      exact (hreached h call hcall).2
    · rw [AlltoallCall.reaches_iff hcontiguous]
      exact ⟨fun b hb => (CountedView.passes_iff (hsize b hb) (hfits b hb)).mpr
        (hfit hfits b hb).1, rfl⟩
    · intro h call hcall p hp r hr c hc
      obtain ⟨-, hfits⟩ := hreached h call hcall
      rw [hcounts h call hcall] at hp
      obtain ⟨b, hb, rfl⟩ := List.mem_map.mp hp
      have hspan := View.isContiguous_iff.mp (hcontiguous b hb)
      refine View.block_subset_buffer (n := size) ?_ hr hc
      rw [hspan, Int.toNat_natCast, Nat.mul_comm]
      exact hfits b hb

end Validation

/-- Three processes, two elements for each of them, views of six. -/
theorem alltoall_validates_line :
    ValidatesCounts (.separate ⟨.line 0 0 6 1, 2⟩ ⟨.line 1 0 6 1, 2⟩) 3 0 := by
  refine (alltoall_validates_iff 0 (fun b hb => ?_) (fun b hb => ?_)).mpr ⟨fun _ b hb => ?_, ?_⟩
  · rcases (by simpa [AlltoallCall.views] using hb :
      b = ⟨.line 0 0 6 1, 2⟩ ∨ b = ⟨.line 1 0 6 1, 2⟩) with rfl | rfl
    · decide
    · decide
  · rcases (by simpa [AlltoallCall.views] using hb :
      b = ⟨.line 0 0 6 1, 2⟩ ∨ b = ⟨.line 1 0 6 1, 2⟩) with rfl | rfl
    · decide
    · decide
  · rcases (by simpa [AlltoallCall.views] using hb :
      b = ⟨.line 0 0 6 1, 2⟩ ∨ b = ⟨.line 1 0 6 1, 2⟩) with rfl | rfl
    · decide
    · decide
  · simp [AlltoallCall.views, CountedView.Fits, View.size, View.line]

/-- A contiguous view of three rows of four elements. -/
def threeRows : View where
  alloc := 0
  base := 0
  extents := [3, 4]
  strides := [4, 1]
  arrayLayout := .layoutRight
  managed := true
  rank_eq := rfl

/-- One process exchanges the twelve elements of three rows of four with
itself: the first extent is three, and the call is rejected. -/
theorem alltoall_rejects_rows :
    ¬ ∀ (a : AlltoallCall) (size : Nat) (comm : MpiComm),
      (∀ b ∈ a.views, b.view.isContiguous = true) →
      (∀ b ∈ a.views, b.view.size < 18446744073709551616) → ValidatesCounts a size comm := by
  intro hall
  have hviews : ∀ {p : CountedView → Prop}, p ⟨threeRows, 12⟩ →
      ∀ b ∈ (AlltoallCall.inPlace ⟨threeRows, 12⟩).views, p b := by
    intro p hp b hb
    rwa [List.mem_singleton.mp hb]
  have hcontiguous := hviews (p := fun b => b.view.isContiguous = true) (by decide)
  have hsize := hviews (p := fun b => b.view.size < 18446744073709551616) (by decide)
  have hfits := hviews (p := fun b => b.Fits 1) (by unfold CountedView.Fits; decide)
  exact not_validates_of_fits 0 hcontiguous hsize hfits (List.mem_singleton.mpr rfl)
    (.inl (by decide)) (hall _ 1 0 hcontiguous hsize)

end KokkosComm.Mpi
