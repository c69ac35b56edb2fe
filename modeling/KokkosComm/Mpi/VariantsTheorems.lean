/-
KokkosComm.Mpi.VariantsTheorems — when the blocking and the non-blocking
variant of a collective agree.

§1 both variants pass the same counts for the same views to MPI, and differ
in their checks only (`Passes`). So they agree if the blocking one accepts,
and the blocks that are counted fit into the receive view (`agree_iff`).
§2 `allreduce` accepts views of the same size; `alltoall` compares the
count, times the number of processes modulo 2^64, with the first extents.
The non-blocking variants accept all contiguous views.
-/
import KokkosComm.Mpi.AlltoallTheorems
import KokkosComm.Mpi.FencingTheorems
import KokkosComm.Mpi.ReduceTheorems
import KokkosComm.Mpi.Variants

namespace KokkosComm.Mpi

open BlockExchange Reduction Routine

variable {α : Type}

/-! ## §1 Variants that differ in their checks -/

namespace CollectiveCall

/-- Both variants pass `count` for both views and do nothing to the memory
themselves. The blocking one does so if it `accepts`, and the other one in
any case. -/
structure Passes (x : CollectiveCall) (accepts : Prop) (count : Int) : Prop where
  contiguous : x.member.rv.isContiguous = true
  rejected : ¬ accepts → x.blocking x.start = .aborts
  accepted : accepts → ∃ call after host, x.blocking x.start = .returns ((call, after), host) ∧
    call.sendbuf = some x.member.sv ∧ call.sendcount = count ∧
    call.recvbuf = some x.member.rv ∧ call.recvcount = count ∧
    ∀ (α : Type) (h : Heap α), runTrace host.trace h = h ∧ runTrace after h = h
  closes : x.nonblocking.afterMpi = popRegion
  pending : ∃ call wrap host, x.nonblocking.upToMpi x.start = .returns ((call, wrap), host) ∧
    call.sendbuf = some x.member.sv ∧ call.sendcount = count ∧
    call.recvbuf = some x.member.rv ∧ call.recvcount = count ∧
    mpiCalls host.trace = [] ∧
    ∀ (α : Type) (h : Heap α), runTrace host.trace h = h ∧ ∀ r, (wrap r).complete h = h

/-- What a process brings to the collective that passes `count`. -/
def passing (x : CollectiveCall) (count : Int) (memory : Heap α) : Party Cell α where
  memory := memory
  sendbuf := x.member.sv.buffer (x.blocks * count).toNat
  recvbuf := x.member.rv.buffer (x.blocks * count).toNat
  complete := id

namespace Passes

variable {x : CollectiveCall} {accepts : Prop} {count : Int}

theorem rejects_blocking (h : x.Passes accepts count) : x.Rejects .blocking ↔ ¬ accepts := by
  constructor
  · intro hrejects ha
    obtain ⟨call, after, host, hrun, _⟩ := h.accepted ha
    cases hrejects.symm.trans hrun
  · exact h.rejected

theorem not_rejects_nonblocking (h : x.Passes accepts count) : ¬ x.Rejects .nonblocking := by
  intro hrejects
  obtain ⟨call, wrap, host, hrun, _⟩ := h.pending
  cases hrejects.symm.trans hrun

theorem party_blocking (h : x.Passes accepts count) (ha : accepts) (memory : Heap α) :
    x.party .blocking memory =
      if count < 0 then .aborts else .returns (x.passing count memory) := by
  obtain ⟨call, after, host, hrun, hsend, hsendcount, hrecv, hrecvcount, hsilent⟩ := h.accepted ha
  have hafter : runTrace after = (id : Heap α → Heap α) := funext fun m => (hsilent α m).2
  rw [party, hrun]
  simp only [Outcome.returns_bind, hsend, hsendcount, hrecv, hrecvcount, or_self,
    (hsilent α memory).1, hafter]
  rfl

/-- The non-blocking variant brings the same, whether the blocking one
accepts or not. -/
theorem party_nonblocking (h : x.Passes accepts count) (memory : Heap α) :
    x.party .nonblocking memory =
      if count < 0 then .aborts else .returns (x.passing count memory) := by
  obtain ⟨call, wrap, host, hup, hsend, hsendcount, hrecv, hrecvcount, hcalls, hsilent⟩ :=
    h.pending
  have hrun : x.nonblocking.run x.start =
      (Routine.start call host >>= fun p => .returns (wrap p.1, p.2.log .popRegion)) := by
    rw [AsyncCall.run_eq_parts, h.closes, Routine.bind_apply, hup]
    rfl
  rw [party, hrun]
  by_cases hneg : count < 0
  · have hinvalid : call.validCounts = false := by
      simp [MpiCall.validCounts, hsendcount, hneg]
    rw [Routine.start, if_neg (by simp [hinvalid]), if_pos hneg]
    rfl
  · have hvalid : call.validCounts = true := by
      simp [MpiCall.validCounts, hsendcount, hrecvcount, Int.not_lt.mp hneg]
    have hcomplete : (wrap (some host.nextOp)).complete = (id : Heap α → Heap α) :=
      funext fun m => (hsilent α m).2 _
    rw [Routine.start, if_pos hvalid, if_neg hneg]
    simp only [Outcome.returns_bind, Host.log, mpiCalls_launched hcalls, runTrace_launched,
      (hsilent α memory).1, hsend, hsendcount, hrecv, hrecvcount, hcomplete]
    rfl

theorem writes_nonblocking (h : x.Passes accepts count) {c : Cell} :
    x.Writes .nonblocking c ↔
      0 ≤ count ∧ c ∈ x.member.rv.buffer (x.blocks * count).toNat := by
  unfold Writes
  rw [h.party_nonblocking]
  by_cases hneg : count < 0
  · simp [hneg, Int.not_le.mpr hneg]
  · simp [hneg, Int.not_lt.mp hneg, passing]

theorem writes_blocking (h : x.Passes accepts count) {c : Cell} (hw : x.Writes .blocking c) :
    x.Writes .nonblocking c := by
  obtain ⟨p, hp, hc⟩ := hw
  by_cases ha : accepts
  · rw [h.party_blocking ha, ← h.party_nonblocking] at hp
    exact ⟨p, hp, hc⟩
  · rw [party, h.rejected ha] at hp
    cases hp

/-- MPI stores into the view only, if the blocks fit into it. -/
theorem inside_iff (h : x.Passes accepts count) :
    (∀ kind c, x.Writes kind c → c ∈ x.member.rv.buffer x.member.rv.span) ↔
      (x.blocks * count).toNat ≤ x.member.rv.size := by
  rw [View.isContiguous_iff.mp h.contiguous]
  constructor
  · intro hinside
    by_cases hneg : count < 0
    · have hle : (x.blocks : Int) * count ≤ 0 :=
        Int.mul_nonpos_of_nonneg_of_nonpos (Int.natCast_nonneg _) hneg.le
      omega
    · refine View.buffer_subset_iff.mp fun c hc => hinside .nonblocking c ?_
      exact h.writes_nonblocking.mpr ⟨Int.not_lt.mp hneg, hc⟩
  · intro hle kind c hw
    have hw : x.Writes .nonblocking c := by
      cases kind with
      | blocking => exact h.writes_blocking hw
      | nonblocking => exact hw
    exact View.buffer_subset_iff.mpr hle c (h.writes_nonblocking.mp hw).2

end Passes

end CollectiveCall

section Agreement

variable {β : Type} {members : List β} {f : β → CollectiveCall} {accepts : β → Prop}
  {count : β → Int}

/-- When all processes accept, the variants end in the same memories. -/
theorem runVariant_eq (hpasses : ∀ b ∈ members, (f b).Passes (accepts b) (count b))
    (haccepts : ∀ b ∈ members, accepts b)
    {collective collective' : List (Party Cell α) → Outcome (List (Heap α))}
    (hcollective : ∀ parties, collective parties = collective' parties)
    (memory : Nat → Heap α) :
    runVariant .blocking collective (members.map f) memory =
      runVariant .nonblocking collective' (members.map f) memory := by
  have hparties : ((members.map f).mapIdx fun r x => x.party .blocking (memory r)) =
      (members.map f).mapIdx fun r x => x.party .nonblocking (memory r) := by
    refine List.ext_getElem? fun r => ?_
    rw [List.getElem?_mapIdx, List.getElem?_mapIdx, List.getElem?_map]
    cases hb : members[r]? with
    | none => rfl
    | some b =>
      have hmem := List.mem_of_getElem? hb
      have hp := hpasses b hmem
      refine congrArg some ?_
      exact (hp.party_blocking (haccepts b hmem) (memory r)).trans
        (hp.party_nonblocking (memory r)).symm
  rw [runVariant, runVariant, hparties, funext hcollective]

/-- The variants agree exactly when the blocking one accepts and the blocks
fit into the receive view, on every process. -/
theorem agree_iff (hpasses : ∀ b ∈ members, (f b).Passes (accepts b) (count b))
    {SameContents : Prop} (hsame : (∀ b ∈ members, accepts b) → SameContents) :
    VariantsAgree (members.map f) SameContents ↔ ∀ b ∈ members,
      accepts b ∧ ((f b).blocks * count b).toNat ≤ (f b).member.rv.size := by
  constructor
  · intro hagree b hb
    have hmem : f b ∈ members.map f := List.mem_map_of_mem hb
    have hp := hpasses b hb
    refine ⟨?_, hp.inside_iff.mp (hagree.inside _ hmem)⟩
    by_contra hnot
    exact hp.not_rejects_nonblocking
      ((hagree.rejects _ hmem).mp (hp.rejects_blocking.mpr hnot))
  · intro hall
    have haccepts : ∀ b ∈ members, accepts b := fun b hb => (hall b hb).1
    refine ⟨fun x hx => ?_, fun _ => hsame haccepts, fun x hx => ?_⟩
    · obtain ⟨b, hb, rfl⟩ := List.mem_map.mp hx
      have hp := hpasses b hb
      rw [hp.rejects_blocking]
      exact iff_of_false (not_not_intro (haccepts b hb)) hp.not_rejects_nonblocking
    · obtain ⟨b, hb, rfl⟩ := List.mem_map.mp hx
      exact (hpasses b hb).inside_iff.mpr (hall b hb).2

end Agreement

/-! ## §2 The collectives -/

theorem contiguousUpToMpi_eq {sv rv : View} (hs : sv.isContiguous = true)
    (hr : rv.isContiguous = true) (region failure : String) (call : MpiCall) (h : Host) :
    contiguousUpToMpi region failure sv rv call h =
      .returns ((call,
        fun request => ((Request.new request).extendViewLifetime sv).extendViewLifetime rv),
        (h.log (.pushRegion region)).log
          (.space (.fence "fence before non-blocking all-gather"))) := by
  simp [contiguousUpToMpi, hs, hr]

theorem allreduce_rejects {sv rv : View} (hsize : sv.size ≠ rv.size) (op : MpiOp)
    (comm : MpiComm) (h : Host) : Blocking.allreduce sv rv op comm h = .aborts := by
  have hfail : (sv.size != rv.size) = true := bne_iff_ne.mpr hsize
  cases hs : sv.isContiguous <;> cases hr : rv.isContiguous <;>
    simp [Blocking.allreduce, Blocking.allreduceOn, hs, hr, hfail]

/-- `mpi::allreduce` accepts views of the same size. -/
theorem passes_allreduce (op : MpiOp) (comm : MpiComm) (m : ContiguousMember) :
    (allreduceCallOf op comm m.toMember).Passes (m.sv.size = m.rv.size)
      (CInt.ofSize m.sv.size) where
  contiguous := m.recv_contiguous
  rejected hne := allreduce_rejects hne op comm _
  accepted hsize :=
    ⟨_, _, _, ReductionRoutine.allreduce_eq m.send_contiguous m.recv_contiguous hsize op comm _,
      rfl, rfl, rfl, rfl, fun _ _ => ⟨rfl, rfl⟩⟩
  closes := rfl
  pending := by
    have hspan : spanCount m.sv = CInt.ofSize m.sv.size := by
      rw [spanCount, View.isContiguous_iff.mp m.send_contiguous]
    exact ⟨_, _, _, contiguousUpToMpi_eq m.send_contiguous m.recv_contiguous _ _ _ _, rfl, hspan,
      rfl, hspan, rfl, fun _ h => ⟨rfl, fun r => by simp⟩⟩

/-- `mpi::alltoall` accepts counts that pass both checks. -/
theorem passes_alltoall (size : Nat) (comm : MpiComm) (m : ContiguousMember) (count : UInt64) :
    (alltoallCallOf size comm m.toMember count).Passes
      (mulSize count.toNat size ≤ m.sv.extent 0 ∧ mulSize count.toNat size ≤ m.rv.extent 0)
      (CInt.ofSize count.toNat) := by
  let a : AlltoallCall := .separate ⟨m.sv, count⟩ ⟨m.rv, count⟩
  have hcontiguous : ∀ b ∈ a.views, b.view.isContiguous = true := by
    simp [a, AlltoallCall.views, m.send_contiguous, m.recv_contiguous]
  have hpass : (∀ b ∈ a.views, b.passes size = true) ↔
      mulSize count.toNat size ≤ m.sv.extent 0 ∧ mulSize count.toNat size ≤ m.rv.extent 0 := by
    simp [a, AlltoallCall.views, CountedView.passes]
  have hblocking : ∀ h, a.routine size comm h = _ := fun h => AlltoallCall.routine_eq hcontiguous
  refine ⟨m.recv_contiguous, fun hnot => ?_, fun haccepts => ?_, rfl, ?_⟩
  · exact (hblocking _).trans (if_neg (mt hpass.mp hnot))
  · exact ⟨_, _, _, (hblocking _).trans (if_pos (hpass.mpr haccepts)), rfl, rfl, rfl, rfl,
      fun _ _ => ⟨rfl, rfl⟩⟩
  · exact ⟨_, _, _, contiguousUpToMpi_eq m.send_contiguous m.recv_contiguous _ _ _ _, rfl, rfl,
      rfl, rfl, rfl, fun _ h => ⟨rfl, fun r => by simp⟩⟩

theorem allreduce_agrees_iff (α : Type) (op : MpiOp) (comm : MpiComm)
    (members : List ContiguousMember) :
    AllreduceAgrees α op comm members ↔ ∀ m ∈ members, m.sv.size = m.rv.size := by
  have hpasses : ∀ m ∈ members, (allreduceCallOf op comm m.toMember).Passes
      (m.sv.size = m.rv.size) (CInt.ofSize m.sv.size) := fun m _ => passes_allreduce op comm m
  refine (agree_iff hpasses ?_).trans
    (forall₂_congr fun m _ => ⟨And.left, fun hsize => ⟨hsize, ?_⟩⟩)
  · intro haccepts f hassoc c c' memory
    exact runVariant_eq hpasses haccepts (collect_congr c c' _) memory
  · have hle := CInt.toNat_ofSize_le m.sv.size
    rw [hsize] at hle
    simpa [allreduceCallOf, hsize] using hle

/-- `mpi::alltoall` accepts the views and the count, and MPI stores no more
elements than the receive view has. -/
structure CountAccepted (size : Nat) (m : Member) (count : UInt64) : Prop where
  send : mulSize count.toNat size ≤ m.sv.extent 0
  recv : mulSize count.toNat size ≤ m.rv.extent 0
  fits : size * CInt.ofSize count.toNat ≤ m.rv.size

theorem alltoall_agrees_iff (α : Type) (comm : MpiComm)
    (members : List (ContiguousMember × UInt64)) :
    AlltoallAgrees α comm members ↔
      ∀ x ∈ members, CountAccepted members.length x.1.toMember x.2 := by
  have hpasses : ∀ x ∈ members,
      (alltoallCallOf members.length comm x.1.toMember x.2).Passes _ _ :=
    fun x _ => passes_alltoall members.length comm x.1 x.2
  refine (agree_iff hpasses fun haccepts memory => ?_).trans (forall₂_congr fun x _ => ?_)
  · exact runVariant_eq hpasses haccepts (fun _ => rfl) memory
  · constructor
    · rintro ⟨⟨hsend, hrecv⟩, hfits⟩
      exact ⟨hsend, hrecv, Int.toNat_le.mp hfits⟩
    · rintro ⟨hsend, hrecv, hfits⟩
      exact ⟨⟨hsend, hrecv⟩, Int.toNat_le.mpr hfits⟩

/-- **The variants of a collective agree exactly when** every process passes
views of the same size (`allreduce`), or every process passes a count that
the blocking variant accepts and that, as an `int` and times the number of
processes, is at most the size of the receive view (`alltoall`). -/
theorem variants_agree_iff (α : Type) :
    (∀ (op : MpiOp) (comm : MpiComm) (members : List ContiguousMember),
      AllreduceAgrees α op comm members ↔ ∀ m ∈ members, m.sv.size = m.rv.size) ∧
    ∀ (comm : MpiComm) (members : List (ContiguousMember × UInt64)),
      AlltoallAgrees α comm members ↔
        ∀ x ∈ members, CountAccepted members.length x.1.toMember x.2 :=
  ⟨allreduce_agrees_iff α, alltoall_agrees_iff α⟩

/-- A process with two elements to send and room for one. -/
def twoIntoOne : ContiguousMember where
  sv := .line 0 0 2 1
  rv := .line 1 0 1 1
  nextAlloc := 2
  send_contiguous := View.isContiguous_line 0 0 2
  recv_contiguous := View.isContiguous_line 1 0 1

/-- Two elements into a view of one: `mpi::allreduce` rejects them, and
`mpi::iallreduce` does not. -/
theorem iallreduce_accepts_unequal :
    ¬ ((∀ (op : MpiOp) (comm : MpiComm) (members : List ContiguousMember),
        AllreduceAgrees Nat op comm members) ∧
      ∀ (comm : MpiComm) (members : List (ContiguousMember × UInt64)),
        AlltoallAgrees Nat comm members) := by
  rintro ⟨hallreduce, -⟩
  have hequal := (allreduce_agrees_iff Nat 0 0 [twoIntoOne]).mp (hallreduce 0 0 _) twoIntoOne
    (List.mem_singleton.mpr rfl)
  revert hequal
  decide

end KokkosComm.Mpi
