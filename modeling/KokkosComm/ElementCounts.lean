/-
KokkosComm.ElementCounts — the number of elements that a point-to-point
routine tells the transport, in both backends.

MPI takes counts as `int`, NCCL as `size_t`. The span of a view is a
`size_t`; the packers of both backends keep it as an `int`. So the count
of a view depends on the backend and on the path it takes, as soon as the
view has 2^31 elements or more. `transportCount` reads the count off the
call that the routine makes, as the transport gets it.

§1 the routines, §2 the count of each of them, in closed form, §3 when it
is the number of elements (`counts_kept_iff`).
-/
import KokkosComm.Mpi.Fencing
import KokkosComm.Mpi.LowLevel
import KokkosComm.Mpi.TransferTheorems
import KokkosComm.Nccl.PointToPointTheorems

namespace KokkosComm

/-! ## §1 The routines -/

/-- A call of a point-to-point routine, the view apart. `On` is said of the
routines without an execution space. -/
inductive PointToPoint where
  | mpiSend (dest tag : Int) (mode : Mpi.CommunicationMode) (comm : Mpi.MpiComm)
  | mpiIsend (dest tag : Int) (mode : Mpi.CommunicationMode) (comm : Mpi.MpiComm)
  | mpiIsendOn (dest tag : Int) (comm : Mpi.MpiComm)
  | mpiRecv (src tag : Int) (comm : Mpi.MpiComm)
  | mpiRecvOn (src tag : Int) (comm : Mpi.MpiComm)
  | mpiIrecvOn (src tag : Int) (comm : Mpi.MpiComm)
  | send (dest : Int) (mode : Mpi.CommunicationMode) (comm : Mpi.MpiComm)
  | recv (src : Int) (comm : Mpi.MpiComm)
  | ncclSend (peer : Int) (comm : Nccl.NcclComm)
  | ncclRecv (peer : Int) (comm : Nccl.NcclComm)
  deriving DecidableEq, Repr

namespace PointToPoint

/-- The count of the one NCCL call of a routine, an `int` or a `size_t`, as
the `size_t` that NCCL gets. -/
def ncclCount (routine : Nccl.Routine (Nccl.Request Mpi.Callback)) (nextAlloc : AllocId) :
    Outcome Int := do
  let (_, host) ← routine (Nccl.Host.start nextAlloc)
  match Nccl.ncclCalls host.trace with
  | [call] => .returns (CInt.toSize call.count)
  | _ => .undefined

/-- The number of elements that the transport is told, if it is reached. -/
def transportCount (k : PointToPoint) (v : View) (nextAlloc : AllocId) : Outcome Int :=
  let host := Mpi.Host.start 0 nextAlloc
  match k with
  | mpiSend dest tag mode comm => do
    let ((call, _), _) ← Mpi.Blocking.send v dest tag mode comm host
    return call.sendcount
  | mpiIsend dest tag mode comm => do
    let ((call, _), _) ← Mpi.isendUpToMpi v dest tag mode comm host
    return call.sendcount
  | mpiIsendOn dest tag comm => do
    let ((call, _), _) ← Mpi.isendOn v dest tag comm host
    return call.sendcount
  | mpiRecv src tag comm => do
    let ((call, _), _) ← Mpi.Blocking.recv v src tag comm host
    return call.recvcount
  | mpiRecvOn src tag comm => do
    let ((call, _), _) ← Mpi.recvOn v src tag comm host
    return call.recvcount
  | mpiIrecvOn src tag comm => do
    let ((call, _), _) ← Mpi.irecvOn v src tag comm host
    return call.recvcount
  | send dest mode comm => do
    let ((call, _), _) ← Mpi.isendUpToMpi v dest Mpi.pointToPointTag mode comm host
    return call.sendcount
  | recv src comm => do
    let ((call, _), _) ← Mpi.recvUpToMpi v src comm host
    return call.recvcount
  | ncclSend peer comm => ncclCount (Nccl.send v peer comm) nextAlloc
  | ncclRecv peer comm => ncclCount (Nccl.recv v peer comm) nextAlloc

/-- The routine is one of the NCCL backend. -/
def onNccl : PointToPoint → Bool
  | ncclSend _ _ => true
  | ncclRecv _ _ => true
  | _ => false

/-- The routine takes contiguous views only. -/
def lowLevel : PointToPoint → Bool
  | mpiIsendOn _ _ _ => true
  | mpiRecvOn _ _ _ => true
  | mpiIrecvOn _ _ _ => true
  | _ => false

/-- The call is rejected, or the transport is told the number of elements. -/
def KeepsCount (k : PointToPoint) (v : View) : Prop :=
  ∀ nextAlloc, k.transportCount v nextAlloc = .aborts ∨
    k.transportCount v nextAlloc = .returns v.size

/-! ## §2 The counts -/

section Counts

variable {v : View} (nextAlloc : AllocId)

/-- What a routine that is not low-level tells the transport. -/
def count (k : PointToPoint) (v : View) : Int :=
  if k.onNccl then CInt.toSize (Nccl.sentCount v) else Mpi.wireCount v

theorem ncclCount_send (peer : Int) (comm : Nccl.NcclComm) (v : View) :
    ncclCount (Nccl.send v peer comm) nextAlloc = .returns (CInt.toSize (Nccl.sentCount v)) := by
  obtain ⟨req, host, hrun, hcalls⟩ := Nccl.send_spec peer comm v (h := .start nextAlloc)
  have hone : Nccl.ncclCalls host.trace =
      [Nccl.NcclCall.toPeer (v.handed nextAlloc) (Nccl.sentCount v) peer comm] := hcalls
  simp only [ncclCount, hrun, Outcome.returns_bind, hone]
  rfl

theorem ncclCount_recv (peer : Int) (comm : Nccl.NcclComm) (v : View) :
    ncclCount (Nccl.recv v peer comm) nextAlloc = .returns (CInt.toSize (Nccl.sentCount v)) := by
  obtain ⟨req, host, hrun, hcalls⟩ := Nccl.recv_spec peer comm v (h := .start nextAlloc)
  have hone : Nccl.ncclCalls host.trace =
      [Nccl.NcclCall.fromPeer (v.handed nextAlloc) (Nccl.sentCount v) peer comm] := hcalls
  simp only [ncclCount, hrun, Outcome.returns_bind, hone]
  rfl

/-- A packed view has the size of the view. -/
theorem transportCount_eq (k : PointToPoint) (v : View) :
    k.transportCount v nextAlloc =
      if k.lowLevel = true ∧ v.isContiguous = false then .aborts else .returns (k.count v) := by
  cases hc : v.isContiguous with
  | true =>
    have hspan := Mpi.spanCount_of_contiguous hc
    cases k <;> simp [transportCount, count, onNccl, lowLevel, hc, hspan, Mpi.Blocking.send,
      Mpi.Blocking.recv, Mpi.isendUpToMpi, Mpi.recvUpToMpi, Mpi.isendOn, Mpi.irecvOn,
      Mpi.lowLevel, Mpi.recvOn, ncclCount_send, ncclCount_recv]
  | false =>
    cases k <;> simp [transportCount, count, onNccl, lowLevel, hc, Mpi.wireCount,
      Mpi.Blocking.send, Mpi.Blocking.recv, Mpi.isendUpToMpi, Mpi.recvUpToMpi, Mpi.isendOn,
      Mpi.irecvOn, Mpi.lowLevel, Mpi.recvOn, ncclCount_send, ncclCount_recv]

end Counts

/-! ## §3 When the count is the number of elements -/

/-- The count of the view survives its conversions: MPI takes an `int`, and
so does the packed path to NCCL, from where a negative count comes back. -/
def Survives (k : PointToPoint) (v : View) : Prop :=
  v.size < 2147483648 ∨
    k.onNccl = true ∧ (v.isContiguous = true ∨ 18446744071562067968 ≤ v.size)

instance (k : PointToPoint) (v : View) : Decidable (k.Survives v) := by
  unfold Survives
  infer_instance

section Exact

variable {v v' : View} (k : PointToPoint)

theorem sentCount_survives_iff (hsize : v.size < 18446744073709551616) :
    CInt.toSize (Nccl.sentCount v) = v.size ↔ v.size < 2147483648 ∨
      v.isContiguous = true ∨ 18446744071562067968 ≤ v.size := by
  cases hc : v.isContiguous with
  | true =>
    have hexact : CInt.toSize (Nccl.sentCount v) = v.size := by
      rw [Nccl.sentCount_of_contiguous hc, CInt.toSize]
      omega
    simp [hexact]
  | false =>
    rw [Nccl.sentCount_of_packed hc, CInt.toSize_ofSize_iff hsize]
    simp

theorem count_eq_size_iff (hsize : v.size < 18446744073709551616) :
    k.count v = v.size ↔ k.Survives v := by
  unfold count Survives
  cases hk : k.onNccl with
  | true =>
    simp only [if_true, true_and]
    exact Int.natCast_inj.trans (sentCount_survives_iff hsize)
  | false =>
    have := CInt.ofSize_eq_self_iff v.size
    simpa [Mpi.wireCount] using this

theorem keepsCount_iff (hsize : v.size < 18446744073709551616) :
    k.KeepsCount v ↔ (k.lowLevel = true ∧ v.isContiguous = false) ∨ k.Survives v := by
  unfold KeepsCount
  simp only [transportCount_eq, forall_const]
  rw [← k.count_eq_size_iff hsize]
  by_cases hreject : k.lowLevel = true ∧ v.isContiguous = false
  · simp [hreject]
  · simp [hreject]

/-- The packed path to NCCL and the contiguous one transfer the same number
of elements, for views of the same extents. -/
def SamePaths (k : PointToPoint) (v v' : View) : Prop :=
  ∀ nextAlloc nextAlloc', k.transportCount v nextAlloc = k.transportCount v' nextAlloc'

theorem samePaths_iff (hk : k.onNccl = true) (hsize : v.size < 18446744073709551616)
    (hext : v'.extents = v.extents) (hv : v.isContiguous = true) (hv' : v'.isContiguous = false) :
    k.SamePaths v v' ↔ v.size < 2147483648 ∨ 18446744071562067968 ≤ v.size := by
  have hlow : k.lowLevel = false := by
    cases k <;> first | rfl | cases hk
  have hsame : v'.size = v.size := congrArg List.prod hext
  have hexact : k.count v = v.size := (k.count_eq_size_iff hsize).mpr (.inr ⟨hk, .inl hv⟩)
  unfold SamePaths
  simp only [transportCount_eq, hlow, Bool.false_eq_true, false_and, if_false, forall_const,
    Outcome.returns.injEq]
  rw [hexact, ← hsame, eq_comm, k.count_eq_size_iff (by rwa [hsame])]
  simp [Survives, hk, hv', hsame]

end Exact

end PointToPoint

/-- **Counts reach the transport unchanged exactly when** the call is
rejected, the view has fewer than 2^31 elements, or NCCL gets the view as it
is (or packed, if it has at least 2^64 - 2^31 elements). The two paths to
NCCL agree under the same bounds. -/
theorem counts_kept_iff {v : View} (hsize : v.size < 18446744073709551616) :
    (∀ k : PointToPoint, k.KeepsCount v ↔
      (k.lowLevel = true ∧ v.isContiguous = false) ∨ k.Survives v) ∧
    ∀ (k : PointToPoint) (v' : View), k.onNccl = true → v'.extents = v.extents →
      v.isContiguous = true → v'.isContiguous = false →
      (k.SamePaths v v' ↔ v.size < 2147483648 ∨ 18446744071562067968 ≤ v.size) :=
  ⟨fun k => k.keepsCount_iff hsize, fun k _ hk hext hv hv' => k.samePaths_iff hk hsize hext hv hv'⟩

/-- A view of six elements, and one in which every second cell is unused. -/
theorem counts_kept_six :
    (∀ k : PointToPoint, k.KeepsCount (.line 0 0 6 1)) ∧
      (PointToPoint.ncclSend 1 0).SamePaths (.line 0 0 6 1) (.line 1 0 6 2) := by
  obtain ⟨hkeeps, hpaths⟩ := counts_kept_iff (v := .line 0 0 6 1) (by decide)
  exact ⟨fun k => (hkeeps k).mpr (.inr (.inl (by decide))),
    (hpaths (.ncclSend 1 0) (.line 1 0 6 2) rfl rfl (by decide) (by decide)).mpr
      (.inl (by decide))⟩

/-- `KokkosComm::send` of 2^32 + 1 elements sends one. -/
theorem send_counts_one :
    ¬ ∀ (k : PointToPoint) (v : View), v.size < 18446744073709551616 → k.KeepsCount v := by
  intro hall
  have hsize : (View.line 0 0 4294967297 1).size = 4294967297 := by simp [View.size, View.line]
  have hkept := hall (.send 1 .standard 0) (.line 0 0 4294967297 1) (by omega)
  rw [PointToPoint.keepsCount_iff _ (by omega), PointToPoint.Survives, hsize] at hkept
  simp [PointToPoint.lowLevel, PointToPoint.onNccl] at hkept

end KokkosComm
