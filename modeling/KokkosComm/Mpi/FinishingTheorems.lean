/-
KokkosComm.Mpi.FinishingTheorems — when a blocking receive or reduction is
finished on return.

Nothing is pending when MPI is called, since every routine fences before.
A contiguous receive view is handed to MPI itself, and nothing follows. Any
other one is packed: the copy into it is enqueued after the MPI call and
no fence follows, so the routine can return before it runs. The callback
that the non-blocking receive registers does fence.
-/
import KokkosComm.Mpi.Finishing
import KokkosComm.Mpi.FencingTheorems
import KokkosComm.Mpi.ReduceTheorems
import KokkosComm.Mpi.TransferTheorems

namespace KokkosComm.Mpi

open MultiIndex Routine WorkQueue

variable {κ α : Type} {kernel : κ → Heap α → Heap α} {data : List α} {s s' : SpaceState κ α}

/-- The memory when everything that is pending has run. -/
def SpaceState.settled (kernel : κ → Heap α → Heap α) (s : SpaceState κ α) : Heap α :=
  runAll (Task.run kernel) s.2 s.1

theorem program_spaceEvents (trace : List HostOp) :
    program (spaceEvents trace : List (Event (Task κ))) = spaceEvents trace := by
  refine List.filter_eq_self.mpr fun e he => ?_
  obtain ⟨a, -, ha⟩ := List.mem_filterMap.mp he
  cases a with
  | allocate label v => cases ha; rfl
  | space c => cases c <;> cases ha <;> rfl
  | _ => cases ha

/-! ## Routines that receive -/

section Receiving

variable {routine : BlockingRoutine} {nextAlloc : AllocId} {call : BlockingCall} {host : Host}

/-- A routine that does nothing after its MPI call leaves nothing pending. -/
theorem BlockingRoutine.ReturnsIn.eq (hleaves : Leaves κ routine)
    (hrun : routine (Host.start 0 nextAlloc) = .returns ((call, [.popRegion]), host))
    (h : routine.ReturnsIn nextAlloc kernel data s s') :
    s' = (store call.recvbuf call.recvcount data (runTrace host.trace (s.settled kernel)), []) := by
  obtain ⟨call', after, host', before, behind, hrun', -, -, -, hbefore, hbehind, rfl⟩ := h
  rw [hrun] at hrun'
  cases hrun'
  rw [aroundMpi, hleaves.memory_at_mpi hrun hbefore]
  exact exec_of_idle hbehind _

variable (kernel) in
/-- A routine that copies after its MPI call can leave the copy pending. -/
theorem BlockingRoutine.exists_returnsIn (hleaves : Leaves κ routine) {rv packed : View}
    (hrun : routine (Host.start 0 nextAlloc) =
      .returns ((call, [.space (Packer.unpackInto rv packed), .popRegion]), host))
    (hsend : 0 ≤ call.sendcount) (hrecv : 0 ≤ call.recvcount)
    (hdata : call.fn.Delivers call.recvcount data) (s : SpaceState κ α) :
    ∃ m, routine.ReturnsIn nextAlloc kernel data s (m, [.copy none rv packed]) := by
  refine ⟨store call.recvbuf call.recvcount data (runTrace host.trace (s.settled kernel)), call,
    _, host, spaceEvents host.trace, [.enqueue (.copy none rv packed)], hrun, hsend, hrecv, hdata,
    program_spaceEvents _, rfl, ?_⟩
  rw [aroundMpi, hleaves.memory_at_mpi hrun (program_spaceEvents _)]
  rfl

/-- What a contiguous view holds after MPI has stored a message. -/
theorem holds_store {rv : View} (hc : rv.isContiguous = true) (hnd : rv.elements.Nodup)
    {count : Int} (hlen : data.length ≤ count.toNat) (m : Heap α) {k : Nat} {i : List Nat} {x : α}
    (hi : rv.route.order[k]? = some i) (hx : data[k]? = some x) :
    store (some rv) count data m (rv.cell i) = x := by
  rw [View.route, if_pos hc] at hi
  rw [store, Heap.scatter_buffer_cell (View.map_offset_memoryIndices hnd hc) hlen m hi, hx]
  rfl

/-- A message of full length, whatever the MPI function. -/
theorem BlockingFn.delivers_replicate (fn : BlockingFn) (count : Int) (x : α) :
    fn.Delivers count (List.replicate count.toNat x) := by
  unfold BlockingFn.Delivers
  split <;> simp

theorem BlockingFn.Delivers.length_le {fn : BlockingFn} {count : Int}
    (h : fn.Delivers count data) : data.length ≤ count.toNat := by
  unfold BlockingFn.Delivers at h
  split at h
  · exact h
  · exact h.le

/-- The routine receives `count` elements into `rv`, or into a packed view
that it copies afterwards. -/
structure ReceivesInto (routine : BlockingRoutine) (rv : View) (count : Int)
    (nextAlloc : AllocId) (call : BlockingCall) (packed : View) (host : Host) : Prop where
  run : routine (Host.start 0 nextAlloc) =
    .returns ((call, afterReceive rv.isContiguous rv packed), host)
  recvbuf : rv.isContiguous = true → call.recvbuf = some rv
  recvcount : call.recvcount = count
  sendcount : 0 ≤ count → 0 ≤ call.sendcount

/-- Such a routine is finished on return exactly when the view is
contiguous, or MPI rejects the count. -/
theorem finished_iff [Inhabited α] {rv : View} {count : Int} (hleaves : Leaves κ routine)
    (hreceives : ∀ nextAlloc, ∃ call packed host,
      ReceivesInto routine rv count nextAlloc call packed host) :
    (∀ (nextAlloc : AllocId) (kernel : κ → Heap α → Heap α) (data : List α)
      (s s' : SpaceState κ α), routine.ReturnsIn nextAlloc kernel data s s' →
        FinishedOnReturn rv nextAlloc data s') ↔ rv.isContiguous = true ∨ count < 0 := by
  constructor
  · intro hall
    by_contra hnot
    simp only [not_or, Bool.not_eq_true, Int.not_lt] at hnot
    obtain ⟨hc, hcount⟩ := hnot
    obtain ⟨call, packed, host, h⟩ := hreceives 0
    have hrun := h.run
    rw [hc] at hrun
    obtain ⟨m, hreturns⟩ := BlockingRoutine.exists_returnsIn (fun _ h => h) hleaves hrun
      (h.sendcount hcount) (h.recvcount ▸ hcount)
      (call.fn.delivers_replicate call.recvcount default)
      ((fun _ => default, []) : SpaceState κ α)
    exact (hall 0 _ _ _ _ hreturns).quiet _ (List.mem_singleton.mpr rfl) (.inl rfl)
  · intro hcond nextAlloc kernel data s s' hreturns
    obtain ⟨call, packed, host, h⟩ := hreceives nextAlloc
    have hrun := h.run
    obtain ⟨hcount, hlen⟩ : 0 ≤ count ∧ data.length ≤ count.toNat := by
      obtain ⟨_, _, _, _, _, hrun', -, hcount, hdata, -⟩ := hreturns
      rw [hrun] at hrun'
      cases hrun'
      rw [← h.recvcount]
      exact ⟨hcount, hdata.length_le⟩
    have hc := hcond.resolve_right (Int.not_lt.mpr hcount)
    rw [hc] at hrun
    have hend := hreturns.eq hleaves hrun
    rw [h.recvbuf hc, h.recvcount] at hend
    constructor
    · intro hnd k i x hi hx
      rw [hend]
      exact holds_store hc hnd hlen _ hi hx
    · intro t ht
      rw [hend] at ht
      cases ht

end Receiving

/-! ## `recv` -/

section Recv

variable {rv : View} (src tag : Int) (comm : MpiComm) (nextAlloc : AllocId)

/-- The call of `recv`. -/
def recvCall (recvbuf : View) (count : Int) (src tag : Int) (comm : MpiComm) : BlockingCall :=
  { fn := .mpiRecv src tag, sendbuf := none, sendcount := 0, recvbuf := some recvbuf,
    recvcount := count, comm := comm }

variable (α) in
theorem recv_eq (rv : View) : ∃ host,
    Blocking.recv rv src tag comm (Host.start 0 nextAlloc) =
      .returns ((recvCall (rv.handed nextAlloc) (wireCount rv) src tag comm,
        afterReceive rv.isContiguous rv (rv.contiguousView nextAlloc)), host) ∧
      ∀ m : Heap α, runTrace host.trace m = m := by
  unfold Blocking.recv
  cases hc : rv.isContiguous with
  | true =>
    rw [View.handed_of_contiguous _ hc, ← spanCount_of_contiguous hc]
    exact ⟨_, rfl, fun m => rfl⟩
  | false =>
    rw [View.handed_of_packed _ hc, wireCount, ← View.contiguousView_span nextAlloc rv]
    exact ⟨_, rfl, fun m => rfl⟩

/-- The non-blocking receive and `wait` leave nothing pending: the callback
that copies fences, too. -/
theorem completesIn_recv (h : (AsyncCall.recvExecute rv src comm).CompletesIn nextAlloc kernel
    data s s') : s' =
      (runTrace (afterReceive rv.isContiguous rv (rv.contiguousView nextAlloc))
        (store (some (rv.handed nextAlloc)) (wireCount rv) data (s.settled kernel)), []) := by
  obtain ⟨call, wrap, host, before, behind, op, lib, ran, left, hrun, -, -, hwait, hbefore,
    hbehind, rfl⟩ := h
  obtain ⟨-, hran⟩ := Request.wait_eq_returns hwait
  obtain rfl : ran = (wrap (some op)).callbacks_ := congrArg Prod.fst hran
  have hleaves := leaves_irecv (κ := κ) rv src comm
  rw [aroundMpi, hleaves.memory_at_mpi hrun hbefore]
  cases hc : rv.isContiguous with
  | true =>
    simp [AsyncCall.upToMpi, recvUpToMpi, hc] at hrun
    obtain ⟨⟨rfl, rfl⟩, rfl⟩ := hrun
    have hidle : program behind = [] := by
      rw [hbehind]
      unfold Request.extendViewLifetime
      split <;> rfl
    rw [View.handed_of_contiguous _ hc, ← spanCount_of_contiguous hc]
    exact exec_of_idle hidle _
  | false =>
    simp [AsyncCall.upToMpi, recvUpToMpi, hc] at hrun
    obtain ⟨⟨rfl, rfl⟩, rfl⟩ := hrun
    rw [View.handed_of_packed _ hc]
    have hfenced : program behind =
        [.enqueue (Task.copy none rv (rv.contiguousView nextAlloc))] ++ [.fence] := hbehind
    exact exec_of_fence hfenced _ _

theorem receivesInto_recv (rv : View) : ∃ call packed host,
    ReceivesInto (Blocking.recv rv src tag comm) rv (wireCount rv) nextAlloc call packed host := by
  obtain ⟨host, hrun, -⟩ := recv_eq Unit src tag comm nextAlloc rv
  refine ⟨_, _, _, ⟨hrun, fun hc => ?_, rfl, fun _ => Int.le_refl 0⟩⟩
  rw [View.handed_of_contiguous _ hc]
  rfl

variable (κ α) in
theorem recvFinishes_iff [Inhabited α] (rv : View) :
    RecvFinishes κ α rv src tag comm ↔ rv.isContiguous = true ∨ wireCount rv < 0 := by
  have hfinished := finished_iff (κ := κ) (α := α) (Blocking.leaves_recv rv src tag comm)
    fun nextAlloc => receivesInto_recv src tag comm nextAlloc rv
  constructor
  · intro hall
    exact hfinished.mp fun nextAlloc kernel data s s' h => (hall nextAlloc kernel data s s' h).1
  · intro hcond nextAlloc kernel data s s' hreturns
    refine ⟨hfinished.mpr hcond _ _ _ _ _ hreturns, fun s'' hcompletes => ?_⟩
    obtain ⟨host, hrun, htrace⟩ := recv_eq α src tag comm nextAlloc rv
    have hcount : 0 ≤ wireCount rv := by
      obtain ⟨_, _, _, _, _, hrun', -, hcount, -⟩ := hreturns
      rw [hrun] at hrun'
      cases hrun'
      exact hcount
    have hc := hcond.resolve_right (Int.not_lt.mpr hcount)
    rw [completesIn_recv src comm nextAlloc hcompletes, hc]
    rw [hc] at hrun
    rw [hreturns.eq (Blocking.leaves_recv rv src tag comm) hrun, htrace]
    rfl

end Recv

/-! ## `reduce` -/

variable (κ α) in
theorem reduceFinishes_iff [Inhabited α] (sv rv : View) (op : MpiOp) (root : Nat)
    (comm : MpiComm) :
    ReduceFinishes κ α sv rv op root comm ↔ rv.isContiguous = true ∨ wireCount sv < 0 := by
  refine finished_iff (Blocking.leaves_reduce sv rv op root root comm) fun nextAlloc => ?_
  have hdirect : receivesDirectly root root rv = rv.isContiguous := by simp [receivesDirectly]
  obtain ⟨host, hrun, -⟩ :=
    reduce_eq α { sv := sv, rv := rv, nextAlloc := nextAlloc } op root root comm
  rw [hdirect] at hrun
  exact ⟨_, _, _, ⟨hrun, fun hc => by rw [if_pos hc]; rfl, rfl, fun h => h⟩⟩

/-- **A blocking receive, or a reduction on its root, is finished on return
exactly when** the receive view is contiguous, or MPI rejects the count. -/
theorem blocking_finishes_iff (κ α : Type) [Inhabited α] :
    (∀ (rv : View) (src tag : Int) (comm : MpiComm),
      RecvFinishes κ α rv src tag comm ↔ rv.isContiguous = true ∨ wireCount rv < 0) ∧
    ∀ (sv rv : View) (op : MpiOp) (root : Nat) (comm : MpiComm),
      ReduceFinishes κ α sv rv op root comm ↔ rv.isContiguous = true ∨ wireCount sv < 0 :=
  ⟨fun rv src tag comm => recvFinishes_iff κ α src tag comm rv, reduceFinishes_iff κ α⟩

/-- Two elements, every second cell: `recv` returns before they are there. -/
theorem recv_returns_early :
    ¬ ∀ (rv : View) (src tag : Int) (comm : MpiComm), RecvFinishes Unit Bool rv src tag comm := by
  intro hall
  have hfinishes := (recvFinishes_iff Unit Bool 0 0 0 (.line 0 0 2 2)).mp (hall _ 0 0 0)
  have hcount : wireCount (.line 0 0 2 2) = 2 := CInt.ofSize_of_lt (by decide)
  rw [hcount] at hfinishes
  revert hfinishes
  decide

end KokkosComm.Mpi
