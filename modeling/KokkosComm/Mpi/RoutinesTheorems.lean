/-
KokkosComm.Mpi.RoutinesTheorems — what the asynchronous routines do, one
equation for each branch, and what all of them have in common.

§1 the requests: which managed views a request owns a reference to.
§2 the traces: everything a routine does before and after its MPI call is
   `Silent`. `launched_of_start` puts the parts together.
§3 one theorem a routine, by its branches, and `AsyncCall.run_spec`: the
   one MPI call, its handle, and a reference to every managed buffer.
-/
import KokkosComm.Mpi.Routines

namespace KokkosComm.Mpi

open Routine

/-! ## §1 References owned by a request -/

/-- A request owns a reference to the allocation of `v`, if it is managed. -/
def Request.Keeps (r : Request Callback) (v : View) : Prop :=
  v.managed = true → ∃ cb ∈ r.callbacks_, cb.retains v.alloc = true

@[simp] theorem extendViewLifetime_request (r : Request Callback) (v : View) :
    (r.extendViewLifetime v).request_ = r.request_ := by
  unfold Request.extendViewLifetime
  split <;> rfl

theorem keeps_extendViewLifetime (r : Request Callback) (v : View) :
    (r.extendViewLifetime v).Keeps v := by
  intro hm
  refine ⟨.keepAlive v, ?_, ?_⟩
  · simp [Request.extendViewLifetime, hm, Request.addCallback]
  · simp [Callback.keepAlive, Callback.retains, hm]

theorem Request.Keeps.extend {r : Request Callback} {v : View} (h : r.Keeps v) (w : View) :
    (r.extendViewLifetime w).Keeps v := by
  intro hm
  obtain ⟨cb, hcb, hret⟩ := h hm
  refine ⟨cb, ?_, hret⟩
  unfold Request.extendViewLifetime
  split
  · simp [Request.addCallback, hcb]
  · exact hcb

theorem keeps_addCallback (r : Request Callback) {cb : Callback} {v : View}
    (h : v ∈ cb.captures) : (r.addCallback cb).Keeps v :=
  fun hm => ⟨cb, by simp [Request.addCallback], Callback.retains_iff.mpr ⟨v, h, hm, rfl⟩⟩

/-! ## §2 Traces -/

theorem mpiCalls_append (t t' : List HostOp) : mpiCalls (t ++ t') = mpiCalls t ++ mpiCalls t' :=
  List.filterMap_append

/-- Between `h` and `h'` no MPI call was made. -/
structure Silent (h h' : Host) : Prop where
  nextOp : h'.nextOp = h.nextOp
  nextAlloc : h.nextAlloc ≤ h'.nextAlloc
  calls : mpiCalls h'.trace = mpiCalls h.trace

namespace Silent

variable {h h₁ : Host}

theorem refl (h : Host) : Silent h h := ⟨rfl, Nat.le_refl _, rfl⟩

/-- An action other than an MPI call. -/
theorem log (hs : Silent h h₁) {a : HostOp} (ha : mpiCalls [a] = []) : Silent h (h₁.log a) where
  nextOp := hs.nextOp
  nextAlloc := hs.nextAlloc
  calls := by rw [Host.log, mpiCalls_append, ha, List.append_nil, hs.calls]

theorem allocated (hs : Silent h h₁) (label : String) (v : View) :
    Silent h (h₁.allocated label v) := by
  have hbumped : Silent h { h₁ with nextAlloc := h₁.nextAlloc + 1 } :=
    ⟨hs.nextOp, Nat.le_succ_of_le hs.nextAlloc, hs.calls⟩
  exact hbumped.log rfl

end Silent

/-- A routine started the operation of `call` and returned `req`, which
wraps it and owns a reference to every managed buffer of it. -/
structure Launched (h h' : Host) (req : Request Callback) (call : MpiCall) : Prop where
  handle : req.request_ = some h.nextOp
  nextOp : h'.nextOp = h.nextOp + 1
  nextAlloc : h.nextAlloc ≤ h'.nextAlloc
  calls : mpiCalls h'.trace = mpiCalls h.trace ++ [(h.nextOp, call)]
  keeps : ∀ v ∈ call.buffers, req.Keeps v

/-- Silent actions, the MPI call, silent actions. -/
theorem launched_of_start {h h₁ h' : Host} {call : MpiCall} {req : Request Callback}
    {f : MpiRequest → Request Callback} {g : Host → Host}
    (hrun : (start call h₁ >>= fun p => .returns (f p.1, g p.2)) = .returns (req, h'))
    (hs : Silent h h₁) (hleave : ∀ h₂, Silent h₂ (g h₂)) (hreq : ∀ r, (f r).request_ = r)
    (hkeeps : ∀ r, ∀ v ∈ call.buffers, (f r).Keeps v) : Launched h h' req call := by
  obtain ⟨out, hstart, hrun⟩ := Outcome.bind_eq_returns.mp hrun
  obtain ⟨-, rfl⟩ := start_eq_returns.mp hstart
  cases hrun
  have hl := hleave ({ h₁ with nextOp := h₁.nextOp + 1 }.log (.mpi h₁.nextOp call))
  refine ⟨by rw [hreq, hs.nextOp], ?_, Nat.le_trans hs.nextAlloc hl.nextAlloc, ?_, hkeeps _⟩
  · rw [hl.nextOp, ← hs.nextOp]
    rfl
  · rw [hl.calls, Host.log, mpiCalls_append, hs.calls, hs.nextOp]
    rfl

/-! ## §3 The routines -/

section Routines

variable {h h' : Host} {req : Request Callback} {comm : MpiComm}

theorem isendImpl_contiguous {sv : View} (hc : sv.isContiguous = true) (dest tag : Int)
    (mode : CommunicationMode) (comm : MpiComm) (h : Host) :
    isendImpl sv dest tag mode comm h =
      (start { fn := mpiIsendFn mode dest tag, sendbuf := some sv, sendcount := spanCount sv,
               recvbuf := none, recvcount := 0, comm := comm }
        (h.log (.space (.fence "fence before isend"))) >>= fun p =>
          .returns ((Request.new p.1).extendViewLifetime sv, p.2)) := by
  unfold isendImpl
  rw [if_pos hc]
  rfl

theorem isendImpl_packed {sv : View} (hc : sv.isContiguous = false) (dest tag : Int)
    (mode : CommunicationMode) (comm : MpiComm) (h : Host) :
    isendImpl sv dest tag mode comm h =
      (start { fn := mpiIsendFn mode dest tag, sendbuf := some (sv.contiguousView h.nextAlloc),
               sendcount := CInt.ofSize sv.size, recvbuf := none, recvcount := 0, comm := comm }
        (((h.allocated "pkd_sv" sv).log
          (.space (.deepCopy (sv.contiguousView h.nextAlloc) sv))).log
          (.space (.fence "fence before isend"))) >>= fun p =>
          .returns (((Request.new p.1).extendViewLifetime
            (sv.contiguousView h.nextAlloc)).extendViewLifetime sv, p.2)) := by
  unfold isendImpl
  rw [if_neg (by simp [hc])]
  simp

theorem isendImpl_spec {sv : View} {dest tag : Int} {mode : CommunicationMode}
    (hrun : isendImpl sv dest tag mode comm h = .returns (req, h')) :
    ∃ call, Launched h h' req call := by
  cases hc : sv.isContiguous with
  | true =>
    rw [isendImpl_contiguous hc] at hrun
    refine ⟨_, launched_of_start (f := fun r => (Request.new r).extendViewLifetime sv)
      (g := fun h => h) hrun ((Silent.refl h).log rfl) Silent.refl (fun r => ?_) fun r v hv => ?_⟩
    · simp [Request.new]
    · obtain rfl : v = sv := by simpa [MpiCall.buffers] using hv
      exact keeps_extendViewLifetime _ _
  | false =>
    rw [isendImpl_packed hc] at hrun
    refine ⟨_, launched_of_start (f := fun r => ((Request.new r).extendViewLifetime
      (sv.contiguousView h.nextAlloc)).extendViewLifetime sv) (g := fun h => h) hrun
      ((((Silent.refl h).allocated _ _).log rfl).log rfl) Silent.refl (fun r => ?_)
      fun r v hv => ?_⟩
    · simp [Request.new]
    · obtain rfl : v = sv.contiguousView h.nextAlloc := by simpa [MpiCall.buffers] using hv
      exact (keeps_extendViewLifetime _ _).extend sv

theorem recvExecute_contiguous {rv : View} (hc : rv.isContiguous = true) (src : Int)
    (comm : MpiComm) (h : Host) :
    recvExecute rv src comm h =
      (start { fn := .mpiIrecv src pointToPointTag, sendbuf := none, sendcount := 0,
               recvbuf := some rv, recvcount := spanCount rv, comm := comm }
        (h.log (.space (.fence "fence before irecv"))) >>= fun p =>
          .returns ((Request.new p.1).extendViewLifetime rv, p.2)) := by
  unfold recvExecute
  rw [if_pos hc]
  rfl

theorem recvExecute_packed {rv : View} (hc : rv.isContiguous = false) (src : Int)
    (comm : MpiComm) (h : Host) :
    recvExecute rv src comm h =
      (start { fn := .mpiIrecv src pointToPointTag, sendbuf := none, sendcount := 0,
               recvbuf := some (rv.contiguousView h.nextAlloc),
               recvcount := CInt.ofSize rv.size, comm := comm }
        ((h.allocated "TODO" rv).log (.space (.fence "fence before irecv"))) >>= fun p =>
          .returns ((Request.new p.1).addCallback (unpackCallback rv
            (rv.contiguousView h.nextAlloc) "fence `args` unpacking after MPI call"), p.2)) := by
  unfold recvExecute
  rw [if_neg (by simp [hc])]
  simp

theorem recvExecute_spec {rv : View} {src : Int}
    (hrun : recvExecute rv src comm h = .returns (req, h')) : ∃ call, Launched h h' req call := by
  cases hc : rv.isContiguous with
  | true =>
    rw [recvExecute_contiguous hc] at hrun
    refine ⟨_, launched_of_start (f := fun r => (Request.new r).extendViewLifetime rv)
      (g := fun h => h) hrun ((Silent.refl h).log rfl) Silent.refl (fun r => ?_) fun r v hv => ?_⟩
    · simp [Request.new]
    · obtain rfl : v = rv := by simpa [MpiCall.buffers] using hv
      exact keeps_extendViewLifetime _ _
  | false =>
    rw [recvExecute_packed hc] at hrun
    refine ⟨_, launched_of_start (f := fun r => (Request.new r).addCallback
      (unpackCallback rv (rv.contiguousView h.nextAlloc)
        "fence `args` unpacking after MPI call")) (g := fun h => h) hrun
      (((Silent.refl h).allocated _ _).log rfl) Silent.refl (fun r => rfl) fun r v hv => ?_⟩
    obtain rfl : v = rv.contiguousView h.nextAlloc := by simpa [MpiCall.buffers] using hv
    exact keeps_addCallback _ (by simp [unpackCallback])

/-- The trace of `ireduce` up to its MPI call, when it packs `sv`. -/
def Host.packedSend (h : Host) (sv : View) : Host :=
  (((h.log (.pushRegion "KokkosComm::mpi::ireduce")).allocated "pkd_sv" sv).log
    (.space (.deepCopy (sv.contiguousView h.nextAlloc) sv))).log
    (.space (.fence "fence `pkd_sv` packing before MPI call"))

section Ireduce

variable {sv rv : View} {rank root : Int}

theorem ireduce_direct (hc : sv.isContiguous = true)
    (hroot : ¬ (rank = root ∧ rv.isContiguous = false)) (op : MpiOp) (comm : MpiComm)
    (h : Host) :
    ireduce sv rv op rank root comm h =
      (start (ireduceCall sv rv (spanCount sv) op root comm)
        ((h.log (.pushRegion "KokkosComm::mpi::ireduce")).log
          (.space (.fence "fence before MPI call"))) >>= fun p =>
          .returns (((Request.new p.1).extendViewLifetime sv).extendViewLifetime rv,
            p.2.log .popRegion)) := by
  unfold ireduce
  simp only [if_pos hc, if_neg hroot]
  simp

theorem ireduce_unpack (hc : sv.isContiguous = true)
    (hroot : rank = root ∧ rv.isContiguous = false) (op : MpiOp) (comm : MpiComm) (h : Host) :
    ireduce sv rv op rank root comm h =
      (start (ireduceCall sv (rv.contiguousView h.nextAlloc) (spanCount sv) op root comm)
        (((h.log (.pushRegion "KokkosComm::mpi::ireduce")).allocated
          "KC::mpi::ireduce c_sv pkd_rv" rv).log
          (.space (.fence "fence `pkd_rv` packing before MPI call"))) >>= fun p =>
          .returns ((((Request.new p.1).addCallback
            (unpackCallback rv (rv.contiguousView h.nextAlloc)
              "fence `pkd_rv` unpacking after MPI call")).extendViewLifetime
              sv).extendViewLifetime rv, p.2.log .popRegion)) := by
  unfold ireduce
  simp only [if_pos hc, if_pos hroot]
  simp [Host.log]

theorem ireduce_packed (hc : sv.isContiguous = false)
    (hroot : ¬ (rank = root ∧ rv.isContiguous = false)) (op : MpiOp) (comm : MpiComm)
    (h : Host) :
    ireduce sv rv op rank root comm h =
      (start (ireduceCall (sv.contiguousView h.nextAlloc) rv (CInt.ofSize sv.size) op root comm)
        (h.packedSend sv) >>= fun p =>
          .returns ((((Request.new p.1).extendViewLifetime
            (sv.contiguousView h.nextAlloc)).extendViewLifetime sv).extendViewLifetime rv,
            p.2.log .popRegion)) := by
  unfold ireduce
  simp only [if_neg (Bool.eq_false_iff.mp hc), if_neg hroot]
  simp [Host.log, Host.packedSend]

theorem ireduce_packed_unpack (hc : sv.isContiguous = false)
    (hroot : rank = root ∧ rv.isContiguous = false) (op : MpiOp) (comm : MpiComm) (h : Host) :
    ireduce sv rv op rank root comm h =
      (start (ireduceCall (sv.contiguousView h.nextAlloc) (rv.contiguousView (h.nextAlloc + 1))
          (CInt.ofSize sv.size) op root comm)
        (((h.packedSend sv).allocated "KC::mpi::ireduce nc_sv pkd_rv" rv).log
          (.space (.fence "fence `pkd_rv` packing before MPI call"))) >>= fun p =>
          .returns (((((Request.new p.1).addCallback
            (unpackCallback rv (rv.contiguousView (h.nextAlloc + 1))
              "fence `pkd_rv` unpacking after MPI call")).extendViewLifetime
              (sv.contiguousView h.nextAlloc)).extendViewLifetime sv).extendViewLifetime rv,
            p.2.log .popRegion)) := by
  unfold ireduce
  simp only [if_neg (Bool.eq_false_iff.mp hc), if_pos hroot]
  simp [Host.log, Host.packedSend, Host.allocated]

/-- The two buffers of the call of `ireduce`. -/
theorem keeps_ireduceCall {sendbuf recvbuf : View} {count : Int} {op : MpiOp}
    {r : Request Callback} (hsend : r.Keeps sendbuf) (hrecv : r.Keeps recvbuf) :
    ∀ v ∈ (ireduceCall sendbuf recvbuf count op root comm).buffers, r.Keeps v := by
  intro v hv
  rcases (by simpa [ireduceCall, MpiCall.buffers] using hv : v = sendbuf ∨ v = recvbuf) with
    rfl | rfl
  · exact hsend
  · exact hrecv

theorem ireduce_spec {op : MpiOp} (hrun : ireduce sv rv op rank root comm h = .returns (req, h')) :
    ∃ call, Launched h h' req call := by
  have hentry : Silent h (h.log (.pushRegion "KokkosComm::mpi::ireduce")) :=
    (Silent.refl h).log rfl
  have hpacked : Silent h (h.packedSend sv) := ((hentry.allocated _ _).log rfl).log rfl
  have hleave : ∀ h₂ : Host, Silent h₂ (h₂.log .popRegion) := fun h₂ => (Silent.refl h₂).log rfl
  cases hc : sv.isContiguous with
  | true =>
    by_cases hroot : rank = root ∧ rv.isContiguous = false
    · rw [ireduce_unpack hc hroot] at hrun
      refine ⟨_, launched_of_start (f := fun r => (((Request.new r).addCallback
        (unpackCallback rv (rv.contiguousView h.nextAlloc)
          "fence `pkd_rv` unpacking after MPI call")).extendViewLifetime sv).extendViewLifetime rv)
        (g := fun h => h.log .popRegion) hrun ((hentry.allocated _ _).log rfl) hleave
        (fun r => ?_) fun r => keeps_ireduceCall ?_ ?_⟩
      · simp [Request.new, Request.addCallback]
      · exact (keeps_extendViewLifetime _ _).extend rv
      · exact ((keeps_addCallback _ (by simp [unpackCallback])).extend sv).extend rv
    · rw [ireduce_direct hc hroot] at hrun
      refine ⟨_, launched_of_start
        (f := fun r => ((Request.new r).extendViewLifetime sv).extendViewLifetime rv)
        (g := fun h => h.log .popRegion) hrun (hentry.log rfl) hleave
        (fun r => ?_) fun r => keeps_ireduceCall ?_ ?_⟩
      · simp [Request.new]
      · exact (keeps_extendViewLifetime _ _).extend rv
      · exact keeps_extendViewLifetime _ _
  | false =>
    by_cases hroot : rank = root ∧ rv.isContiguous = false
    · rw [ireduce_packed_unpack hc hroot] at hrun
      refine ⟨_, launched_of_start (f := fun r => ((((Request.new r).addCallback
        (unpackCallback rv (rv.contiguousView (h.nextAlloc + 1))
          "fence `pkd_rv` unpacking after MPI call")).extendViewLifetime
          (sv.contiguousView h.nextAlloc)).extendViewLifetime sv).extendViewLifetime rv)
        (g := fun h => h.log .popRegion) hrun ((hpacked.allocated _ _).log rfl) hleave
        (fun r => ?_) fun r => keeps_ireduceCall ?_ ?_⟩
      · simp [Request.new, Request.addCallback]
      · exact ((keeps_extendViewLifetime _ _).extend sv).extend rv
      · exact (((keeps_addCallback _ (by simp [unpackCallback])).extend _).extend sv).extend rv
    · rw [ireduce_packed hc hroot] at hrun
      refine ⟨_, launched_of_start (f := fun r => (((Request.new r).extendViewLifetime
          (sv.contiguousView h.nextAlloc)).extendViewLifetime sv).extendViewLifetime rv)
        (g := fun h => h.log .popRegion) hrun hpacked hleave
        (fun r => ?_) fun r => keeps_ireduceCall ?_ ?_⟩
      · simp [Request.new]
      · exact ((keeps_extendViewLifetime _ _).extend sv).extend rv
      · exact keeps_extendViewLifetime _ _

end Ireduce

theorem contiguousCollective_eq {sv rv : View} (hs : sv.isContiguous = true)
    (hr : rv.isContiguous = true) (region failure : String) (call : MpiCall) (h : Host) :
    contiguousCollective region failure sv rv call h =
      (start call ((h.log (.pushRegion region)).log
        (.space (.fence "fence before non-blocking all-gather"))) >>= fun p =>
          .returns (((Request.new p.1).extendViewLifetime sv).extendViewLifetime rv,
            p.2.log .popRegion)) := by
  unfold contiguousCollective
  simp [hs, hr]

/-- Non-contiguous views are rejected before the MPI call. -/
theorem contiguousCollective_aborts {sv rv : View}
    (hc : sv.isContiguous = false ∨ rv.isContiguous = false) (region failure : String)
    (call : MpiCall) (h : Host) :
    contiguousCollective region failure sv rv call h = .aborts := by
  unfold contiguousCollective
  rcases hc with hc | hc <;> simp [hc]

theorem contiguousCollective_spec {sv rv : View} {region failure : String} {call : MpiCall}
    (hbuf : call.buffers = [sv, rv])
    (hrun : contiguousCollective region failure sv rv call h = .returns (req, h')) :
    Launched h h' req call := by
  by_cases hc : sv.isContiguous = false ∨ rv.isContiguous = false
  · rw [contiguousCollective_aborts hc] at hrun
    cases hrun
  · simp only [not_or, Bool.not_eq_false] at hc
    rw [contiguousCollective_eq hc.1 hc.2] at hrun
    refine launched_of_start
      (f := fun r => ((Request.new r).extendViewLifetime sv).extendViewLifetime rv)
      (g := fun h => h.log .popRegion) hrun (((Silent.refl h).log rfl).log rfl)
      (fun h₂ => (Silent.refl h₂).log rfl) (fun r => by simp [Request.new]) fun r v hv => ?_
    rw [hbuf] at hv
    rcases (by simpa using hv : v = sv ∨ v = rv) with rfl | rfl
    · exact (keeps_extendViewLifetime _ _).extend rv
    · exact keeps_extendViewLifetime _ _

theorem ibroadcast_eq {v : View} (hc : v.isContiguous = true) (root : Int) (comm : MpiComm)
    (h : Host) :
    ibroadcast v root comm h =
      (start { fn := .mpiIbcast root, sendbuf := some v, sendcount := spanCount v,
               recvbuf := some v, recvcount := spanCount v, comm := comm }
        ((h.log (.pushRegion "KokkosComm::mpi::ibroadcast")).log
          (.space (.fence "fence before non-blocking broadcast"))) >>= fun p =>
          .returns ((Request.new p.1).extendViewLifetime v, p.2.log .popRegion)) := by
  unfold ibroadcast
  simp [hc]

theorem ibroadcast_aborts {v : View} (hc : v.isContiguous = false) (root : Int)
    (comm : MpiComm) (h : Host) : ibroadcast v root comm h = .aborts := by
  unfold ibroadcast
  simp [hc]

theorem ibroadcast_spec {v : View} {root : Int}
    (hrun : ibroadcast v root comm h = .returns (req, h')) : ∃ call, Launched h h' req call := by
  cases hc : v.isContiguous with
  | false =>
    rw [ibroadcast_aborts hc] at hrun
    cases hrun
  | true =>
    rw [ibroadcast_eq hc] at hrun
    refine ⟨_, launched_of_start (f := fun r => (Request.new r).extendViewLifetime v)
      (g := fun h => h.log .popRegion) hrun (((Silent.refl h).log rfl).log rfl)
      (fun h₂ => (Silent.refl h₂).log rfl) (fun r => by simp [Request.new]) fun r w hw => ?_⟩
    obtain rfl : w = v := by simpa [MpiCall.buffers] using hw
    exact keeps_extendViewLifetime _ _

/-- Every asynchronous routine that returns has made one MPI call, wraps
its handle, and owns a reference to each of its managed buffers. -/
theorem AsyncCall.run_spec {c : AsyncCall} (hrun : c.run h = .returns (req, h')) :
    ∃ call, Launched h h' req call := by
  cases c with
  | isendImpl sv dest tag mode comm => exact isendImpl_spec hrun
  | recvExecute rv src comm => exact recvExecute_spec hrun
  | ireduce sv rv op rank root comm => exact ireduce_spec hrun
  | iallreduce sv rv op comm => exact ⟨_, contiguousCollective_spec rfl hrun⟩
  | ialltoall sv rv count comm => exact ⟨_, contiguousCollective_spec rfl hrun⟩
  | iallgather sv rv comm => exact ⟨_, contiguousCollective_spec rfl hrun⟩
  | ibroadcast v root comm => exact ibroadcast_spec hrun

end Routines

end KokkosComm.Mpi
