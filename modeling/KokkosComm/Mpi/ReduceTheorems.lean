/-
KokkosComm.Mpi.ReduceTheorems — when the reductions of the MPI backend are
element-wise.

§1 what each routine brings to the collective: as many elements as the
`int` count says, in the memory order of the view if it is contiguous and
in the default layout of its execution space if it is packed; results
arrive in the same way. §2 `ireduce` takes views of rank 1 at most, which
have one order only, so the count decides. §3 the routines without that
restriction need orders that agree, too.
-/
import KokkosComm.Mpi.FencingTheorems
import KokkosComm.Mpi.Reduce
import KokkosComm.Mpi.RoutinesTheorems

namespace KokkosComm.Mpi

open MultiIndex Reduction Routine

variable {α : Type}

/-! ## §1 What each routine brings -/

section Parties

variable {m : Member} (memory : Heap α)

/-- The process receives into `rv` itself. -/
def receivesDirectly (rank root : Nat) (rv : View) : Bool := !(rank == root && !rv.isContiguous)

/-- A non-blocking call and the end of a region copy nothing. -/
theorem runTrace_launched (trace : List HostOp) (op : OpId) (call : MpiCall) (h : Heap α) :
    runTrace (trace ++ [.mpi op call] ++ [.popRegion]) h = runTrace trace h := by
  simp [runTrace]

theorem mpiCalls_launched {trace : List HostOp} (hcalls : mpiCalls trace = []) (op : OpId)
    (call : MpiCall) :
    mpiCalls (trace ++ [.mpi op call] ++ [.popRegion]) = [(op, call)] := by
  rw [mpiCalls_append, mpiCalls_append, hcalls]
  rfl

/-- The call of a non-blocking collective, and the request it wraps. -/
theorem asyncParty_of_start {routine : Routine (Request Callback)} {call : MpiCall} {h₁ : Host}
    {f : MpiRequest → Request Callback}
    (hrun : routine (Host.start 0 m.nextAlloc) =
      (start call h₁ >>= fun p => .returns (f p.1, p.2.log .popRegion)))
    (hcalls : mpiCalls h₁.trace = []) (hvalid : call.validCounts = true) :
    asyncParty routine m memory = partyOf call.sendbuf call.recvbuf call.sendcount call.recvcount
      (runTrace h₁.trace memory) (f (some h₁.nextOp)).complete := by
  rw [asyncParty, hrun, Routine.start, if_pos hvalid]
  simp only [Outcome.returns_bind, Host.log, mpiCalls_launched hcalls, runTrace_launched]

theorem asyncParty_aborts {routine : Routine (Request Callback)} {call : MpiCall} {h₁ : Host}
    {f : MpiRequest → Request Callback}
    (hrun : routine (Host.start 0 m.nextAlloc) =
      (start call h₁ >>= fun p => .returns (f p.1, p.2.log .popRegion)))
    (hvalid : call.validCounts = false) : asyncParty routine m memory = .aborts := by
  rw [asyncParty, hrun, Routine.start, if_neg (by simp [hvalid])]
  rfl

variable (α) in
/-- What `ireduce` brings, whichever of its four branches it takes. -/
theorem ireduceParty_eq (m : Member) (op : MpiOp) (root rank : Nat) (comm : MpiComm) :
    ∃ call h₁, ∃ wrap : MpiRequest → Request Callback,
      ireduce m.sv m.rv op rank root comm (Host.start 0 m.nextAlloc) =
        (start call h₁ >>= fun p => .returns (wrap p.1, p.2.log .popRegion)) ∧
      mpiCalls h₁.trace = [] ∧
      call = ireduceCall (m.sv.handed m.nextAlloc)
        (if receivesDirectly rank root m.rv then m.rv else m.rv.contiguousView m.recvAlloc)
        (CInt.ofSize m.sv.size) op root comm ∧
      (∀ h : Heap α, runTrace h₁.trace h = h.handed m.nextAlloc m.sv) ∧
      ∀ request (h : Heap α), (wrap request).complete h =
        if receivesDirectly rank root m.rv then h
        else h.deepCopy m.rv (m.rv.contiguousView m.recvAlloc) := by
  have hdirect : ((rank : Int) = root ∧ m.rv.isContiguous = false) ↔
      receivesDirectly rank root m.rv = false := by
    simp [receivesDirectly]
  cases hs : m.sv.isContiguous with
  | true =>
    have hspan : spanCount m.sv = CInt.ofSize m.sv.size := by
      rw [spanCount, View.isContiguous_iff.mp hs]
    simp only [View.handed_of_contiguous _ hs, Heap.handed_of_contiguous _ hs,
      Member.recvAlloc_of_contiguous hs, ← hspan]
    by_cases hr : (rank : Int) = root ∧ m.rv.isContiguous = false
    · have hrun := ireduce_unpack hs hr op comm (Host.start 0 m.nextAlloc)
      simp only [hdirect.mp hr]
      refine ⟨_, _, fun request => (((Request.new request).addCallback
        (unpackCallback m.rv (m.rv.contiguousView m.nextAlloc)
          "fence `pkd_rv` unpacking after MPI call")).extendViewLifetime
            m.sv).extendViewLifetime m.rv, hrun, rfl, rfl, fun h => rfl, fun request h => ?_⟩
      simp [run_unpackCallback]
    · have hd : receivesDirectly rank root m.rv = true := by
        simpa using fun h => hr (hdirect.mpr h)
      have hrun := ireduce_direct hs hr op comm (Host.start 0 m.nextAlloc)
      simp only [hd]
      refine ⟨_, _, fun request => ((Request.new request).extendViewLifetime
        m.sv).extendViewLifetime m.rv, hrun, rfl, rfl, fun h => rfl, fun request h => ?_⟩
      simp
  | false =>
    simp only [View.handed_of_packed _ hs, Heap.handed_of_packed _ hs,
      Member.recvAlloc_of_packed hs]
    by_cases hr : (rank : Int) = root ∧ m.rv.isContiguous = false
    · have hrun := ireduce_packed_unpack hs hr op comm (Host.start 0 m.nextAlloc)
      simp only [hdirect.mp hr]
      refine ⟨_, _, fun request => ((((Request.new request).addCallback
        (unpackCallback m.rv (m.rv.contiguousView (m.nextAlloc + 1))
          "fence `pkd_rv` unpacking after MPI call")).extendViewLifetime
            (m.sv.contiguousView m.nextAlloc)).extendViewLifetime m.sv).extendViewLifetime m.rv,
        hrun, rfl, rfl, fun h => rfl, fun request h => ?_⟩
      simp [run_unpackCallback]
    · have hd : receivesDirectly rank root m.rv = true := by
        simpa using fun h => hr (hdirect.mpr h)
      have hrun := ireduce_packed hs hr op comm (Host.start 0 m.nextAlloc)
      simp only [hd]
      refine ⟨_, _, fun request => (((Request.new request).extendViewLifetime
        (m.sv.contiguousView m.nextAlloc)).extendViewLifetime m.sv).extendViewLifetime m.rv,
        hrun, rfl, rfl, fun h => rfl, fun request h => ?_⟩
      simp

theorem ireduceParty_returns (op : MpiOp) (root : Nat) (comm : MpiComm) (rank : Nat)
    (h : 0 ≤ CInt.ofSize m.sv.size) : ∃ p, ireduceParty op root comm rank m memory = .returns p ∧
      Exchanges m memory (CInt.ofSize m.sv.size).toNat (receivesDirectly rank root m.rv) p := by
  obtain ⟨call, h₁, wrap, hrun, hcalls, rfl, htrace, hcomplete⟩ :=
    ireduceParty_eq α m op root rank comm
  have hvalid : (ireduceCall (m.sv.handed m.nextAlloc)
      (if receivesDirectly rank root m.rv then m.rv else m.rv.contiguousView m.recvAlloc)
      (CInt.ofSize m.sv.size) op root comm).validCounts = true := by
    simp [MpiCall.validCounts, ireduceCall, h]
  rw [ireduceParty, asyncParty_of_start memory hrun hcalls hvalid]
  exact ⟨_, rfl, htrace memory, rfl, rfl, hcomplete _⟩

theorem ireduceParty_aborts (op : MpiOp) (root : Nat) (comm : MpiComm) (rank : Nat)
    (h : CInt.ofSize m.sv.size < 0) :
    ireduceParty op root comm rank m memory = .aborts := by
  obtain ⟨call, h₁, wrap, hrun, _, rfl, _⟩ := ireduceParty_eq α m op root rank comm
  have hneg : ¬ 0 ≤ CInt.ofSize m.sv.size := Int.not_le.mpr h
  exact asyncParty_aborts memory hrun (by simp [MpiCall.validCounts, ireduceCall, hneg])

/-- What a blocking routine does after its MPI call: a packed view is copied
into `rv`. -/
def afterReceive (direct : Bool) (rv packed : View) : List HostOp :=
  if direct then [.popRegion] else [.space (Packer.unpackInto rv packed), .popRegion]

theorem runTrace_afterReceive (direct : Bool) (rv packed : View) (h : Heap α) :
    runTrace (afterReceive direct rv packed) h = if direct then h else h.deepCopy rv packed := by
  cases direct <;> rfl

variable (α) in
/-- What `reduce` brings, whichever of its four branches it takes. -/
theorem reduce_eq (m : Member) (op : MpiOp) (root rank : Nat) (comm : MpiComm) :
    ∃ host, Blocking.reduce m.sv m.rv op rank root comm (Host.start 0 m.nextAlloc) =
        .returns ((Blocking.reduceCall (m.sv.handed m.nextAlloc)
          (if receivesDirectly rank root m.rv then m.rv else m.rv.contiguousView m.recvAlloc)
          (CInt.ofSize m.sv.size) op root comm,
          afterReceive (receivesDirectly rank root m.rv) m.rv
            (m.rv.contiguousView m.recvAlloc)), host) ∧
      ∀ h : Heap α, runTrace host.trace h = h.handed m.nextAlloc m.sv := by
  have hdirect : ((root : Int) = rank ∧ m.rv.isContiguous = false) ↔
      receivesDirectly rank root m.rv = false := by
    rw [eq_comm (a := (root : Int))]
    simp [receivesDirectly]
  unfold Blocking.reduce
  cases hs : m.sv.isContiguous with
  | true =>
    have hspan : spanCount m.sv = CInt.ofSize m.sv.size := by
      rw [spanCount, View.isContiguous_iff.mp hs]
    simp only [View.handed_of_contiguous _ hs, Heap.handed_of_contiguous _ hs,
      Member.recvAlloc_of_contiguous hs, ← hspan]
    by_cases hr : (root : Int) = rank ∧ m.rv.isContiguous = false
    · simp only [if_pos hr, hdirect.mp hr]
      exact ⟨_, rfl, fun h => rfl⟩
    · have hd : receivesDirectly rank root m.rv = true := by
        simpa using fun h => hr (hdirect.mpr h)
      simp only [if_neg hr, hd, if_true]
      exact ⟨_, rfl, fun h => rfl⟩
  | false =>
    simp only [View.handed_of_packed _ hs, Heap.handed_of_packed _ hs,
      Member.recvAlloc_of_packed hs, ← View.contiguousView_span m.nextAlloc m.sv]
    by_cases hr : (root : Int) = rank ∧ m.rv.isContiguous = false
    · simp only [if_pos hr, hdirect.mp hr]
      exact ⟨_, rfl, fun h => rfl⟩
    · have hd : receivesDirectly rank root m.rv = true := by
        simpa using fun h => hr (hdirect.mpr h)
      simp only [if_neg hr, hd, if_true]
      exact ⟨_, rfl, fun h => rfl⟩

/-- The call of a blocking routine. -/
theorem blockingParty_of_returns {routine : BlockingRoutine} {call : BlockingCall}
    {after : List HostOp} {host : Host}
    (hrun : routine (Host.start 0 m.nextAlloc) = .returns ((call, after), host)) :
    blockingParty routine m memory =
      if call.sendcount < 0 ∨ call.recvcount < 0 then .aborts
      else partyOf call.sendbuf call.recvbuf call.sendcount call.recvcount
        (runTrace host.trace memory) (runTrace after) := by
  rw [blockingParty, hrun]
  rfl

namespace ReductionRoutine

/-- The call of `allreduce`, with or without a space. -/
def allreduceCall (sv rv : View) (op : MpiOp) (comm : MpiComm) : BlockingCall :=
  { fn := .mpiAllreduce op, sendbuf := some sv, sendcount := CInt.ofSize sv.size,
    recvbuf := some rv, recvcount := CInt.ofSize sv.size, comm := comm }

theorem allreduceOn_eq {sv rv : View} (hs : sv.isContiguous = true) (hr : rv.isContiguous = true)
    (hsize : sv.size = rv.size) (op : MpiOp) (comm : MpiComm) (h : Host) :
    Blocking.allreduceOn sv rv op comm h =
      .returns ((allreduceCall sv rv op comm, [.popRegion]),
        h.log (.pushRegion "KokkosComm::mpi::allreduce")) := by
  simp [Blocking.allreduceOn, hs, hr, hsize, allreduceCall]

theorem allreduce_eq {sv rv : View} (hs : sv.isContiguous = true) (hr : rv.isContiguous = true)
    (hsize : sv.size = rv.size) (op : MpiOp) (comm : MpiComm) (h : Host) :
    Blocking.allreduce sv rv op comm h =
      .returns ((allreduceCall sv rv op comm, [.popRegion, .popRegion]),
        ((h.log (.pushRegion "KokkosComm::mpi::allreduce")).log
          (.space (.fence "fence before allreduce"))).log
            (.pushRegion "KokkosComm::mpi::allreduce")) := by
  simp [Blocking.allreduce, hs, hr, allreduceOn_eq hs hr hsize]

/-- The call of `iallreduce`. -/
def iallreduceCall (sv rv : View) (op : MpiOp) (comm : MpiComm) : MpiCall :=
  { fn := .mpiIallreduce op, sendbuf := some sv, sendcount := CInt.ofSize sv.size,
    recvbuf := some rv, recvcount := CInt.ofSize sv.size, comm := comm }

theorem iallreduce_eq {sv rv : View} (hs : sv.isContiguous = true) (hr : rv.isContiguous = true)
    (op : MpiOp) (comm : MpiComm) (h : Host) :
    Mpi.iallreduce sv rv op comm h =
      (start (iallreduceCall sv rv op comm)
        ((h.log (.pushRegion "KokkosComm::mpi::iallreduce")).log
          (.space (.fence "fence before non-blocking all-gather"))) >>= fun p =>
            .returns (((Request.new p.1).extendViewLifetime sv).extendViewLifetime rv,
              p.2.log .popRegion)) := by
  have hspan : spanCount sv = CInt.ofSize sv.size := by
    rw [spanCount, View.isContiguous_iff.mp hs]
  rw [Mpi.iallreduce, contiguousCollective_eq hs hr, hspan]
  rfl

theorem iallreduce_returns (hs : m.sv.isContiguous = true) (hr : m.rv.isContiguous = true)
    (op : MpiOp) (comm : MpiComm) (h : 0 ≤ CInt.ofSize m.sv.size) :
    ∃ p, asyncParty (Mpi.iallreduce m.sv m.rv op comm) m memory = .returns p ∧
      Exchanges m memory (CInt.ofSize m.sv.size).toNat true p := by
  have hvalid : (iallreduceCall m.sv m.rv op comm).validCounts = true := by
    simp [MpiCall.validCounts, iallreduceCall, h]
  rw [asyncParty_of_start memory (f := fun r =>
    ((Request.new r).extendViewLifetime m.sv).extendViewLifetime m.rv)
    (iallreduce_eq hs hr op comm (Host.start 0 m.nextAlloc)) rfl hvalid]
  refine ⟨_, rfl, ⟨(if_pos hs).symm, ?_, rfl, fun h' => by simp⟩⟩
  rw [View.handed, if_pos hs]
  rfl

/-- A blocking routine whose call has both buffers and an accepted count. -/
theorem exchanges_of_returns {routine : BlockingRoutine} {call : BlockingCall}
    {after : List HostOp} {host : Host} {send recv : View} {count : Int} (direct : Bool)
    (hrun : routine (Host.start 0 m.nextAlloc) = .returns ((call, after), host))
    (hsend : call.sendbuf = some send) (hrecv : call.recvbuf = some recv)
    (hsendcount : call.sendcount = count) (hrecvcount : call.recvcount = count)
    (hcount : 0 ≤ count) (hs : send = m.sv.handed m.nextAlloc)
    (hr : recv = if direct then m.rv else m.rv.contiguousView m.recvAlloc)
    (htrace : runTrace host.trace memory = memory.handed m.nextAlloc m.sv)
    (hafter : ∀ h' : Heap α, runTrace after h' =
      if direct then h' else Heap.deepCopy h' m.rv (m.rv.contiguousView m.recvAlloc)) :
    ∃ p, blockingParty routine m memory = .returns p ∧
      Exchanges m memory count.toNat direct p := by
  have hneg : ¬ (count < 0) := Int.not_lt.mpr hcount
  rw [blockingParty_of_returns memory hrun, hsendcount, hrecvcount, hsend, hrecv]
  simp only [hneg, or_self, if_false, partyOf]
  exact ⟨_, rfl, htrace, by rw [hs], by rw [hr], hafter⟩

/-- What a routine that accepts its views brings, and how the result
arrives on a process that has one. -/
theorem party_returns (k : ReductionRoutine) (comm : MpiComm) (rank : Nat) (hacc : k.Accepts m)
    (h : 0 ≤ CInt.ofSize m.sv.size) : ∃ p direct, k.party comm rank m memory = .returns p ∧
      Exchanges m memory (CInt.ofSize m.sv.size).toNat direct p ∧
      (k.receives rank = true → direct = m.rv.isContiguous) := by
  cases k with
  | reduce op root =>
    obtain ⟨host, hrun, htrace⟩ := reduce_eq α m op root rank comm
    obtain ⟨p, hp, hexchanges⟩ := exchanges_of_returns memory _ hrun rfl rfl rfl rfl h rfl rfl
      (htrace memory) (runTrace_afterReceive _ _ _)
    refine ⟨p, _, hp, hexchanges, fun hrank => ?_⟩
    have hrank : rank = root := by simpa [receives] using hrank
    simp [receivesDirectly, hrank]
  | allreduce op =>
    obtain ⟨hs, hr, hsize⟩ := hacc
    obtain ⟨p, hp, hexchanges⟩ := exchanges_of_returns memory true
      (allreduce_eq hs hr hsize op comm _) rfl rfl rfl rfl h (if_pos hs).symm rfl
      (if_pos hs).symm fun _ => rfl
    exact ⟨p, true, hp, hexchanges, fun _ => hr.symm⟩
  | allreduceOn op =>
    obtain ⟨hs, hr, hsize⟩ := hacc
    obtain ⟨p, hp, hexchanges⟩ := exchanges_of_returns memory true
      (allreduceOn_eq hs hr hsize op comm _) rfl rfl rfl rfl h (if_pos hs).symm rfl
      (if_pos hs).symm fun _ => rfl
    exact ⟨p, true, hp, hexchanges, fun _ => hr.symm⟩
  | iallreduce op =>
    obtain ⟨hs, hr⟩ := hacc
    obtain ⟨p, hp, hexchanges⟩ := iallreduce_returns memory hs hr op comm h
    exact ⟨p, true, hp, hexchanges, fun _ => hr.symm⟩

/-- MPI rejects a count that has become negative. -/
theorem party_aborts (k : ReductionRoutine) (comm : MpiComm) (rank : Nat) (hacc : k.Accepts m)
    (h : CInt.ofSize m.sv.size < 0) : k.party comm rank m memory = .aborts := by
  cases k with
  | reduce op root =>
    obtain ⟨host, hrun, _⟩ := reduce_eq α m op root rank comm
    rw [party, blockingParty_of_returns memory hrun]
    exact if_pos (.inl h)
  | allreduce op =>
    obtain ⟨hs, hr, hsize⟩ := hacc
    rw [party, blockingParty_of_returns memory (allreduce_eq hs hr hsize op comm _)]
    exact if_pos (.inl h)
  | allreduceOn op =>
    obtain ⟨hs, hr, hsize⟩ := hacc
    rw [party, blockingParty_of_returns memory (allreduceOn_eq hs hr hsize op comm _)]
    exact if_pos (.inl h)
  | iallreduce op =>
    have hneg : ¬ 0 ≤ CInt.ofSize m.sv.size := Int.not_le.mpr h
    refine asyncParty_aborts (f := fun r =>
      ((Request.new r).extendViewLifetime m.sv).extendViewLifetime m.rv) memory
      (iallreduce_eq hacc.1 hacc.2 op comm (Host.start 0 m.nextAlloc)) ?_
    simp [MpiCall.validCounts, iallreduceCall, hneg]

end ReductionRoutine

end Parties

/-! ## §2 `ireduce` -/

section Ireduce

variable (op : MpiOp) {root : Nat} (comm : MpiComm) {exts : List Nat} {members : List Member}
  {m₀ : Member}

/-- The root has the result in its receive view, and no other cell of any
process's user has changed. -/
def ReducesIntoRv (op : α → α → α) (root : Nat) (members : List Member)
    (memory : Nat → Heap α) (heaps : List (Heap α)) : Prop :=
  ReducesElementwise op (· == root) members memory heaps ∧
    ∀ q m, members[q]? = some m → ∃ h, heaps[q]? = some h ∧
      ∀ c : Cell, c.1 < m.nextAlloc → (q = root → ¬ m.rv.Elem c) → h c = memory q c

/-- Views of rank 1 at most travel in one order. -/
theorem route_order_of_rank_le_one {v : View} (h : v.extents.length ≤ 1) :
    v.route.order = Layout.layoutRight.indices v.extents := by
  unfold View.route
  split
  · rename_i hc
    exact View.memoryIndices_of_rank_le_one h hc
  · exact View.indices_of_rank_le_one h _ _

/-- The views of a collective of `ireduce`: all of the same extents, of rank
1 at most, the elements of the root's receive view distinct from each other
and from those of its send view. -/
structure LineReduction (exts : List Nat) (members : List Member) (m₀ : Member) : Prop where
  rank : exts.length ≤ 1
  sends : ∀ m ∈ members, m.sv.extents = exts
  receives : m₀.rv.extents = exts
  distinct : m₀.rv.elements.Nodup
  disjoint : ∀ c, m₀.sv.Elem c → ¬ m₀.rv.Elem c
  oldSend : m₀.sv.alloc < m₀.nextAlloc
  oldRecv : m₀.rv.alloc < m₀.nextAlloc

theorem LineReduction.size (hline : LineReduction exts members m₀) {m : Member}
    (hm : m ∈ members) : m.sv.size = exts.prod := by
  rw [View.size, hline.sends m hm]

theorem wired_ireduce (hroot : members[root]? = some m₀) (hline : LineReduction exts members m₀)
    (hcount : 0 ≤ CInt.ofSize exts.prod) (memory : Nat → Heap α) :
    Wired (ireduceParty op root comm) (· == root) (fun m => m.sv.route.order)
      (fun m => m.rv.route) (CInt.ofSize exts.prod).toNat members memory := by
  refine wired_of_exchanges (fun r m hm => ?_) (fun m hm => ?_) (fun r m hm hr => ?_)
  · have hsize := hline.size (List.mem_of_getElem? hm)
    obtain ⟨p, hp, hexchanges⟩ := ireduceParty_returns (memory r) op root comm r (m := m)
      (by rwa [hsize])
    rw [hsize] at hexchanges
    refine ⟨p, _, hp, hexchanges, fun hr => ?_⟩
    have hr : r = root := by simpa using hr
    simp [receivesDirectly, hr]
  · refine ⟨?_, View.nodup_elements_of_rank_le_one ?_⟩
    · rw [hline.size hm]
      exact CInt.toNat_ofSize_le _
    · rw [hline.sends m hm]
      exact hline.rank
  · have hr : r = root := by simpa using hr
    subst hr
    have hm₀ : m = m₀ := Option.some.inj (hm.symm.trans hroot)
    subst hm₀
    refine ⟨?_, hline.distinct, hline.oldRecv⟩
    rw [View.size, hline.receives]
    exact CInt.toNat_ofSize_le _

/-- On every process no other cell of the user has changed. -/
theorem ireduce_frame (hroot : members[root]? = some m₀) (hline : LineReduction exts members m₀)
    (hcount : 0 ≤ CInt.ofSize exts.prod) {op' : α → α → α} (c : Combiner op')
    (memory : Nat → Heap α) : ∃ heaps,
    runCollective (ireduceParty op root comm) (· == root) c members memory = .returns heaps ∧
      ∀ q m, members[q]? = some m → ∃ h, heaps[q]? = some h ∧
        ∀ c : Cell, c.1 < m.nextAlloc → (q = root → ¬ m.rv.Elem c) → h c = memory q c := by
  have hne : members ≠ [] := List.ne_nil_of_mem (List.mem_of_getElem? hroot)
  obtain ⟨heaps, hrun, hheaps⟩ :=
    runCollective_returns (wired_ireduce op comm hroot hline hcount memory) hne c
  refine ⟨heaps, hrun, fun q m hm => ?_⟩
  obtain ⟨h, p, hh, hp, hdelivered, hidle⟩ := hheaps q m hm
  refine ⟨h, hh, fun cell hcell hrv => ?_⟩
  by_cases hq : q = root
  · exact (hdelivered (by simpa using hq)).frame cell (hrv hq) hcell
  · have hsize : m.sv.size = exts.prod := by
      rw [View.size, hline.sends m (List.mem_of_getElem? hm)]
    obtain ⟨p', hp', hexchanges⟩ := ireduceParty_returns (memory q) op root comm q (m := m)
      (by rwa [hsize])
    cases hp.symm.trans hp'
    have hdirect : receivesDirectly q root m.rv = true := by simp [receivesDirectly, hq]
    rw [hdirect] at hexchanges
    rw [hidle (by simpa using hq)]
    exact hexchanges.idle_direct hcell

/-- The collective does so for every operator, grouping and memory. -/
def AlwaysReducesIntoRv (α : Type) (op : MpiOp) (root : Nat) (comm : MpiComm)
    (members : List Member) : Prop :=
  ∀ (op' : α → α → α) [Std.Associative op'] (c : Combiner op') (memory : Nat → Heap α),
    (runCollective (ireduceParty op root comm) (· == root) c members memory).Meets
      (ReducesIntoRv op' root members memory)

/-- A count that wraps to one that MPI accepts. -/
theorem not_reduces_of_wrap [Nontrivial α] (hroot : members[root]? = some m₀)
    (hline : LineReduction exts members m₀) (hlarge : 2147483648 ≤ exts.prod)
    (hcount : 0 ≤ CInt.ofSize exts.prod) : ¬ AlwaysReducesIntoRv α op root comm members := by
  intro hall
  have helementwise : AlwaysElementwise α (ireduceParty op root comm) (· == root) members := by
    intro op' _ c memory
    obtain ⟨heaps, hrun, _⟩ := ireduce_frame op comm hroot hline hcount c memory
    have hmeets := hall op' c memory
    rw [hrun] at hmeets ⊢
    exact hmeets.1
  refine not_elementwise_of_count (wired_ireduce op comm hroot hline hcount) hroot (by simp)
    ?_ ?_ hline.oldSend (fun _ => hline.disjoint) helementwise
  · rw [View.size, hline.receives]
    have hwraps := mt (CInt.ofSize_eq_self_iff exts.prod).mp (Nat.not_lt.mpr hlarge)
    have := CInt.ofSize_le exts.prod
    omega
  · rw [hline.receives, hline.sends m₀ (List.mem_of_getElem? hroot)]

/-- With views of the same extents the root ends up with the reduction at
each index, and nothing else of any user changes, for every operator and
contents, exactly when the count fits `int`, or is one that MPI rejects. -/
theorem ireduce_reduces_iff [Nontrivial α] (hroot : members[root]? = some m₀)
    (hline : LineReduction exts members m₀) :
    AlwaysReducesIntoRv α op root comm members ↔
      exts.prod < 2147483648 ∨ CInt.ofSize exts.prod < 0 := by
  have hne : members ≠ [] := List.ne_nil_of_mem (List.mem_of_getElem? hroot)
  constructor
  · intro hall
    by_contra hnot
    push Not at hnot
    exact not_reduces_of_wrap op comm hroot hline hnot.1 hnot.2 hall
  · rintro (hfits | hneg) op' _ c memory
    · have hself := CInt.ofSize_of_lt hfits
      have hcount : 0 ≤ CInt.ofSize exts.prod := by omega
      obtain ⟨heaps, hrun, hframe⟩ := ireduce_frame op comm hroot hline hcount c memory
      have helementwise := elementwise_of_orders
        (wired_ireduce op comm hroot hline hcount memory) hne (fun q m' hm' hq => ?_) c
      · rw [hrun] at helementwise ⊢
        exact ⟨helementwise, hframe⟩
      · have hq : q = root := by simpa using hq
        subst hq
        have hm₀ : m' = m₀ := Option.some.inj (hm'.symm.trans hroot)
        subst hm₀
        refine ⟨by rw [View.size, hline.receives, hself, Int.toNat_natCast], fun m hm => ?_⟩
        rw [route_order_of_rank_le_one (by rw [hline.sends m hm]; exact hline.rank),
          route_order_of_rank_le_one (by rw [hline.receives]; exact hline.rank),
          hline.sends m hm, hline.receives]
    · -- MPI rejects the count on every process
      have haborts : ∀ m ∈ members, ireduceParty op root comm 0 m (memory 0) = .aborts :=
        fun m hm => ireduceParty_aborts _ op root comm 0 (by rwa [hline.size hm])
      rw [runCollective_aborts hne haborts c]
      trivial

end Ireduce

/-- A process with two views of `n` elements, `stride` apart. -/
def lineMember (n stride : Nat) : Member where
  sv := .line 0 0 n stride
  rv := .line 1 0 n stride
  nextAlloc := 2

theorem lineMember_disjoint (n stride : Nat) (c : Cell) (h : (lineMember n stride).sv.Elem c) :
    ¬ (lineMember n stride).rv.Elem c := by
  obtain ⟨_, _, rfl⟩ := h
  rintro ⟨_, _, heq⟩
  cases (Prod.mk.inj heq).1

/-- A contiguous and a strided send view, and a strided receive view at the
root. -/
theorem ireduce_reduces_strided :
    AlwaysReducesIntoRv Nat 0 1 0 [lineMember 3 1, lineMember 3 2] := by
  have hline : LineReduction [3] [lineMember 3 1, lineMember 3 2] (lineMember 3 2) :=
    ⟨by decide, by simp [lineMember, View.line], rfl, by decide, lineMember_disjoint 3 2,
      by decide, by decide⟩
  have hroot : [lineMember 3 1, lineMember 3 2][1]? = some (lineMember 3 2) := rfl
  exact (ireduce_reduces_iff 0 0 hroot hline).mpr (.inl (by decide))

/-- One process reduces contiguous views of 2^32 elements: MPI is told to
reduce none. -/
theorem ireduce_loses_elements :
    ¬ ∀ (op : MpiOp) (root : Nat) (comm : MpiComm) (exts : List Nat) (members : List Member)
      (m₀ : Member), members[root]? = some m₀ → LineReduction exts members m₀ →
      AlwaysReducesIntoRv Nat op root comm members := by
  intro hall
  have hdistinct : ∀ n, (lineMember n 1).rv.elements.Nodup := fun n => by
    have hbuffer := View.buffer_eq_elements (v := (lineMember n 1).rv) (Nat.le_refl 1)
      (View.isContiguous_line 1 0 n)
    rw [← hbuffer]
    exact View.nodup_buffer _ _
  have hline : ∀ n, LineReduction [n] [lineMember n 1] (lineMember n 1) := fun n =>
    ⟨Nat.le_refl 1, by simp [lineMember, View.line], rfl, hdistinct n, lineMember_disjoint n 1,
      Nat.zero_lt_two, Nat.one_lt_two⟩
  have hroot : ∀ n, [lineMember n 1][0]? = some (lineMember n 1) := fun _ => rfl
  have hprod : [4294967296].prod = 4294967296 := by simp
  refine not_reduces_of_wrap 0 0 (hroot 4294967296) (hline 4294967296) ?_ ?_
    (hall 0 0 0 _ _ _ (hroot 4294967296) (hline 4294967296))
  · rw [hprod]
    omega
  · rw [hprod]
    decide +kernel

/-! ## §3 The other reductions -/

section Reductions

/-- A view of a member: extents `exts`, a cell of its own for every index,
and allocated before. -/
structure Usable (exts : List Nat) (m : Member) (v : View) : Prop where
  extents : v.extents = exts
  distinct : v.elements.Nodup
  old : v.alloc < m.nextAlloc

/-- The views of a collective of `k`: accepted by the routine and of the
same extents, those of processes without a result apart. Where there are
too many elements for an `int`, receive views do not overlap send views. -/
structure ReductionViews (k : ReductionRoutine) (exts : List Nat) (members : List Member) :
    Prop where
  accepts : ∀ m ∈ members, k.Accepts m
  sends : ∀ m ∈ members, Usable exts m m.sv
  receives : ∀ q m, members[q]? = some m → k.receives q = true → Usable exts m m.rv
  disjoint : 2147483648 ≤ exts.prod → ∀ q m, members[q]? = some m → k.receives q = true →
    ∀ c, m.sv.Elem c → ¬ m.rv.Elem c

/-- The elements of all send views travel in the order in which they arrive:
the memory order of a contiguous view, the default layout of the execution
space for a packed one. -/
def OrdersAgree (receives : Nat → Bool) (members : List Member) : Prop :=
  ∀ q m', members[q]? = some m' → receives q = true →
    ∀ m ∈ members, m.sv.route.order = m'.rv.route.order

variable {k : ReductionRoutine} {exts : List Nat} {members : List Member} (comm : MpiComm)

namespace ReductionViews

theorem send_size (hviews : ReductionViews k exts members) {m : Member} (hm : m ∈ members) :
    m.sv.size = exts.prod := by
  rw [View.size, (hviews.sends m hm).extents]

theorem recv_size (hviews : ReductionViews k exts members) {q : Nat} {m : Member}
    (hm : members[q]? = some m) (hq : k.receives q = true) : m.rv.size = exts.prod := by
  rw [View.size, (hviews.receives q m hm hq).extents]

end ReductionViews

theorem wired_reduction (hviews : ReductionViews k exts members)
    (hcount : 0 ≤ CInt.ofSize exts.prod) (memory : Nat → Heap α) :
    Wired (k.party comm) k.receives (fun m => m.sv.route.order) (fun m => m.rv.route)
      (CInt.ofSize exts.prod).toNat members memory := by
  have hle := CInt.toNat_ofSize_le exts.prod
  refine wired_of_exchanges (fun r m hm => ?_) (fun m hm => ?_) (fun r m hm hr => ?_)
  · have hmem := List.mem_of_getElem? hm
    have hsize := hviews.send_size hmem
    have hreturns := k.party_returns (memory r) comm r (hviews.accepts m hmem) (by rwa [hsize])
    rwa [hsize] at hreturns
  · rw [hviews.send_size hm]
    exact ⟨hle, fun _ => (hviews.sends m hm).distinct⟩
  · have husable := hviews.receives r m hm hr
    rw [hviews.recv_size hm hr]
    exact ⟨hle, husable.distinct, husable.old⟩

/-- Two orders that differ, with all elements sent. -/
theorem not_elementwise_of_route [Nontrivial α] (hviews : ReductionViews k exts members)
    (hfits : exts.prod < 2147483648) {q : Nat} {m m' : Member} (hm : m ∈ members)
    (hm' : members[q]? = some m') (hq : k.receives q = true)
    (hdiff : m.sv.route.order ≠ m'.rv.route.order) :
    ¬ AlwaysElementwise α (k.party comm) k.receives members := by
  have hself := CInt.ofSize_of_lt hfits
  obtain ⟨r, hr⟩ := List.mem_iff_getElem?.mp hm
  have hrecv := hviews.receives q m' hm' hq
  refine not_elementwise_of_order (wired_reduction comm hviews (by omega))
    (fun m hm => (hviews.sends m hm).extents) ?_ (fun m hm => ?_) hr (hviews.sends m hm).distinct
    hm' hq hrecv.extents ?_ hdiff
  · rw [hself, Int.toNat_natCast]
  · rw [← (hviews.sends m hm).extents]
    exact m.sv.enumerates_route
  · rw [← hrecv.extents]
    exact m'.rv.enumerates_route

/-- With views of the same extents every process that has a result ends up
with the reduction at each index, for every operator and contents, exactly
when all elements are counted and travel in the order in which they arrive,
or the count is one that MPI rejects. -/
theorem reduction_elementwise_iff [Nontrivial α] (hviews : ReductionViews k exts members)
    {q₀ : Nat} {m₀ : Member} (hm₀ : members[q₀]? = some m₀) (hq₀ : k.receives q₀ = true) :
    AlwaysElementwise α (k.party comm) k.receives members ↔
      CInt.ofSize exts.prod < 0 ∨ exts.prod < 2147483648 ∧ OrdersAgree k.receives members := by
  have hmem₀ := List.mem_of_getElem? hm₀
  constructor
  · intro hall
    by_contra hnot
    push Not at hnot
    obtain ⟨hcount, horders⟩ := hnot
    by_cases hfits : exts.prod < 2147483648
    · refine horders hfits fun q m' hm' hq m hm => ?_
      by_contra hdiff
      exact not_elementwise_of_route comm hviews hfits hm hm' hq hdiff hall
    · -- the count wraps to a smaller one
      refine not_elementwise_of_count (wired_reduction comm hviews hcount) hm₀ hq₀ ?_ ?_
        (hviews.sends m₀ hmem₀).old
        (fun _ => hviews.disjoint (Nat.le_of_not_lt hfits) q₀ m₀ hm₀ hq₀) hall
      · rw [hviews.recv_size hm₀ hq₀]
        have hwraps := mt (CInt.ofSize_eq_self_iff exts.prod).mp hfits
        have := CInt.ofSize_le exts.prod
        omega
      · rw [(hviews.sends m₀ hmem₀).extents, (hviews.receives q₀ m₀ hm₀ hq₀).extents]
  · rintro (hneg | ⟨hfits, horders⟩) op _ c memory
    · -- MPI rejects the count on every process
      have haborts : ∀ m ∈ members, k.party comm 0 m (memory 0) = .aborts := fun m hm =>
        k.party_aborts _ comm 0 (hviews.accepts m hm) (by rwa [hviews.send_size hm])
      rw [runCollective_aborts (List.ne_nil_of_mem hmem₀) haborts c]
      trivial
    · have hself := CInt.ofSize_of_lt hfits
      refine elementwise_of_orders (wired_reduction comm hviews (by omega) memory)
        (List.ne_nil_of_mem hmem₀) (fun q m' hm' hq => ⟨?_, horders q m' hm' hq⟩) c
      rw [hviews.recv_size hm' hq, hself, Int.toNat_natCast]

end Reductions

/-- A two by two view with these strides, on an execution space whose layout
is `LayoutRight`. -/
def square (alloc s t : Nat) : View where
  alloc := alloc
  base := 0
  extents := [2, 2]
  strides := [s, t]
  arrayLayout := .layoutRight
  managed := true
  rank_eq := rfl

/-- A member with a send view of strides `s` and `t` and a receive view of
strides `s'` and `t'`. -/
def squareMember (s t s' t' : Nat) : Member where
  sv := square 0 s t
  rv := square 1 s' t'
  nextAlloc := 2

/-- Rows and every other element of rows are reduced into every other
element of rows. -/
theorem reduction_elementwise_rows :
    AlwaysElementwise Nat ((ReductionRoutine.reduce 0 1).party 0)
      (ReductionRoutine.reduce 0 1).receives [squareMember 2 1 2 1, squareMember 8 2 8 2] := by
  have hroot : [squareMember 2 1 2 1, squareMember 8 2 8 2][1]? = some (squareMember 8 2 8 2) :=
    rfl
  have hviews : ReductionViews (.reduce 0 1) [2, 2]
      [squareMember 2 1 2 1, squareMember 8 2 8 2] := by
    refine ⟨fun _ _ => trivial, fun m hm => ?_, fun q m hm hq => ?_, fun hlarge => ?_⟩
    · rcases (by simpa using hm : m = squareMember 2 1 2 1 ∨ m = squareMember 8 2 8 2) with
        rfl | rfl
      · exact ⟨rfl, by decide, by decide⟩
      · exact ⟨rfl, by decide, by decide⟩
    · have hq : q = 1 := by simpa [ReductionRoutine.receives] using hq
      subst hq
      cases hroot.symm.trans hm
      exact ⟨rfl, by decide, by decide⟩
    · simp at hlarge
  refine (reduction_elementwise_iff 0 hviews hroot rfl).mpr
    (.inr ⟨by decide, fun q m' hm' hq m hm => ?_⟩)
  have hq : q = 1 := by simpa [ReductionRoutine.receives] using hq
  subst hq
  cases hroot.symm.trans hm'
  rcases (by simpa using hm : m = squareMember 2 1 2 1 ∨ m = squareMember 8 2 8 2) with
    rfl | rfl
  · decide
  · decide

/-- One process reduces columns into rows: the result is transposed. -/
theorem allreduce_transposes :
    ¬ ∀ (k : ReductionRoutine) (comm : MpiComm) (exts : List Nat) (members : List Member),
      ReductionViews k exts members →
      AlwaysElementwise Nat (k.party comm) k.receives members := by
  intro hall
  have hviews : ReductionViews (.allreduce 0) [2, 2] [squareMember 1 2 2 1] := by
    refine ⟨fun m hm => ?_, fun m hm => ?_, fun q m hm _ => ?_, fun hlarge => ?_⟩
    · cases List.mem_singleton.mp hm
      exact ⟨by decide, by decide, by decide⟩
    · cases List.mem_singleton.mp hm
      exact ⟨rfl, by decide, by decide⟩
    · cases List.mem_singleton.mp (List.mem_of_getElem? hm)
      exact ⟨rfl, by decide, by decide⟩
    · simp at hlarge
  exact not_elementwise_of_route 0 hviews (by decide) (List.mem_singleton.mpr rfl)
    (show [squareMember 1 2 2 1][0]? = _ from rfl) rfl (by decide)
    (hall (.allreduce 0) 0 _ _ hviews)

end KokkosComm.Mpi
