/-
KokkosComm.Mpi.FencingTheorems — no MPI call races with the work of a
space, and no request leaves an unpacking copy behind.

§1 the non-blocking routines are their parts before, at and after the MPI
call. §2 every routine fences its space last before it calls MPI, so
nothing is pending there then, whatever was before and however the space
works it off; and the memory is what `runTrace` says.
§3 is an invariant of programs with spaces: no copy of a routine's callback
is pending between calls. A callback of a routine fences after its copy;
callbacks of the user may do what they like.
-/
import KokkosComm.Mpi.Fencing
import KokkosComm.Mpi.ProgramTheorems

namespace KokkosComm.Mpi

open Routine WorkQueue

/-! ## §1 The parts of a routine -/

section Parts

variable {h : Host}

theorem isendImpl_parts (sv : View) (dest tag : Int) (mode : CommunicationMode) (comm : MpiComm) :
    isendImpl sv dest tag mode comm = do
      let (call, wrap) ← isendUpToMpi sv dest tag mode comm
      let request ← start call
      return wrap request := by
  funext h
  unfold isendUpToMpi
  cases hc : sv.isContiguous with
  | true =>
    rw [isendImpl_contiguous hc]
    simp
  | false =>
    rw [isendImpl_packed hc]
    simp

theorem recvExecute_parts (rv : View) (src : Int) (comm : MpiComm) :
    recvExecute rv src comm = do
      let (call, wrap) ← recvUpToMpi rv src comm
      let request ← start call
      return wrap request := by
  funext h
  unfold recvUpToMpi
  cases hc : rv.isContiguous with
  | true =>
    rw [recvExecute_contiguous hc]
    simp
  | false =>
    rw [recvExecute_packed hc]
    simp

theorem ireduce_parts (sv rv : View) (op : MpiOp) (rank root : Int) (comm : MpiComm) :
    ireduce sv rv op rank root comm = do
      let (call, wrap) ← ireduceUpToMpi sv rv op rank root comm
      let request ← start call
      popRegion
      return wrap request := by
  funext h
  unfold ireduceUpToMpi
  cases hc : sv.isContiguous with
  | true =>
    by_cases hroot : rank = root ∧ rv.isContiguous = false
    · rw [ireduce_unpack hc hroot]
      simp [if_pos hroot, Host.log]
    · rw [ireduce_direct hc hroot]
      simp [if_neg hroot]
  | false =>
    by_cases hroot : rank = root ∧ rv.isContiguous = false
    · rw [ireduce_packed_unpack hc hroot]
      simp [if_pos hroot, Host.log, Host.allocated, Host.packedSend]
    · rw [ireduce_packed hc hroot]
      simp [if_neg hroot, Host.log, Host.packedSend]

theorem contiguousCollective_parts (region failure : String) (sv rv : View) (call : MpiCall) :
    contiguousCollective region failure sv rv call = do
      let (call, wrap) ← contiguousUpToMpi region failure sv rv call
      let request ← start call
      popRegion
      return wrap request := by
  funext h
  unfold contiguousCollective contiguousUpToMpi
  cases sv.isContiguous <;> cases rv.isContiguous <;> simp

theorem ibroadcast_parts (v : View) (root : Int) (comm : MpiComm) :
    ibroadcast v root comm = do
      let (call, wrap) ← ibroadcastUpToMpi v root comm
      let request ← start call
      popRegion
      return wrap request := by
  funext h
  unfold ibroadcast ibroadcastUpToMpi
  cases v.isContiguous <;> simp

/-- A non-blocking routine is what it does up to its MPI call, the call,
and what it does after it. -/
theorem AsyncCall.run_eq_parts (c : AsyncCall) : c.run = do
    let (call, wrap) ← c.upToMpi
    let request ← start call
    c.afterMpi
    return wrap request := by
  cases c with
  | isendImpl sv dest tag mode comm => exact isendImpl_parts sv dest tag mode comm
  | recvExecute rv src comm => exact recvExecute_parts rv src comm
  | ireduce sv rv op rank root comm => exact ireduce_parts sv rv op rank root comm
  | iallreduce sv rv op comm => exact contiguousCollective_parts _ _ sv rv _
  | ialltoall sv rv count comm => exact contiguousCollective_parts _ _ sv rv _
  | iallgather sv rv comm => exact contiguousCollective_parts _ _ sv rv _
  | ibroadcast v root comm => exact ibroadcast_parts v root comm

end Parts

/-! ## §2 Nothing is pending at the MPI call -/

variable {κ : Type}

/-- The last action on the space was a fence. -/
def Host.Fenced (κ : Type) (h : Host) : Prop :=
  ∃ es : List (Event (Task κ)), spaceEvents h.trace = es ++ [.fence]

theorem spaceEvents_log (h : Host) (a : HostOp) :
    (spaceEvents (h.log a).trace : List (Event (Task κ))) =
      spaceEvents h.trace ++ (HostOp.event a).toList := by
  rw [Host.log, spaceEvents, List.filterMap_append]
  cases ha : (HostOp.event a : Option (Event (Task κ))) <;> simp [spaceEvents, ha]

namespace Routine

variable {α β : Type}

/-- The routine leaves its space fenced. -/
def Leaves (κ : Type) (r : Routine α) : Prop :=
  ∀ h a h', r h = .returns (a, h') → h'.Fenced κ

/-- The routine enqueues nothing on a space that is fenced. -/
def Stays (κ : Type) (r : Routine α) : Prop :=
  ∀ h a h', r h = .returns (a, h') → h.Fenced κ → h'.Fenced κ

section Rules

variable {x : Routine α} {f : α → Routine β}

theorem Leaves.then (hx : Leaves κ x) (hf : ∀ a, Stays κ (f a)) : Leaves κ (x >>= f) := by
  intro h b h' hrun
  obtain ⟨⟨a, h₁⟩, hx₁, hf₁⟩ := Outcome.bind_eq_returns.mp hrun
  exact hf a h₁ b h' hf₁ (hx h a h₁ hx₁)

theorem Leaves.after (x : Routine α) (hf : ∀ a, Leaves κ (f a)) : Leaves κ (x >>= f) := by
  intro h b h' hrun
  obtain ⟨⟨a, h₁⟩, _, hf₁⟩ := Outcome.bind_eq_returns.mp hrun
  exact hf a h₁ b h' hf₁

theorem Stays.then (hx : Stays κ x) (hf : ∀ a, Stays κ (f a)) : Stays κ (x >>= f) := by
  intro h b h' hrun hfenced
  obtain ⟨⟨a, h₁⟩, hx₁, hf₁⟩ := Outcome.bind_eq_returns.mp hrun
  exact hf a h₁ b h' hf₁ (hx h a h₁ hx₁ hfenced)

theorem Leaves.ite {p : Prop} [Decidable p] {x y : Routine α} (hx : p → Leaves κ x)
    (hy : ¬ p → Leaves κ y) : Leaves κ (if p then x else y) := by
  split
  · rename_i h
    exact hx h
  · rename_i h
    exact hy h

theorem leaves_fence (label : String) : Leaves κ (fence label) := by
  intro h a h' hrun
  cases hrun
  exact ⟨spaceEvents h.trace, spaceEvents_log h _⟩

theorem stays_pure (a : α) : Stays κ (pure a : Routine α) := by
  intro h b h' hrun hfenced
  cases hrun
  exact hfenced

theorem stays_liftM (y : Outcome α) : Stays κ (liftM y : Routine α) := by
  intro h b h' hrun hfenced
  obtain ⟨a, _, hret⟩ := Outcome.bind_eq_returns.mp hrun
  cases hret
  exact hfenced

theorem stays_pushRegion (name : String) : Stays κ (pushRegion name) := by
  intro h b h' hrun hfenced
  cases hrun
  simpa [Host.Fenced, spaceEvents_log, HostOp.event] using hfenced

/-- A check, then more. -/
theorem Stays.check (y : Outcome Unit) {r : Routine α} (hr : Stays κ r) :
    Stays κ (do y; r) := (stays_liftM y).then fun _ => hr

theorem Leaves.void (hx : Leaves κ x) : Leaves κ x.void := hx.then fun _ => stays_pure ()

end Rules

end Routine

section Fenced

theorem leaves_isend (sv : View) (dest tag : Int) (mode : CommunicationMode) (comm : MpiComm) :
    Leaves κ (isendUpToMpi sv dest tag mode comm) := by
  refine Leaves.ite (fun _ => ?_) fun _ => ?_
  · exact (leaves_fence _).then fun _ => stays_pure _
  · refine .after _ fun args => ?_
    exact (leaves_fence _).then fun _ => stays_pure _

theorem leaves_irecv (rv : View) (src : Int) (comm : MpiComm) :
    Leaves κ (recvUpToMpi rv src comm) := by
  refine Leaves.ite (fun _ => ?_) fun _ => ?_
  · exact (leaves_fence _).then fun _ => stays_pure _
  · refine .after _ fun args => ?_
    exact (leaves_fence _).then fun _ => stays_pure _

/-- On the branch that packs `sv` only, nothing is enqueued after the fence
that follows the packing. -/
theorem leaves_ireduce (sv rv : View) (op : MpiOp) (rank root : Int) (comm : MpiComm) :
    Leaves κ (ireduceUpToMpi sv rv op rank root comm) := by
  refine .after _ fun _ => .ite (fun _ => ?_) fun _ => .after _ fun pkdSv => ?_
  · refine .ite (fun _ => .after _ fun pkdRv => ?_) fun _ => ?_
    · exact (leaves_fence _).then fun _ => stays_pure _
    · exact (leaves_fence _).then fun _ => stays_pure _
  · -- without an unpacking, the fence after the packing is the last action
    by_cases hroot : rank = root ∧ rv.isContiguous = false
    · simp only [if_pos hroot]
      refine .after _ fun _ => .after _ fun pkdRv => ?_
      exact (leaves_fence _).then fun _ => stays_pure _
    · simp only [if_neg hroot]
      exact (leaves_fence _).then fun _ => stays_pure _

theorem leaves_contiguous (region failure : String) (sv rv : View) (call : MpiCall) :
    Leaves κ (contiguousUpToMpi region failure sv rv call) := by
  refine .after _ fun _ => .after _ fun _ => ?_
  exact (leaves_fence _).then fun _ => stays_pure _

theorem leaves_ibroadcast (v : View) (root : Int) (comm : MpiComm) :
    Leaves κ (ibroadcastUpToMpi v root comm) := by
  refine .after _ fun _ => .after _ fun _ => ?_
  exact (leaves_fence _).then fun _ => stays_pure _

theorem leaves_async (c : AsyncCall) : Leaves κ c.upToMpi := by
  cases c with
  | isendImpl sv dest tag mode comm => exact leaves_isend sv dest tag mode comm
  | recvExecute rv src comm => exact leaves_irecv rv src comm
  | ireduce sv rv op rank root comm => exact leaves_ireduce sv rv op rank root comm
  | iallreduce sv rv op comm => exact leaves_contiguous _ _ sv rv _
  | ialltoall sv rv count comm => exact leaves_contiguous _ _ sv rv _
  | iallgather sv rv comm => exact leaves_contiguous _ _ sv rv _
  | ibroadcast v root comm => exact leaves_ibroadcast v root comm

namespace Blocking

theorem leaves_send (sv : View) (dest tag : Int) (mode : CommunicationMode) (comm : MpiComm) :
    Leaves κ (send sv dest tag mode comm) := by
  refine .after _ fun _ => .ite (fun _ => ?_) fun _ => .after _ fun args => ?_
  · exact (leaves_fence _).then fun _ => stays_pure _
  · exact (leaves_fence _).then fun _ => stays_pure _

theorem leaves_recv (rv : View) (src tag : Int) (comm : MpiComm) :
    Leaves κ (recv rv src tag comm) := by
  refine .after _ fun _ => .ite (fun _ => .after _ fun args => ?_) fun _ => ?_
  · exact (leaves_fence _).then fun _ => stays_pure _
  · exact (leaves_fence _).then fun _ => stays_pure _

theorem leaves_reduce (sv rv : View) (op : MpiOp) (rank root : Int) (comm : MpiComm) :
    Leaves κ (reduce sv rv op rank root comm) := by
  refine .after _ fun _ => .ite (fun _ => .after _ fun sendArgs => ?_) fun _ => ?_
  · refine .ite (fun _ => .after _ fun recvArgs => ?_) fun _ => ?_
    · exact (leaves_fence _).then fun _ => stays_pure _
    · exact (leaves_fence _).then fun _ => stays_pure _
  · refine .ite (fun _ => .after _ fun recvArgs => ?_) fun _ => ?_
    · exact (leaves_fence _).then fun _ => stays_pure _
    · exact (leaves_fence _).then fun _ => stays_pure _

/-! A routine on a space calls the one without a space after its fence;
that one enqueues nothing. -/

theorem stays_allreduceOn (sv rv : View) (op : MpiOp) (comm : MpiComm) :
    Stays κ (allreduceOn sv rv op comm) :=
  (stays_pushRegion _).then fun _ => .check _ (.check _ (.check _ (stays_pure _)))

theorem leaves_allreduce (sv rv : View) (op : MpiOp) (comm : MpiComm) :
    Leaves κ (allreduce sv rv op comm) := by
  refine .after _ fun _ => .after _ fun _ => (leaves_fence _).then fun _ => ?_
  exact (stays_allreduceOn sv rv op comm).then fun _ => stays_pure _

theorem stays_allreduceOnInPlace (v : View) (op : MpiOp) (comm : MpiComm) :
    Stays κ (allreduceOnInPlace v op comm) :=
  (stays_pushRegion _).then fun _ => .check _ (stays_pure _)

theorem leaves_allreduceInPlace (v : View) (op : MpiOp) (comm : MpiComm) :
    Leaves κ (allreduceInPlace v op comm) := by
  refine .after _ fun _ => .after _ fun _ => (leaves_fence _).then fun _ => ?_
  exact (stays_allreduceOnInPlace v op comm).then fun _ => stays_pure _

theorem stays_scanOn (fn : MpiOp → BlockingFn) (name : String) (sv rv : View) (op : MpiOp)
    (comm : MpiComm) : Stays κ (scanOn fn name sv rv op comm) :=
  (stays_pushRegion _).then fun _ => .check _ (.check _ (.check _ (stays_pure _)))

theorem leaves_scan (fn : MpiOp → BlockingFn) (name : String) (sv rv : View) (op : MpiOp)
    (comm : MpiComm) : Leaves κ (scan fn name sv rv op comm) := by
  refine .after _ fun _ => .after _ fun _ => (leaves_fence _).then fun _ => ?_
  exact (stays_scanOn fn name sv rv op comm).then fun _ => stays_pure _

theorem stays_allgatherOn (sv rv : View) (comm : MpiComm) :
    Stays κ (allgatherOn sv rv comm) :=
  (stays_pushRegion _).then fun _ => .check _ (.check _ (stays_pure _))

theorem leaves_allgather (sv rv : View) (comm : MpiComm) :
    Leaves κ (allgather sv rv comm) := by
  refine .after _ fun _ => .after _ fun _ => (leaves_fence _).then fun _ => ?_
  exact (stays_allgatherOn sv rv comm).then fun _ => stays_pure _

theorem leaves_allgatherInPlace (rv : View) (recvCount : UInt64) (comm : MpiComm) :
    Leaves κ (allgatherInPlace rv recvCount comm) := by
  refine .after _ fun _ => .after _ fun _ => ?_
  exact (leaves_fence _).then fun _ => stays_pure _

/-- The checks of `alltoall` come after its fence. -/
theorem leaves_alltoall (sv : View) (sendCount : UInt64) (rv : View) (recvCount : UInt64)
    (size : Nat) (comm : MpiComm) :
    Leaves κ (alltoall sv sendCount rv recvCount size comm) := by
  refine .after _ fun _ => (leaves_fence _).then fun _ => ?_
  exact .check _ (.check _ (.check _ (stays_pure _)))

theorem leaves_alltoallInPlace (rv : View) (recvCount : UInt64) (size : Nat) (comm : MpiComm) :
    Leaves κ (alltoallInPlace rv recvCount size comm) := by
  refine .after _ fun _ => (leaves_fence _).then fun _ => ?_
  exact .check _ (.check _ (stays_pure _))

theorem stays_broadcastOn (v : View) (root : Int) (comm : MpiComm) :
    Stays κ (broadcastOn v root comm) :=
  (stays_pushRegion _).then fun _ => .check _ (stays_pure _)

theorem leaves_broadcast (v : View) (root : Int) (comm : MpiComm) :
    Leaves κ (broadcast v root comm) := by
  refine .after _ fun _ => (leaves_fence _).then fun _ => ?_
  exact (stays_broadcastOn v root comm).then fun _ => stays_pure _

end Blocking

theorem SpaceCall.leaves (c : SpaceCall) : Leaves κ c.upToMpi := by
  cases c with
  | async call => exact (leaves_async call).void
  | send sv dest tag mode comm => exact (Blocking.leaves_send sv dest tag mode comm).void
  | recv rv src tag comm => exact (Blocking.leaves_recv rv src tag comm).void
  | reduce sv rv op rank root comm =>
    exact (Blocking.leaves_reduce sv rv op rank root comm).void
  | allreduce sv rv op comm => exact (Blocking.leaves_allreduce sv rv op comm).void
  | allreduceInPlace v op comm => exact (Blocking.leaves_allreduceInPlace v op comm).void
  | inclusiveScan sv rv op comm => exact (Blocking.leaves_scan _ _ sv rv op comm).void
  | exclusiveScan sv rv op comm => exact (Blocking.leaves_scan _ _ sv rv op comm).void
  | allgather sv rv comm => exact (Blocking.leaves_allgather sv rv comm).void
  | allgatherInPlace rv recvCount comm =>
    exact (Blocking.leaves_allgatherInPlace rv recvCount comm).void
  | alltoall sv sendCount rv recvCount size comm =>
    exact (Blocking.leaves_alltoall sv sendCount rv recvCount size comm).void
  | alltoallInPlace rv recvCount size comm =>
    exact (Blocking.leaves_alltoallInPlace rv recvCount size comm).void
  | broadcast v root comm => exact (Blocking.leaves_broadcast v root comm).void

/-- However the space works on what is enqueued, nothing is pending when
MPI is called. -/
theorem SpaceCall.nothing_pending {c : SpaceCall} {nextOp : OpId} {nextAlloc : AllocId}
    {h : Host} (hrun : c.upToMpi (Host.start nextOp nextAlloc) = .returns ((), h))
    {es : List (Event (Task κ))} (hes : program es = spaceEvents h.trace) (q : List (Task κ)) :
    pending q es = [] := by
  obtain ⟨es', hfence⟩ := c.leaves _ _ _ hrun
  exact pending_eq_nil (hes.trans hfence) q

section Memory

variable {α : Type} {kernel : κ → Heap α → Heap α}

theorem runAll_spaceEvents (trace : List HostOp) (m : Heap α) :
    runAll (Task.run kernel) (tasks (spaceEvents trace)) m = runTrace trace m := by
  induction trace generalizing m with
  | nil => rfl
  | cons a trace ih =>
    cases a with
    | pushRegion name => exact ih m
    | popRegion => exact ih m
    | allocate label v => exact ih m
    | space c =>
      cases c with
      | deepCopy dst src => exact ih _
      | fence label => exact ih m
    | mpi o call => exact ih m

/-- The memory MPI finds is the one that each task of the user, and then
each copy of the routine, makes when it runs at once. -/
theorem Routine.Leaves.memory_at_mpi {β : Type} {r : Routine β} (hr : Leaves κ r)
    {nextOp : OpId} {nextAlloc : AllocId} {x : β} {h : Host}
    (hrun : r (Host.start nextOp nextAlloc) = .returns (x, h))
    {es : List (Event (Task κ))} (hes : program es = spaceEvents h.trace) (m : Heap α)
    (q : List (Task κ)) :
    exec (Task.run kernel) m q es =
      (runTrace h.trace (runAll (Task.run kernel) q m), []) := by
  obtain ⟨es', hfence⟩ := hr _ _ _ hrun
  have htrace : runTrace h.trace (runAll (Task.run kernel) q m) =
      runAll (Task.run kernel) (tasks (spaceEvents h.trace)) (runAll (Task.run kernel) q m) :=
    (runAll_spaceEvents h.trace _).symm
  rw [exec_of_fence (hes.trans hfence), htrace, hfence]
  simp

end Memory

end Fenced

/-! ## §3 Nothing is unpacked late -/

/-- The callback copies nothing, or fences after its copy. -/
def Callback.Settles (cb : Callback) : Prop :=
  cb.body = [] ∨ ∃ dst src label, cb.body = [.deepCopy dst src, .fence label]

def Request.Settles (r : Request Callback) : Prop := ∀ cb ∈ r.callbacks_, cb.Settles

@[simp] theorem settles_new (request : MpiRequest) : (Request.new request).Settles :=
  fun _ h => by cases h

@[simp] theorem settles_addCallback {r : Request Callback} {cb : Callback} :
    (r.addCallback cb).Settles ↔ r.Settles ∧ cb.Settles := by
  simp [Request.Settles, Request.addCallback, or_imp, forall_and]

@[simp] theorem settles_unpackCallback (rv packed : View) (label : String) :
    (unpackCallback rv packed label).Settles := .inr ⟨rv, packed, label, rfl⟩

@[simp] theorem settles_extendViewLifetime {r : Request Callback} {v : View} :
    (r.extendViewLifetime v).Settles ↔ r.Settles := by
  unfold Request.extendViewLifetime
  split
  · simp [Callback.Settles, Callback.keepAlive]
  · rfl

/-- What a routine yields when it returns. -/
def Routine.Yields {α : Type} (r : Routine α) (Q : α → Prop) : Prop :=
  ∀ h a h', r h = .returns (a, h') → Q a

section Yields

variable {α β : Type} {x : Routine α} {f : α → Routine β} {Q : β → Prop}

theorem Routine.Yields.after (x : Routine α) (hf : ∀ a, Yields (f a) Q) : Yields (x >>= f) Q := by
  intro h b h' hrun
  obtain ⟨⟨a, h₁⟩, _, hf₁⟩ := Outcome.bind_eq_returns.mp hrun
  exact hf a h₁ b h' hf₁

theorem Routine.Yields.ite {p : Prop} [Decidable p] {x y : Routine β} (hx : Yields x Q)
    (hy : Yields y Q) : Yields (if p then x else y) Q := by
  split
  · exact hx
  · exact hy

theorem Routine.yields_pure {b : β} (h : Q b) : Yields (pure b) Q := by
  intro h₁ b' h' hrun
  cases hrun
  exact h

end Yields

/-- The callbacks of the request that a routine will make. -/
def Pending.Settles (p : Pending) : Prop := ∀ request, (p.2 request).Settles

theorem yields_contiguous (region failure : String) (sv rv : View) (call : MpiCall) :
    Yields (contiguousUpToMpi region failure sv rv call) Pending.Settles :=
  .after _ fun _ => .after _ fun _ => .after _ fun _ => yields_pure fun _ => by simp

theorem AsyncCall.yields_settles (c : AsyncCall) : Yields c.upToMpi Pending.Settles := by
  cases c with
  | isendImpl sv dest tag mode comm =>
    refine .ite (.after _ fun _ => ?_) (.after _ fun args => .after _ fun _ => ?_)
    · exact yields_pure fun _ => by simp
    · exact yields_pure fun _ => by simp
  | recvExecute rv src comm =>
    refine .ite (.after _ fun _ => ?_) (.after _ fun args => .after _ fun _ => ?_)
    · exact yields_pure fun _ => by simp
    · exact yields_pure fun _ => by simp
  | ireduce sv rv op rank root comm =>
    refine .after _ fun _ => .ite (.ite ?_ ?_) (.after _ fun pkdSv => .after _ fun _ => .ite ?_ ?_)
    · exact .after _ fun _ => .after _ fun _ => yields_pure fun _ => by simp
    · exact .after _ fun _ => yields_pure fun _ => by simp
    · exact .after _ fun _ => .after _ fun _ => yields_pure fun _ => by simp
    · exact yields_pure fun _ => by simp
  | iallreduce sv rv op comm => exact yields_contiguous _ _ sv rv _
  | ialltoall sv rv count comm => exact yields_contiguous _ _ sv rv _
  | iallgather sv rv comm => exact yields_contiguous _ _ sv rv _
  | ibroadcast v root comm =>
    exact .after _ fun _ => .after _ fun _ => .after _ fun _ => yields_pure fun _ => by simp

/-- The callbacks a routine registers. -/
theorem AsyncCall.run_settles {c : AsyncCall} {h h' : Host} {req : Request Callback}
    (hrun : c.run h = .returns (req, h')) : req.Settles := by
  rw [c.run_eq_parts] at hrun
  obtain ⟨⟨p, h₁⟩, hup, hrun⟩ := Outcome.bind_eq_returns.mp hrun
  obtain ⟨⟨request, h₂⟩, _, hrun⟩ := Outcome.bind_eq_returns.mp hrun
  obtain ⟨⟨_, h₃⟩, _, hrun⟩ := Outcome.bind_eq_returns.mp hrun
  cases hrun
  exact c.yields_settles _ _ _ hup request

/-! ### Programs -/

namespace Program

variable {w w' : Program} {ret : Ret}

/-- One of the objects has the callback. -/
def Held (objs : ObjId → Option Object) (e : Entry) : Prop :=
  ∃ r o, objs r = some o ∧ e ∈ o.req.callbacks_

theorem held_update {objs : ObjId → Option Object} {r : ObjId} {v : Option Object} {e : Entry}
    (h : Held (Function.update objs r v) e) :
    (∃ o, v = some o ∧ e ∈ o.req.callbacks_) ∨ Held objs e := by
  obtain ⟨r', o, ho, he⟩ := h
  by_cases hr : r' = r
  · subst hr
    rw [Function.update_self] at ho
    exact .inl ⟨o, ho, he⟩
  · rw [Function.update_of_ne hr] at ho
    exact .inr ⟨r', o, ho, he⟩

/-- What a call does to the callbacks of a program: some are registered,
some run, and the others stay or move. -/
structure MovesCallbacks (w w' : Program) (fresh new : List Entry) : Prop where
  registered : w'.registered = w.registered ++ fresh
  ran : w'.ran = w.ran ++ new
  kept : ∀ e, Held w'.objs e → e ∈ fresh ∨ Held w.objs e
  old : ∀ e ∈ new, Held w.objs e
  tokens : ∀ e ∈ fresh, w.registered.length ≤ e.token ∧
    e.token < w.registered.length + fresh.length

section MovesCallbacks

/-- A call that neither registers nor runs a callback. -/
theorem MovesCallbacks.quiet (hreg : w'.registered = w.registered) (hran : w'.ran = w.ran)
    (hkept : ∀ e, Held w'.objs e → Held w.objs e) : MovesCallbacks w w' [] [] where
  registered := by simp [hreg]
  ran := by simp [hran]
  kept := fun e he => .inr (hkept e he)
  old := fun _ he => by cases he
  tokens := fun _ he => by cases he

theorem entries_tokens {rid : Nat} {op : MpiRequest} {cbs : List Callback} {e : Entry}
    (h : e ∈ w.entries rid op cbs) : w.registered.length ≤ e.token ∧
      e.token < w.registered.length + (w.entries rid op cbs).length := by
  obtain ⟨i, hi, rfl⟩ := List.mem_mapIdx.mp h
  simp [entries, hi]

theorem MovesCallbacks.execute (w : Program) (lib : Library) (cleared : List ObjId)
    (null : Bool) :
    MovesCallbacks w (w.execute lib cleared null) [] (cleared.flatMap w.callbacksAt) where
  registered := by simp
  ran := by simp
  kept := by
    rintro e ⟨r, o', ho', he⟩
    obtain ⟨o, ho, ⟨_, rfl⟩ | ⟨_, rfl⟩⟩ := execute_objs_eq_some ho'
    · cases he
    · exact .inr ⟨r, o', ho, he⟩
  old := by
    intro e he
    obtain ⟨r, _, he⟩ := List.mem_flatMap.mp he
    cases ho : w.objs r with
    | none => simp [callbacksAt, ho] at he
    | some o => exact ⟨r, o, ho, by rwa [callbacksAt_eq ho] at he⟩
  tokens := fun _ he => by cases he

theorem perform_launch_run {r : ObjId} {call : AsyncCall}
    (h : w.perform (.launch r call) = .returns (ret, w')) :
    ∃ req host, call.run (Host.start w.nextOp w.nextAlloc) = .returns (req, host) ∧
      MovesCallbacks w w' (w.entries w.nextRid req.request_ req.callbacks_) [] := by
  simp only [perform, launch] at h
  split at h
  swap
  · cases h
  obtain ⟨⟨req, host⟩, hrun, h⟩ := Outcome.bind_eq_returns.mp h
  cases h
  refine ⟨req, host, hrun, rfl, (List.append_nil _).symm, fun e he => ?_, by simp,
    fun e he => entries_tokens he⟩
  rcases held_update he with ⟨o, ho, hmem⟩ | he
  · obtain rfl := Option.some.inj ho
    exact .inl hmem
  · exact .inr he

/-- Every other call. -/
theorem perform_moves {a : Op} (ha : ∀ r call, a ≠ .launch r call)
    (h : w.perform a = .returns (ret, w')) : ∃ fresh new, MovesCallbacks w w' fresh new := by
  cases a with
  | construct r =>
    obtain ⟨_, rfl⟩ := perform_construct h
    refine ⟨[], [], .quiet rfl rfl fun e he => ?_⟩
    refine (held_update he).resolve_left ?_
    rintro ⟨o, ho, hmem⟩
    obtain rfl := Option.some.inj ho
    cases hmem
  | launch r call => exact absurd rfl (ha r call)
  | addCallback r cb =>
    obtain ⟨o, ho, rfl⟩ := perform_addCallback h
    refine ⟨_, [], rfl, (List.append_nil _).symm, fun e he => ?_, by simp,
      fun e he => entries_tokens he⟩
    rcases held_update he with ⟨o', ho', hmem⟩ | he
    · obtain rfl := Option.some.inj ho'
      rcases List.mem_append.mp hmem with hmem | hmem
      · exact .inr ⟨r, o, ho, hmem⟩
      · exact .inl hmem
    · exact .inr he
  | wait r =>
    obtain ⟨o, _, _, rfl⟩ := perform_wait h
    exact ⟨_, _, .execute w _ [r] true⟩
  | test r =>
    obtain ⟨o, _, ⟨_, _, rfl⟩ | ⟨_, _, rfl⟩⟩ := perform_test h
    · exact ⟨_, _, .execute w _ [r] true⟩
    · exact ⟨[], [], .quiet rfl rfl fun e he => he⟩
  | waitAll span =>
    obtain ⟨_, _, _, rfl⟩ := perform_waitAll h
    exact ⟨_, _, .execute w _ span false⟩
  | waitAny span pick =>
    obtain ⟨_, ⟨_, _, rfl⟩ | ⟨r, o, op, _, _, _, _, _, _, rfl⟩⟩ := perform_waitAny h
    · exact ⟨[], [], .quiet rfl rfl fun e he => he⟩
    · exact ⟨_, _, .execute w _ [r] false⟩
  | moveConstruct dst src =>
    obtain ⟨s, _, hs, rfl⟩ := perform_moveConstruct h
    refine ⟨[], [], .quiet rfl rfl fun e he => ?_⟩
    rcases held_update he with ⟨o, ho, hmem⟩ | he
    · obtain rfl := Option.some.inj ho
      exact ⟨src, s, hs, hmem⟩
    · refine (held_update he).resolve_left ?_
      rintro ⟨o, ho, hmem⟩
      obtain rfl := Option.some.inj ho
      cases hmem
  | moveAssign dst src =>
    obtain ⟨d, s, _, hs, hw⟩ := perform_moveAssign h
    have hleft : ∀ e, Held (Function.update w.objs src
        (some (s.leftBehind { s.req with callbacks_ := [] }))) e → Held w.objs e := by
      intro e he
      refine (held_update he).resolve_left ?_
      rintro ⟨o, ho, hmem⟩
      obtain rfl := Option.some.inj ho
      cases hmem
    rcases hw with ⟨_, rfl⟩ | ⟨_, rfl⟩
    · exact ⟨[], [], .quiet rfl rfl hleft⟩
    · refine ⟨[], [], .quiet rfl rfl fun e he => ?_⟩
      rcases held_update he with ⟨o, ho, hmem⟩ | he
      · obtain rfl := Option.some.inj ho
        exact ⟨src, s, hs, hmem⟩
      · exact hleft e he
  | destroy r =>
    obtain ⟨o, _, rfl⟩ := perform_destroy h
    refine ⟨[], [], .quiet rfl rfl fun e he => ?_⟩
    refine (held_update he).resolve_left ?_
    rintro ⟨o', ho', _⟩
    cases ho'
  | complete op =>
    obtain ⟨_, _, rfl⟩ := perform_complete h
    exact ⟨[], [], .quiet rfl rfl fun e he => he⟩
  | userAllocate =>
    rw [perform_userAllocate h]
    exact ⟨[], [], .quiet rfl rfl fun e he => he⟩
  | userCopy a =>
    rw [perform_userCopy h]
    exact ⟨[], [], .quiet rfl rfl fun e he => he⟩
  | userDrop a =>
    rw [perform_userDrop h]
    exact ⟨[], [], .quiet rfl rfl fun e he => he⟩

end MovesCallbacks

end Program

/-! ### The queues -/

section Queues

variable {spaceOf : Nat → SpaceId} {unpackers : List Nat} {Q : SpaceId → List (Task κ)}
  {events : List (SpaceId × Event (Task κ))}

/-- The events of a trace on one space bring no copy of a callback. -/
theorem mem_spaceEvents {trace : List HostOp} {s s' : SpaceId} {token : Option Nat}
    {dst src : View}
    (h : (s', .enqueue (.copy token dst src)) ∈
      ((spaceEvents trace : List (Event (Task κ))).map fun e => (s, e))) : token = none := by
  obtain ⟨e, he, heq⟩ := List.mem_map.mp h
  obtain ⟨a, _, ha⟩ := List.mem_filterMap.mp he
  cases heq
  cases a with
  | space c =>
    cases c with
    | deepCopy dst src =>
      simp only [HostOp.event, SpaceOp.event, Option.some.injEq, Event.enqueue.injEq,
        Task.copy.injEq] at ha
      exact ha.1.symm
    | fence label => cases ha
  | allocate label v => cases ha
  | pushRegion name => cases ha
  | popRegion => cases ha
  | mpi o call => cases ha

/-- A copy that callbacks enqueue has the token of its callback. -/
theorem mem_callbackEvents {ran : List Entry} {s : SpaceId} {token : Option Nat} {dst src : View}
    (h : (s, .enqueue (.copy token dst src)) ∈
      (Spaces.callbackEvents spaceOf ran : List (SpaceId × Event (Task κ)))) :
    ∃ e ∈ ran, token = some e.token := by
  obtain ⟨e, he, h⟩ := List.mem_flatMap.mp h
  obtain ⟨c, _, hc⟩ := List.mem_map.mp h
  refine ⟨e, he, ?_⟩
  cases c with
  | deepCopy dst src =>
    simp only [SpaceOp.event, Prod.mk.injEq, Event.enqueue.injEq, Task.copy.injEq] at hc
    exact hc.2.1.symm
  | fence label => cases (Prod.mk.inj hc).2

/-- One callback runs. If it is a routine's, its space is empty afterwards,
or it did nothing; if not, what it enqueues is its own. -/
theorem nothing_after_callback {e : Entry}
    (hQ : ∀ s, ∀ t ∈ Q s, ¬ t.isFrom unpackers)
    (he : e.token ∈ unpackers → e.callback.Settles)
    (hevents : programs events = Spaces.callbackEvents spaceOf [e]) (s : SpaceId) :
    ∀ t ∈ pendingAt Q events s, ¬ t.isFrom unpackers := by
  intro t ht
  by_cases hown : e.token ∈ unpackers
  · rcases he hown with hnil | ⟨dst, src, label, hbody⟩
    · refine hQ s t ((mem_pendingAt ht).resolve_right ?_)
      simp [hevents, Spaces.callbackEvents, hnil]
    · by_cases hs : s = spaceOf e.token
      · rw [pendingAt_eq_nil [.enqueue (.copy (some e.token) dst src)]] at ht
        · cases ht
        · simp [hevents, Spaces.callbackEvents, hbody, eventsAt, hs, SpaceOp.event]
      · have hs' : ¬ spaceOf e.token = s := fun h => hs h.symm
        refine hQ s t ((mem_pendingAt ht).resolve_right ?_)
        simp [hevents, Spaces.callbackEvents, hbody, hs]
  · rcases mem_pendingAt ht with ht | ht
    · exact hQ s t ht
    · rw [hevents] at ht
      intro hfrom
      cases t with
      | copy token dst src =>
        obtain ⟨e', he', rfl⟩ := mem_callbackEvents ht
        obtain rfl := List.mem_singleton.mp he'
        exact hown hfrom
      | kernel k => cases hfrom
      | allocate v => cases hfrom

/-- … and so after any number of callbacks. -/
theorem nothing_after_callbacks {ran : List Entry}
    (hQ : ∀ s, ∀ t ∈ Q s, ¬ t.isFrom unpackers)
    (hran : ∀ e ∈ ran, e.token ∈ unpackers → e.callback.Settles)
    (hevents : programs events = Spaces.callbackEvents spaceOf ran) (s : SpaceId) :
    ∀ t ∈ pendingAt Q events s, ¬ t.isFrom unpackers := by
  induction ran generalizing Q events with
  | nil =>
    intro t ht
    refine hQ s t ((mem_pendingAt ht).resolve_right ?_)
    simp [hevents, Spaces.callbackEvents]
  | cons e ran ih =>
    -- the events up to the end of the first callback, and the others
    have hcons : (Spaces.callbackEvents spaceOf (e :: ran) : List (SpaceId × Event (Task κ))) =
        Spaces.callbackEvents spaceOf [e] ++ Spaces.callbackEvents spaceOf ran := by
      simp [Spaces.callbackEvents]
    rw [hcons] at hevents
    obtain ⟨first, others, rfl, hfirst, hothers⟩ := List.filter_eq_append_iff.mp hevents
    rw [pendingAt_append]
    refine ih (nothing_after_callback hQ (hran e (by simp)) hfirst) (fun e' he' => ?_) hothers
    exact hran e' (List.mem_cons_of_mem _ he')

end Queues

section Programs

variable {spaceOf : Nat → SpaceId} {w w' : Spaces κ}

/-- What holds in every state of a program with spaces. -/
structure SpacesOk (w : Spaces κ) : Prop where
  held : ∀ e, Program.Held w.program.objs e → e ∈ w.program.registered
  tokens : ∀ e ∈ w.program.registered, e.token < w.program.registered.length
  unpackers : ∀ k ∈ w.unpackers, k < w.program.registered.length
  settles : ∀ e ∈ w.program.registered, e.token ∈ w.unpackers → e.callback.Settles
  copies : ∀ s k dst src, .copy (some k) dst src ∈ w.queues s → k < w.program.registered.length
  nothing : w.NothingUnpacking

theorem spacesOk_start (n : Nat) (queues : SpaceId → List κ) :
    SpacesOk (Spaces.start n queues) where
  held := by
    rintro e ⟨r, o, ho, he⟩
    obtain ⟨_, rfl⟩ := Program.start_objs_eq_some ho
    cases he
  tokens := fun _ he => by cases he
  unpackers := fun _ hk => by cases hk
  settles := fun _ he => by cases he
  copies := by
    intro s k dst src h
    obtain ⟨_, _, heq⟩ := List.mem_map.mp h
    cases heq
  nothing := by
    intro s t ht hfrom
    obtain ⟨k, _, rfl⟩ := List.mem_map.mp ht
    cases hfrom

/-- The program does not change; what it enqueues is from no callback. -/
theorem SpacesOk.enqueue (hw : SpacesOk w) (program : Program)
    (hobjs : program.objs = w.program.objs) (hreg : program.registered = w.program.registered)
    {events : List (SpaceId × Event (Task κ))}
    (hevents : ∀ s token dst src, (s, .enqueue (.copy token dst src)) ∈ programs events →
      token = none) :
    SpacesOk { w with program := program, queues := pendingAt w.queues events } where
  held := fun e he => by rw [hreg]; exact hw.held e (hobjs ▸ he)
  tokens := fun e he => by rw [hreg] at he ⊢; exact hw.tokens e he
  unpackers := fun k hk => by rw [hreg]; exact hw.unpackers k hk
  settles := fun e he => hw.settles e (hreg ▸ he)
  copies := by
    intro s k dst src h
    rw [hreg]
    refine hw.copies s k dst src ((mem_pendingAt h).resolve_right fun h => ?_)
    cases hevents s _ dst src h
  nothing := by
    intro s t ht hfrom
    rcases mem_pendingAt ht with ht | ht
    · exact hw.nothing s t ht hfrom
    · cases t with
      | copy token dst src =>
        obtain rfl := hevents s token dst src ht
        cases hfrom
      | kernel k => cases hfrom
      | allocate v => cases hfrom

/-- A routine that returns a request registers callbacks, and runs none. -/
theorem SpacesOk.launch (hw : SpacesOk w) {r : ObjId} {call : AsyncCall} {ret : Ret}
    {p : Program} (hp : w.program.perform (.launch r call) = .returns (ret, p)) {s : SpaceId}
    {events : List (SpaceId × Event (Task κ))}
    (hevents : programs events = Spaces.caused spaceOf w.program (.launch r call) s p) :
    SpacesOk
      { program := p
        queues := pendingAt w.queues events
        unpackers := w.unpackers ++ Spaces.registers w.program (.launch r call) p } := by
  obtain ⟨req, host, hrun, hmoves⟩ := Program.perform_launch_run hp
  have hnew : Spaces.registers w.program (.launch r call) p =
      (w.program.entries w.program.nextRid req.request_ req.callbacks_).map Entry.token := by
    simp [Spaces.registers, hmoves.registered]
  have hnone : ∀ s' token dst src, (s', .enqueue (.copy token dst src)) ∈ programs events →
      token = none := by
    intro s' token dst src h
    rw [hevents, Spaces.caused, hrun] at h
    exact mem_spaceEvents h
  rw [hnew]
  have hlen : p.registered.length = w.program.registered.length +
      (w.program.entries w.program.nextRid req.request_ req.callbacks_).length := by
    rw [hmoves.registered, List.length_append]
  constructor
  · intro e he
    rw [hmoves.registered, List.mem_append]
    exact (hmoves.kept e he).symm.imp_left (hw.held e)
  · intro e he
    rw [hmoves.registered, List.mem_append] at he
    rw [hlen]
    rcases he with he | he
    · exact Nat.lt_add_right _ (hw.tokens e he)
    · exact (hmoves.tokens e he).2
  · intro k hk
    rw [hlen]
    rcases List.mem_append.mp hk with hk | hk
    · exact Nat.lt_add_right _ (hw.unpackers k hk)
    · obtain ⟨e, he, rfl⟩ := List.mem_map.mp hk
      exact (hmoves.tokens e he).2
  · intro e he hk
    rw [hmoves.registered, List.mem_append] at he
    rcases he with he | he
    · -- an old token is not one of the new ones
      refine hw.settles e he ((List.mem_append.mp hk).resolve_right fun hk => ?_)
      obtain ⟨e', he', htoken⟩ := List.mem_map.mp hk
      exact absurd (hw.tokens e he) (Nat.not_lt.mpr (htoken ▸ (hmoves.tokens e' he').1))
    · obtain ⟨i, hi, rfl⟩ := List.mem_mapIdx.mp he
      exact AsyncCall.run_settles hrun _ (List.getElem_mem hi)
  · intro s' k dst src h
    rw [hlen]
    refine Nat.lt_add_right _ (hw.copies s' k dst src ?_)
    refine (mem_pendingAt h).resolve_right fun h => ?_
    cases hnone s' _ dst src h
  · intro s' t ht hfrom
    rcases mem_pendingAt ht with ht | ht
    · cases t with
      | copy token dst src =>
        cases token with
        | none => cases hfrom
        | some k =>
          rcases List.mem_append.mp hfrom with hk | hk
          · exact hw.nothing s' _ ht hk
          · obtain ⟨e, he, rfl⟩ := List.mem_map.mp hk
            exact absurd (hw.copies s' _ dst src ht) (Nat.not_lt.mpr (hmoves.tokens e he).1)
      | kernel k => cases hfrom
      | allocate v => cases hfrom
    · cases t with
      | copy token dst src =>
        obtain rfl := hnone s' token dst src ht
        cases hfrom
      | kernel k => cases hfrom
      | allocate v => cases hfrom

/-- Any other call runs callbacks, or none. -/
theorem SpacesOk.call (hw : SpacesOk w) {a : Op} (ha : ∀ r call, a ≠ .launch r call) {ret : Ret}
    {p : Program} (hp : w.program.perform a = .returns (ret, p)) {s : SpaceId}
    {events : List (SpaceId × Event (Task κ))}
    (hevents : programs events = Spaces.caused spaceOf w.program a s p) :
    SpacesOk
      { program := p
        queues := pendingAt w.queues events
        unpackers := w.unpackers ++ Spaces.registers w.program a p } := by
  obtain ⟨fresh, new, hmoves⟩ := Program.perform_moves ha hp
  have hregisters : Spaces.registers w.program a p = [] := by
    cases a with
    | launch r call => exact absurd rfl (ha r call)
    | _ => rfl
  have hcaused : programs events = Spaces.callbackEvents spaceOf new := by
    rw [hevents]
    cases a with
    | launch r call => exact absurd rfl (ha r call)
    | _ => simp [Spaces.caused, hmoves.ran]
  have hnew : ∀ e ∈ new, e ∈ w.program.registered := fun e he => hw.held e (hmoves.old e he)
  have hlen : p.registered.length = w.program.registered.length + fresh.length := by
    rw [hmoves.registered, List.length_append]
  rw [hregisters, List.append_nil]
  constructor
  · intro e he
    rw [hmoves.registered, List.mem_append]
    exact (hmoves.kept e he).symm.imp_left (hw.held e)
  · intro e he
    rw [hmoves.registered, List.mem_append] at he
    rw [hlen]
    rcases he with he | he
    · exact Nat.lt_add_right _ (hw.tokens e he)
    · exact (hmoves.tokens e he).2
  · intro k hk
    rw [hlen]
    exact Nat.lt_add_right _ (hw.unpackers k hk)
  · intro e he hk
    rw [hmoves.registered, List.mem_append] at he
    rcases he with he | he
    · exact hw.settles e he hk
    · -- a callback of the user
      exact absurd (hw.unpackers _ hk) (Nat.not_lt.mpr (hmoves.tokens e he).1)
  · intro s' k dst src h
    rw [hlen]
    refine Nat.lt_add_right _ ?_
    rcases mem_pendingAt h with h | h
    · exact hw.copies s' k dst src h
    · rw [hcaused] at h
      obtain ⟨e, he, htoken⟩ := mem_callbackEvents h
      obtain rfl := Option.some.inj htoken
      exact hw.tokens e (hnew e he)
  · intro s'
    exact nothing_after_callbacks hw.nothing (fun e he => hw.settles e (hnew e he)) hcaused s'

/-- Every step keeps the invariant. -/
theorem SpacesOk.step [DecidableEq κ] (hw : SpacesOk w) {a : Spaces.Act κ}
    (h : w.step spaceOf a = some w') : SpacesOk w' := by
  cases a with
  | call a s events =>
    simp only [Spaces.step] at h
    split at h
    · rename_i ret p hp
      split at h
      · rename_i hevents
        cases h
        by_cases ha : ∃ r call, a = .launch r call
        · obtain ⟨r, call, rfl⟩ := ha
          exact hw.launch hp hevents
        · exact hw.call (fun r call heq => ha ⟨r, call, heq⟩) hp hevents
      · cases h
    · cases h
  | block routine s events =>
    simp only [Spaces.step] at h
    split at h
    · split at h
      · rename_i hevents
        cases h
        apply hw.enqueue
        · rfl
        · rfl
        · intro s' token dst src hmem
          rw [hevents] at hmem
          exact mem_spaceEvents hmem
      · cases h
    · cases h
  | launch s k =>
    cases h
    refine hw.enqueue w.program rfl rfl fun s' token dst src hmem => ?_
    simp [programs, Event.isProgram] at hmem
  | advance s =>
    cases h
    refine hw.enqueue w.program rfl rfl fun s' token dst src hmem => ?_
    simp [programs, Event.isProgram] at hmem
  | fence s =>
    cases h
    refine hw.enqueue w.program rfl rfl fun s' token dst src hmem => ?_
    simp [programs, Event.isProgram] at hmem

/-- In every state of every program, nothing a routine unpacks is pending;
and nothing at all is pending on the space when a routine calls MPI. -/
theorem nothing_races [DecidableEq κ] (spaceOf : Nat → SpaceId) :
    (∀ call : AsyncCall, call.run = do
      let (mpiCall, request) ← call.upToMpi
      let handle ← start mpiCall
      call.afterMpi
      return request handle) ∧
    (∀ (c : SpaceCall) nextOp nextAlloc h,
      c.upToMpi (Host.start nextOp nextAlloc) = .returns ((), h) →
      ∀ (queued : List (Task κ)) events, program events = spaceEvents h.trace →
        pending queued events = []) ∧
    ∀ n (queues : SpaceId → List κ) acts,
      Lts.AllStates (Spaces.step spaceOf) Spaces.NothingUnpacking (.start n queues) acts := by
  refine ⟨AsyncCall.run_eq_parts, ?_, ?_⟩
  · intro c nextOp nextAlloc h hrun queued events hevents
    exact c.nothing_pending hrun hevents queued
  · intro n queues acts
    have hstep : ∀ (w : Spaces κ) a w', SpacesOk w → Spaces.step spaceOf w a = some w' →
        True → SpacesOk w' := fun w a w' hw h _ => hw.step h
    exact Lts.allStates_of_inv hstep (fun w hw => hw.nothing) (spacesOk_start n queues)
      (Lts.allSteps_true _ acts)

end Programs

end KokkosComm.Mpi
