/-
KokkosComm.Nccl.ReduceTheorems — what `nccl::reduce` does to the memories
of its members.

A contiguous send view goes to NCCL in its own memory order, any other one
packed, in the default layout of its execution space and with a count that
has been an `int`. The receive buffer is `rv` itself only if the process is
not the root AND `rv` is contiguous; in all other cases it is a packed view
that a callback copies into `rv`, on the root in the default layout.

§1 the branches of the routine. §2 the result at the root: it is in place
when the two orders agree for every member. §3 the other processes: a
receive view that is not contiguous is overwritten with what its packed
view happens to contain.
-/
import KokkosComm.Nccl.Collectives

namespace KokkosComm.Nccl

open Mpi (Callback unpackCallback)
open MultiIndex Reduction

variable {α : Type}

/-! ## §1 Branches -/

/-- The count that is passed to NCCL. -/
def sentCount (sv : View) : Int := if sv.isContiguous then sv.span else CInt.ofSize sv.size

/-- The routine receives into `rv` itself. -/
def receivesDirectly (rank root : Int) (rv : View) : Bool := rank != root && rv.isContiguous

variable (α) in
/-- The routine makes one call, and one callback of its request unpacks
unless the routine receives directly. -/
theorem reduce_spec (m : Member) (op : NcclRedOp) (root rank : Int) (comm : NcclComm) :
    ∃ req host e, reduce m.sv m.rv op root rank comm (Host.start m.nextAlloc) =
        .returns (req, host) ∧ req.request_ = some e ∧
      ∀ h h' : Heap α,
        callsOf host.trace h = [(reduceCall (m.sv.handed m.nextAlloc)
          (if receivesDirectly rank root m.rv then m.rv else m.rv.contiguousView m.recvAlloc)
          (sentCount m.sv) op root comm, h.handed m.nextAlloc m.sv)] ∧
        runTrace host.trace h = h.handed m.nextAlloc m.sv ∧
        runCallbacks req.callbacks_ h' =
          if receivesDirectly rank root m.rv then h'
          else h'.deepCopy m.rv (m.rv.contiguousView m.recvAlloc) := by
  unfold reduce
  have hdirect : (rank ≠ root ∧ m.rv.isContiguous = true) ↔
      receivesDirectly rank root m.rv = true := by simp [receivesDirectly]
  cases hs : m.sv.isContiguous with
  | true =>
    have hsent : sentCount m.sv = m.sv.span := if_pos hs
    simp only [View.handed_of_contiguous _ hs, Heap.handed_of_contiguous _ hs,
      Member.recvAlloc_of_contiguous hs, hsent]
    by_cases hr : rank ≠ root ∧ m.rv.isContiguous = true
    · have hd := hdirect.mp hr
      simp only [if_pos hr]
      refine ⟨_, _, _, rfl, by simp; rfl, fun h h' => ?_⟩
      simp only [hd, if_true, runCallbacks_extendViewLifetime]
      exact ⟨rfl, rfl, rfl⟩
    · have hd : ¬ receivesDirectly rank root m.rv = true := fun h => hr (hdirect.mpr h)
      simp only [if_neg hr]
      refine ⟨_, _, _, rfl, by simp; rfl, fun h h' => ?_⟩
      simp only [if_neg hd, runCallbacks_extendViewLifetime, runCallbacks_addCallback]
      exact ⟨rfl, rfl, rfl⟩
  | false =>
    have hsent : sentCount m.sv = CInt.ofSize m.sv.size := by simp [sentCount, hs]
    simp only [View.handed_of_packed _ hs, Heap.handed_of_packed _ hs,
      Member.recvAlloc_of_packed hs, hsent, ← View.contiguousView_span m.nextAlloc m.sv]
    by_cases hr : rank ≠ root ∧ m.rv.isContiguous = true
    · have hd := hdirect.mp hr
      simp only [if_pos hr]
      refine ⟨_, _, _, rfl, by simp; rfl, fun h h' => ?_⟩
      simp only [hd, if_true, runCallbacks_extendViewLifetime]
      exact ⟨rfl, rfl, rfl⟩
    · have hd : ¬ receivesDirectly rank root m.rv = true := fun h => hr (hdirect.mpr h)
      simp only [if_neg hr]
      refine ⟨_, _, _, rfl, by simp; rfl, fun h h' => ?_⟩
      simp only [if_neg hd, runCallbacks_extendViewLifetime, runCallbacks_addCallback]
      exact ⟨rfl, rfl, rfl⟩

/-! ## §2 The result at the root -/

section Root

variable (op : NcclRedOp) (root : Nat) (comm : NcclComm) {m : Member} (memory : Heap α)

/-- What a member brings to the collective. -/
theorem reduceParty_returns (rank : Nat) (h : 0 ≤ sentCount m.sv) : ∃ p,
    reduceParty op root comm rank m memory = .returns p ∧
      Exchanges m memory (sentCount m.sv).toNat (receivesDirectly rank root m.rv) p := by
  obtain ⟨req, host, _, hrun, -, hspec⟩ := reduce_spec α m op root rank comm
  have hcalls := (hspec memory memory).1
  have hcomplete := fun h' => (hspec memory h').2.2
  unfold reduceParty
  simp only [hrun, Outcome.returns_bind, hcalls, reduceCall, if_neg (Int.not_lt.mpr h)]
  exact ⟨_, rfl, rfl, rfl, rfl, hcomplete⟩

theorem reduceParty_undefined (rank : Nat) (h : sentCount m.sv < 0) :
    reduceParty op root comm rank m memory = .undefined := by
  obtain ⟨req, host, _, hrun, -, hspec⟩ := reduce_spec α m op root rank comm
  have hcalls := (hspec memory memory).1
  unfold reduceParty
  simp only [hrun, Outcome.returns_bind, hcalls, reduceCall, if_pos h]

/-- The count of a contiguous view is its size, that of a packed one may be
less. -/
theorem toNat_sentCount_le (sv : View) : (sentCount sv).toNat ≤ sv.size := by
  unfold sentCount
  split
  · rename_i hc
    rw [View.isContiguous_iff.mp hc, Int.toNat_natCast]
  · exact CInt.toNat_ofSize_le _

theorem sentCount_of_contiguous {sv : View} (hc : sv.isContiguous = true) :
    sentCount sv = sv.size := by
  rw [sentCount, if_pos hc, View.isContiguous_iff.mp hc]

theorem sentCount_of_packed {sv : View} (hc : sv.isContiguous = false) :
    sentCount sv = CInt.ofSize sv.size := by
  rw [sentCount, if_neg (by simp [hc])]

/-- A view of a member: extents `exts`, memory order `o`, on `Kokkos::Cuda`
(whose default layout is `LayoutLeft`), and allocated before. -/
structure CudaView (o : Layout) (exts : List Nat) (m : Member) (v : View) : Prop where
  extents : v.extents = exts
  ordered : v.Ordered o
  cuda : v.arrayLayout = .layoutLeft
  old : v.alloc < m.nextAlloc

/-- Where the root receives, for any member. -/
def rootRoute (m : Member) : Route :=
  { order := m.rv.arrayLayout.indices m.rv.extents, direct := false }

variable {o : Layout} {exts : List Nat} {members : List Member} {m₀ : Member} {n : Nat}

/-- Members whose counts agree. -/
theorem wired_reduce (hroot : members[root]? = some m₀) (hrv : CudaView o exts m₀ m₀.rv)
    (hsv : ∀ m ∈ members, CudaView o exts m m.sv)
    (hn : ∀ m ∈ members, sentCount m.sv = n) (memories : Nat → Heap α) :
    Wired (reduceParty op root comm) (· == root) (fun m => m.sv.route.order) rootRoute n members
      memories := by
  intro r m hm
  have hmem := List.mem_of_getElem? hm
  have hcount := hn m hmem
  obtain ⟨p, hp, hexchanges⟩ := reduceParty_returns op root comm (memories r) r (m := m) (by omega)
  have hle : n ≤ m.sv.size := by
    have := toNat_sentCount_le m.sv
    omega
  rw [hcount, Int.toNat_natCast] at hexchanges
  refine ⟨p, hp, by rw [hexchanges.sendbuf, View.length_buffer], ?_, fun hr xs hxs => ?_⟩
  · exact hexchanges.message (fun _ => View.nodup_cells (hsv m hmem).ordered _) hle
  · -- the root never receives directly
    have hr : r = root := by simpa using hr
    subst hr
    have hm₀ : m = m₀ := Option.some.inj (hm.symm.trans hroot)
    subst hm₀
    have hpacked : receivesDirectly r r m.rv = false := by simp [receivesDirectly]
    rw [hpacked] at hexchanges
    refine hexchanges.received_packed (View.nodup_cells hrv.ordered _) ?_ hxs
    rwa [View.size, hrv.extents, ← (hsv m hmem).extents]

/-- The elements of a send view reach the root: one that is passed as it is
has the default layout, or no other order; one that is packed has a count
that fits `int`. -/
def ReachesRoot (o : Layout) (sv : View) : Prop :=
  if sv.isContiguous then o = .layoutLeft ∨ 0 ∈ sv.extents ∨ sv.extents.countP (1 < ·) ≤ 1
  else sv.size < 2147483648

instance (o : Layout) (sv : View) : Decidable (ReachesRoot o sv) := by
  unfold ReachesRoot
  infer_instance

theorem reachesRoot_iff {sv : View} (ho : sv.Ordered o) (hcuda : sv.arrayLayout = .layoutLeft) :
    ReachesRoot o sv ↔ sentCount sv = sv.size ∧
      sv.route.order = Layout.layoutLeft.indices sv.extents := by
  unfold ReachesRoot View.route
  split
  · rename_i hc
    rw [sentCount_of_contiguous hc, View.memoryIndices_of_ordered ho, Layout.indices_eq_iff]
    simp
  · rename_i hc
    rw [sentCount_of_packed (by simpa using hc), CInt.ofSize_eq_self_iff, hcuda]
    simp

/-- A negative count is undefined behaviour. -/
theorem nonneg_of_elementwise [Nonempty α]
    (hall : AlwaysElementwise α (reduceParty op root comm) (· == root) members) :
    ∀ m ∈ members, 0 ≤ sentCount m.sv := by
  intro m hm
  by_contra hneg
  obtain ⟨r, hr⟩ := List.mem_iff_getElem?.mp hm
  refine not_elementwise_of_undefined (fun op' c memory => ?_) hall
  refine runCollective_undefined hr
    (reduceParty_undefined op root comm _ r (Int.not_le.mp hneg)) (fun r m => ?_) c
  by_cases hcount : 0 ≤ sentCount m.sv
  · obtain ⟨p, hp, _⟩ := reduceParty_returns op root comm (memory r) r hcount
    exact .inr ⟨p, hp⟩
  · exact .inl (reduceParty_undefined op root comm _ r (Int.not_le.mp hcount))

/-- And so are counts that differ. -/
theorem same_of_elementwise [Nonempty α]
    (hall : AlwaysElementwise α (reduceParty op root comm) (· == root) members) {m m' : Member}
    (hm : m ∈ members) (hm' : m' ∈ members) : sentCount m'.sv = sentCount m.sv := by
  have hnonneg := nonneg_of_elementwise op root comm hall
  by_contra hdiff
  obtain ⟨r, hr⟩ := List.mem_iff_getElem?.mp hm
  obtain ⟨r', hr'⟩ := List.mem_iff_getElem?.mp hm'
  refine not_elementwise_of_undefined (fun op' c memory => ?_) hall
  obtain ⟨p, hp, hexchanges⟩ := reduceParty_returns op root comm (memory r) r (hnonneg m hm)
  obtain ⟨p', hp', hexchanges'⟩ :=
    reduceParty_returns op root comm (memory r') r' (hnonneg m' hm')
  refine runCollective_of_counts (fun r m hr => ?_) hr hp hr' hp' ?_ c
  · obtain ⟨p, hp, _⟩ := reduceParty_returns op root comm (memory r) r
      (hnonneg m (List.mem_of_getElem? hr))
    exact ⟨p, hp⟩
  · rw [hexchanges.sendbuf, hexchanges'.sendbuf, View.length_buffer, View.length_buffer]
    have := hnonneg m hm
    have := hnonneg m' hm'
    omega

/-- A send view whose elements do not all reach the root, in their order. -/
theorem not_elementwise_of_reaches [Nontrivial α] (hroot : members[root]? = some m₀)
    (hrv : CudaView o exts m₀ m₀.rv) (hsv : ∀ m ∈ members, CudaView o exts m m.sv)
    (hn : ∀ m ∈ members, sentCount m.sv = n) {m : Member} (hm : m ∈ members)
    (hnot : ¬ ReachesRoot o m.sv) :
    ¬ AlwaysElementwise α (reduceParty op root comm) (· == root) members := by
  intro hall
  have hm₀ := List.mem_of_getElem? hroot
  have hwired := fun memory : Nat → Heap α => wired_reduce op root comm hroot hrv hsv hn memory
  have hle := toNat_sentCount_le m.sv
  rw [hn m hm, Int.toNat_natCast] at hle
  rw [reachesRoot_iff (hsv m hm).ordered (hsv m hm).cuda, hn m hm] at hnot
  have hsize : m.sv.size = m₀.rv.size := by
    rw [View.size, View.size, (hsv m hm).extents, hrv.extents]
  by_cases hsent : n = m.sv.size
  · -- all elements are sent, in an order that is not the root's
    obtain ⟨r, hr⟩ := List.mem_iff_getElem?.mp hm
    refine not_elementwise_of_order hwired (fun m hm => (hsv m hm).extents) ?_
      (fun m hm => (hsv m hm).extents ▸ m.sv.enumerates_route) hr
      (View.nodup_cells (hsv m hm).ordered _) hroot (by simp) hrv.extents ?_
      (fun horder => hnot ⟨?_, ?_⟩) hall
    · rw [hsent, View.size, (hsv m hm).extents]
    · rw [rootRoute, ← hrv.extents]
      exact m₀.rv.arrayLayout.enumerates_indices _
    · rw [hsent]
    · rw [rootRoute, hrv.cuda, hrv.extents] at horder
      rw [(hsv m hm).extents]
      exact horder
  · refine not_elementwise_of_count hwired hroot (by simp) ?_ ?_ (hsv m₀ hm₀).old ?_ hall
    · omega
    · rw [hrv.extents, (hsv m₀ hm₀).extents]
    · intro hdirect
      cases hdirect

/-- In every collective the root ends up with the reduction at each index,
for every operator and contents, exactly when the elements of all send
views reach it. -/
theorem reduce_delivers_iff [Nontrivial α] (hroot : members[root]? = some m₀)
    (hrv : CudaView o exts m₀ m₀.rv) (hsv : ∀ m ∈ members, CudaView o exts m m.sv) :
    AlwaysElementwise α (reduceParty op root comm) (· == root) members ↔
      ∀ m ∈ members, ReachesRoot o m.sv := by
  have hne : members ≠ [] := List.ne_nil_of_mem (List.mem_of_getElem? hroot)
  constructor
  · intro hall m hm
    by_contra hnot
    have hn : ∀ m' ∈ members, sentCount m'.sv = (sentCount m.sv).toNat := fun m' hm' => by
      rw [same_of_elementwise op root comm hall hm hm',
        Int.toNat_of_nonneg (nonneg_of_elementwise op root comm hall m hm)]
    exact not_elementwise_of_reaches op root comm hroot hrv hsv hn hm hnot hall
  · intro hreach op' _ c memory
    have hboth := fun m hm =>
      (reachesRoot_iff (hsv m hm).ordered (hsv m hm).cuda).mp (hreach m hm)
    have hcount : ∀ m ∈ members, sentCount m.sv = m₀.rv.size := fun m hm => by
      rw [(hboth m hm).1, View.size, View.size, (hsv m hm).extents, hrv.extents]
    refine elementwise_of_orders (wired_reduce op root comm hroot hrv hsv hcount memory) hne ?_ c
    intro q m' hm' hq
    have hq : q = root := by simpa using hq
    subst hq
    have hm₀ : m' = m₀ := Option.some.inj (hm'.symm.trans hroot)
    subst hm₀
    refine ⟨Nat.le_refl _, fun m hm => ?_⟩
    simp only [(hboth m hm).2, (hsv m hm).extents, hrv.extents, rootRoute, hrv.cuda]

end Root

/-- Two rows of two, contiguous. -/
def cudaRows : View where
  alloc := 0
  base := 0
  extents := [2, 2]
  strides := [2, 1]
  arrayLayout := .layoutLeft
  managed := true
  rank_eq := rfl

/-- A member that sends every second element of two rows. -/
def sparseMember : Member where
  sv := { cudaRows with strides := [8, 2] }
  rv := { cudaRows with alloc := 1 }
  nextAlloc := 2

/-- A member that sends the two rows themselves. -/
def denseMember : Member := { sparseMember with sv := cudaRows }

theorem reduce_delivers_sparse :
    AlwaysElementwise Nat (reduceParty 0 1 0) (· == 1) [sparseMember, sparseMember] := by
  have hsv : CudaView .layoutRight [2, 2] sparseMember sparseMember.sv :=
    ⟨rfl, by decide, rfl, by decide⟩
  have hrv : CudaView .layoutRight [2, 2] sparseMember sparseMember.rv :=
    ⟨rfl, by decide, rfl, by decide⟩
  have hroot : [sparseMember, sparseMember][1]? = some sparseMember := rfl
  exact (reduce_delivers_iff 0 1 0 hroot hrv (by simpa using hsv)).mpr (by decide +kernel)

/-- Rows that are sent as they are come out of the packed view transposed. -/
theorem reduce_transposes :
    ¬ ∀ (op : NcclRedOp) (root : Nat) (comm : NcclComm) (o : Layout) (exts : List Nat)
      (members : List Member) (m₀ : Member), members[root]? = some m₀ →
      CudaView o exts m₀ m₀.rv → (∀ m ∈ members, CudaView o exts m m.sv) →
      AlwaysElementwise Nat (reduceParty op root comm) (· == root) members := by
  intro hall
  have hsv : CudaView .layoutRight [2, 2] denseMember denseMember.sv :=
    ⟨rfl, by decide, rfl, by decide⟩
  have hrv : CudaView .layoutRight [2, 2] denseMember denseMember.rv :=
    ⟨rfl, by decide, rfl, by decide⟩
  have hmeets := hall 0 0 0 _ _ [denseMember] denseMember rfl hrv (by simpa using hsv)
    (· + ·) (.leftToRight _ 0) fun _ c => c.2
  have hget : ((runCollective (reduceParty 0 0 0) (· == 0)
      (Combiner.leftToRight (· + ·) 0) [denseMember] fun _ c => c.2).toOption.bind fun heaps =>
        heaps[0]?.map fun h => h (denseMember.rv.cell [0, 1])) = some 2 := by
    decide +kernel
  obtain ⟨heaps, hrun, hvalue⟩ := Option.bind_eq_some_iff.mp hget
  rw [Outcome.toOption_eq_some.mp hrun] at hmeets
  obtain ⟨h, hh, hreduced⟩ := hmeets 0 denseMember rfl rfl
  rw [hh] at hvalue
  have hvalue : h (denseMember.rv.cell [0, 1]) = 2 := Option.some.inj hvalue
  have hsame := hreduced [0, 1] (mem_rowMajor.mp (by decide))
  rw [hvalue] at hsame
  cases hsame

/-! ## §3 The other processes -/

section Completion

variable {κ : Type} {r : Request κ}

/-- A query runs no callback. -/
theorem cudaEventQuery_ran {c c₁ : Cuda κ} {event : Option EventId} {err : CudaError}
    (h : cudaEventQuery c event = (err, c₁)) : c₁.ran = c.ran := by
  cases event with
  | none =>
    cases h
    rfl
  | some e =>
    simp only [cudaEventQuery] at h
    split at h
    · cases h
      rfl
    · cases h
      rfl

theorem waitAllLoop_ran (fuel : Nat) {c c' : Cuda κ} {rs : List (Request κ)}
    (h : waitAllLoop fuel [r] c 1 = .returns (rs, c')) : c'.ran = c.ran ++ r.callbacks_ := by
  induction fuel generalizing c with
  | zero => cases h
  | succ fuel ih =>
    obtain ⟨⟨requests, c₁, remaining⟩, hpass, hloop⟩ := Outcome.bind_eq_returns.mp h
    cases hquery : cudaEventQuery c r.request_ with
    | mk err c₂ =>
      have hran := cudaEventQuery_ran hquery
      rw [waitAllPass, hquery] at hpass
      cases err with
      | cudaSuccess =>
        -- nothing remains, and the loop ends
        cases hpass
        cases fuel with
        | zero =>
          cases hloop
          exact congrArg (· ++ r.callbacks_) hran
        | succ fuel =>
          cases hloop
          exact congrArg (· ++ r.callbacks_) hran
      | cudaErrorNotReady =>
        cases hpass
        rw [← hran]
        exact ih hloop
      | cudaErrorInvalidResourceHandle => cases hpass

theorem waitAnyLoop_ran (fuel : Nat) {c c' : Cuda κ} {i : Int} {rs : List (Request κ)}
    (h : waitAnyLoop fuel [r] c = .returns (some i, rs, c')) :
    c'.ran = c.ran ++ r.callbacks_ := by
  induction fuel generalizing c with
  | zero => cases h
  | succ fuel ih =>
    obtain ⟨⟨found, requests, c₁⟩, hpass, hloop⟩ := Outcome.bind_eq_returns.mp h
    cases hquery : cudaEventQuery c r.request_ with
    | mk err c₂ =>
      have hran := cudaEventQuery_ran hquery
      rw [waitAnyPass, hquery] at hpass
      cases err with
      | cudaSuccess =>
        cases hpass
        cases hloop
        exact congrArg (· ++ r.callbacks_) hran
      | cudaErrorNotReady =>
        cases hpass
        rw [← hran]
        exact ih hloop
      | cudaErrorInvalidResourceHandle => cases hpass

/-- A call that completes a request runs its callbacks. -/
theorem Completes.ran_eq {c c' : Cuda κ} (h : Completes r c c') :
    c'.ran = c.ran ++ r.callbacks_ := by
  cases h with
  | wait h =>
    obtain ⟨event, callbacks⟩ := r
    cases event with
    | none => cases h
    | some e =>
      cases h
      rfl
  | test h =>
    unfold Request.test at h
    cases hquery : cudaEventQuery c r.request_ with
    | mk err c₁ =>
      rw [hquery] at h
      cases err with
      | cudaSuccess =>
        cases h
        exact congrArg (· ++ r.callbacks_) (cudaEventQuery_ran hquery)
      | cudaErrorNotReady => cases h
      | cudaErrorInvalidResourceHandle => cases h
  | waitAll h =>
    simp only [Nccl.waitAll, List.isEmpty_cons, Bool.false_eq_true, if_false, List.length_singleton,
      CInt.ofSize_of_lt (show 1 < 2147483648 by omega)] at h
    exact waitAllLoop_ran _ h
  | waitAny h => exact waitAnyLoop_ran _ h

/-- A request that has captured an event can be completed. -/
theorem exists_completes {e : EventId} (h : r.request_ = some e) :
    ∃ c c', Completes r c c' := by
  obtain ⟨event, callbacks⟩ := r
  cases h
  exact ⟨.scheduled fun _ => 0, _, .wait rfl⟩

end Completion

section Others

variable (op : NcclRedOp) (comm : NcclComm) {m : Member} {root rank : Int}

/-- The routine returns, and once its request is complete, all memory of the
user is as it was before. NCCL itself writes nothing here. -/
def IgnoresRv (α : Type) (m : Member) (op : NcclRedOp) (root rank : Int) (comm : NcclComm) :
    Prop :=
  ∃ req host, reduce m.sv m.rv op root rank comm (Host.start m.nextAlloc) =
      .returns (req, host) ∧
    ∀ (memory : Heap α) (c c' : Cuda Callback), Completes req c c' →
      ∀ cell : Cell, cell.1 < m.nextAlloc →
        runCallbacks (c'.ran.drop c.ran.length) (runTrace host.trace memory) cell = memory cell

/-- The memory of such a process after completion. -/
theorem completed_memory {req : Request Callback} {host : Host}
    (hrun : reduce m.sv m.rv op root rank comm (Host.start m.nextAlloc) = .returns (req, host))
    {c c' : Cuda Callback} (hcompletes : Completes req c c') (memory : Heap α) :
    runCallbacks (c'.ran.drop c.ran.length) (runTrace host.trace memory) =
      if receivesDirectly rank root m.rv then memory.handed m.nextAlloc m.sv
      else (memory.handed m.nextAlloc m.sv).deepCopy m.rv (m.rv.contiguousView m.recvAlloc) := by
  obtain ⟨req', host', _, hrun', -, hspec⟩ := reduce_spec α m op root rank comm
  cases hrun.symm.trans hrun'
  rw [hcompletes.ran_eq, List.drop_left, (hspec memory _).2.2, (hspec memory memory).2.1]

/-- On a process that is not the root, `nccl::reduce` ignores `rv`, for
every content of the memory, exactly when `rv` is contiguous. -/
theorem reduce_ignores_rv_iff [Nontrivial α] (hrank : rank ≠ root)
    (hold : m.rv.alloc < m.nextAlloc) :
    IgnoresRv α m op root rank comm ↔ m.rv.isContiguous = true := by
  obtain ⟨req, host, e, hrun, hevent, _⟩ := reduce_spec α m op root rank comm
  constructor
  · rintro ⟨req', host', hrun', hkeeps⟩
    cases hrun.symm.trans hrun'
    by_contra hnot
    obtain ⟨x, y, hxy⟩ := exists_pair_ne α
    obtain ⟨c, c', hcompletes⟩ := exists_completes hevent
    -- a view that is not contiguous has elements
    have hsize : m.rv.size ≠ 0 := fun h0 => hnot (View.isContiguous_iff.mpr (by
      rw [View.span, if_pos h0, h0]))
    have htop : m.rv.Elem (m.rv.cell (top m.rv.extents)) :=
      ⟨_, valid_top (prod_ne_zero_iff.mp hsize), rfl⟩
    -- all old cells are `x`, all fresh ones `y`
    let memory : Heap α := fun cell => if cell.1 < m.nextAlloc then x else y
    have hfresh : ∀ i, memory.handed m.nextAlloc m.sv ((m.rv.contiguousView m.recvAlloc).cell i) =
        y := fun i => by
      rw [m.handed_of_old memory (.inr rfl)]
      exact if_neg (Nat.not_lt.mpr m.nextAlloc_le_recvAlloc)
    have hpacked : ¬ receivesDirectly rank root m.rv = true := by simp [receivesDirectly, hnot]
    have hsame := hkeeps memory c c' hcompletes (m.rv.cell (top m.rv.extents)) hold
    rw [completed_memory op comm hrun hcompletes memory, if_neg hpacked,
      Heap.deepCopy_of_const _ (fun i _ => hfresh i) htop] at hsame
    exact hxy ((hsame.trans (if_pos hold)).symm)
  · intro hrv
    have hdirect : receivesDirectly rank root m.rv = true := by
      simp [receivesDirectly, hrank, hrv]
    refine ⟨req, host, hrun, fun memory c c' hcompletes cell hcell => ?_⟩
    rw [completed_memory op comm hrun hcompletes memory, if_pos hdirect]
    exact m.handed_of_old memory (.inl hcell)

end Others

/-- A contiguous receive view on another process. -/
theorem reduce_ignores_rows : IgnoresRv Nat sparseMember 0 1 0 0 :=
  (reduce_ignores_rv_iff 0 0 (by decide) (by decide)).mpr (by decide)

/-- A member whose receive view is every second element of two rows. -/
def sparseReceiver : Member := { denseMember with rv := sparseMember.sv, sv := sparseMember.rv }

/-- On a process that is not the root, every second element of two rows
gets the contents of a packed view that nobody wrote. -/
theorem reduce_overwrites_rv :
    ¬ ∀ (m : Member) (op : NcclRedOp) (root rank : Int) (comm : NcclComm),
      rank ≠ root → m.rv.alloc < m.nextAlloc → IgnoresRv Nat m op root rank comm := by
  intro hall
  obtain ⟨req, host, hrun, hkeeps⟩ := hall sparseReceiver 0 1 0 0 (by decide) (by decide)
  obtain ⟨_, _, e, hrun', hevent, _⟩ := reduce_spec Nat sparseReceiver 0 1 0 0
  cases hrun.symm.trans hrun'
  obtain ⟨c, c', hcompletes⟩ := exists_completes hevent
  have hsame := hkeeps (fun cell => cell.1) c c' hcompletes (sparseReceiver.rv.cell [0, 0])
    (by decide)
  rw [completed_memory 0 0 hrun hcompletes] at hsame
  exact absurd hsame (by decide +kernel)

end KokkosComm.Nccl
