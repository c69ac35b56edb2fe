/-
KokkosComm.Mpi.ParallelTheorems — each process does its part of a step.

§1 what the routines start, and what they copy before and after. §2 what a
process sends in a step, what there is to store for it, and that its memory
is then what the step means (`Doing`).
-/
import KokkosComm.CollectiveTheorems
import KokkosComm.Mpi.DeliveryTheorems
import KokkosComm.Mpi.Parallel

namespace KokkosComm.Mpi.Parallel

open Routine

variable {α : Type} {n : Nat}

/-! ## §1 What a routine starts -/

/-- `c` starts `call`, the `m`-th operation, with fresh allocations from `a` on:
the memory it leaves, and what the callbacks of its request do. -/
def Starts (c : AsyncCall) (m : OpId) (a : AllocId) (call : MpiCall)
    (pack unpack : Heap α → Heap α) : Prop :=
  ∃ req host, c.run (Host.start m a) = .returns (req, host) ∧ mpiCalls host.trace = [(m, call)] ∧
    req.request_ = some m ∧ a ≤ host.nextAlloc ∧ (∀ h, runTrace host.trace h = pack h) ∧
    ∀ h, req.complete h = unpack h

section Starts

variable {m : OpId} {a : AllocId} {comm : MpiComm} {sv rv : View}

theorem starts_of_start {c : AsyncCall} {call : MpiCall} {h₁ : Host}
    {f : MpiRequest → Request Callback} {g : Host → Host} {pack unpack : Heap α → Heap α}
    (hrun : c.run (Host.start m a) = (start call h₁ >>= fun p => .returns (f p.1, g p.2)))
    (hs : Silent (Host.start m a) h₁) (hg : g = id ∨ g = fun h => h.log .popRegion)
    (hvalid : call.validCounts = true) (hreq : ∀ r, (f r).request_ = r)
    (hpack : ∀ h, runTrace h₁.trace h = pack h)
    (hunpack : ∀ r h, (f r).complete h = unpack h) : Starts c m a call pack unpack := by
  have hop : h₁.nextOp = m := hs.nextOp
  rw [Routine.start, if_pos hvalid, Outcome.returns_bind, hop] at hrun
  have hcalls : mpiCalls (h₁.trace ++ [.mpi m call]) = [(m, call)] := by
    rw [mpiCalls_append, hs.calls]
    rfl
  have htrace : ∀ h : Heap α, runTrace (h₁.trace ++ [.mpi m call]) h = pack h := fun h => by
    rw [← hpack h]
    simp [runTrace]
  refine ⟨_, _, hrun, ?_, hreq _, ?_, fun h => ?_, hunpack _⟩
  · rcases hg with rfl | rfl
    · exact hcalls
    · show mpiCalls (h₁.trace ++ [.mpi m call] ++ [.popRegion]) = [(m, call)]
      rw [mpiCalls_append, hcalls]
      rfl
  · rcases hg with rfl | rfl
    · exact hs.nextAlloc
    · exact hs.nextAlloc
  · rcases hg with rfl | rfl
    · exact htrace h
    · rw [← htrace h]
      simp [runTrace, Host.log]

theorem validCounts_of_nonneg {call : MpiCall} (hs : 0 ≤ call.sendcount)
    (hr : 0 ≤ call.recvcount) : call.validCounts = true := by
  simp [MpiCall.validCounts, hs, hr]

theorem starts_isendImpl (hsize : sv.size < 2147483648) (dest tag : Int)
    (mode : CommunicationMode) :
    Starts (α := α) (.isendImpl sv dest tag mode comm) m a
      { fn := mpiIsendFn mode dest tag, sendbuf := some (sv.handed a), sendcount := sv.size,
        recvbuf := none, recvcount := 0, comm := comm } (Heap.handed a sv) id := by
  have hcount := CInt.ofSize_of_lt hsize
  cases hc : sv.isContiguous with
  | true =>
    have hrun := isendImpl_contiguous hc dest tag mode comm (Host.start m a)
    rw [spanCount_of_contiguous hc, wireCount, hcount] at hrun
    rw [View.handed_of_contiguous a hc]
    exact starts_of_start (f := fun r => (Request.new r).extendViewLifetime sv) (g := id) hrun
      ((Silent.refl _).log rfl) (.inl rfl) (validCounts_of_nonneg (Int.natCast_nonneg _) le_rfl)
      (fun r => by simp [Request.new]) (fun h => (Heap.handed_of_contiguous a hc h).symm)
      fun r h => by simp
  | false =>
    have hrun := isendImpl_packed hc dest tag mode comm (Host.start m a)
    rw [hcount] at hrun
    rw [View.handed_of_packed a hc]
    exact starts_of_start (f := fun r => ((Request.new r).extendViewLifetime
        (sv.contiguousView a)).extendViewLifetime sv) (g := id) hrun
      ((((Silent.refl _).allocated _ _).log rfl).log rfl) (.inl rfl)
      (validCounts_of_nonneg (Int.natCast_nonneg _) le_rfl)
      (fun r => by simp [Request.new]) (fun h => (Heap.handed_of_packed a hc h).symm)
      fun r h => by simp

theorem starts_recvExecute (hsize : rv.size < 2147483648) (src : Int) :
    Starts (α := α) (.recvExecute rv src comm) m a
      { fn := .mpiIrecv src pointToPointTag, sendbuf := none, sendcount := 0,
        recvbuf := some (rv.handed a), recvcount := rv.size, comm := comm } id
      (Heap.unpacked a rv) := by
  have hcount := CInt.ofSize_of_lt hsize
  cases hc : rv.isContiguous with
  | true =>
    have hrun := recvExecute_contiguous hc src comm (Host.start m a)
    rw [spanCount_of_contiguous hc, wireCount, hcount] at hrun
    rw [View.handed_of_contiguous a hc]
    exact starts_of_start (f := fun r => (Request.new r).extendViewLifetime rv) (g := id) hrun
      ((Silent.refl _).log rfl) (.inl rfl) (validCounts_of_nonneg le_rfl (Int.natCast_nonneg _))
      (fun r => by simp [Request.new]) (fun h => rfl)
      fun r h => by simp [Heap.unpacked_of_contiguous hc]
  | false =>
    have hrun := recvExecute_packed hc src comm (Host.start m a)
    rw [hcount] at hrun
    rw [View.handed_of_packed a hc]
    exact starts_of_start (f := fun r => (Request.new r).addCallback
        (unpackCallback rv (rv.contiguousView a) "fence `args` unpacking after MPI call"))
      (g := id) hrun
      (((Silent.refl _).allocated _ _).log rfl) (.inl rfl)
      (validCounts_of_nonneg le_rfl (Int.natCast_nonneg _))
      (fun r => rfl) (fun h => rfl)
      fun r h => by simp [run_unpackCallback, Heap.unpacked_of_packed hc]

/-- Both views are handed over as they are. -/
theorem starts_contiguous {c : AsyncCall} {region failure : String} {call call' : MpiCall}
    (hrun : c.run = contiguousCollective region failure sv rv call') (hcall : call' = call)
    (hs : sv.isContiguous = true) (hr : rv.isContiguous = true)
    (hvalid : call.validCounts = true) : Starts (α := α) c m a call id id := by
  subst hcall
  refine starts_of_start (f := fun r => ((Request.new r).extendViewLifetime
      sv).extendViewLifetime rv) (g := fun h => h.log .popRegion)
    (by rw [hrun, contiguousCollective_eq hs hr]) (((Silent.refl _).log rfl).log rfl) (.inr rfl)
    hvalid (fun r => by simp [Request.new]) (fun h => rfl) fun r h => by simp

theorem starts_ibroadcast (hc : rv.isContiguous = true) (hsize : rv.size < 2147483648)
    (root : Int) :
    Starts (α := α) (.ibroadcast rv root comm) m a
      { fn := .mpiIbcast root, sendbuf := some rv, sendcount := rv.size, recvbuf := some rv,
        recvcount := rv.size, comm := comm } id id := by
  have hrun := ibroadcast_eq hc root comm (Host.start m a)
  rw [spanCount_of_contiguous hc, wireCount, CInt.ofSize_of_lt hsize] at hrun
  exact starts_of_start (f := fun r => (Request.new r).extendViewLifetime rv)
    (g := fun h => h.log .popRegion) hrun (((Silent.refl _).log rfl).log rfl) (.inr rfl)
    (validCounts_of_nonneg (Int.natCast_nonneg _) (Int.natCast_nonneg _))
    (fun r => by simp [Request.new]) (fun h => rfl) fun r h => by simp

/-- The root reduces into `rv`, or into a packed view. -/
theorem starts_ireduce_root (hsize : sv.size < 2147483648) (op : MpiOp) (root : Int) :
    ∃ a', a ≤ a' ∧ Starts (α := α) (.ireduce sv rv op root root comm) m a
      (ireduceCall (sv.handed a) (rv.handed a') sv.size op root comm) (Heap.handed a sv)
      (Heap.unpacked a' rv) := by
  have hcount := CInt.ofSize_of_lt hsize
  have hvalid : ∀ s r : View, (ireduceCall s r sv.size op root comm).validCounts = true :=
    fun _ _ => validCounts_of_nonneg (Int.natCast_nonneg _) (Int.natCast_nonneg _)
  cases hs : sv.isContiguous with
  | true =>
    have hspan : spanCount sv = sv.size := by rw [spanCount_of_contiguous hs, wireCount, hcount]
    refine ⟨a, Nat.le_refl a, ?_⟩
    rw [View.handed_of_contiguous a hs]
    cases hr : rv.isContiguous with
    | true =>
      have hroot : ¬ (root = root ∧ rv.isContiguous = false) := by simp [hr]
      have hrun := ireduce_direct hs hroot op comm (Host.start m a)
      rw [hspan] at hrun
      rw [View.handed_of_contiguous a hr]
      exact starts_of_start (f := fun r => ((Request.new r).extendViewLifetime
          sv).extendViewLifetime rv) (g := fun h => h.log .popRegion) hrun
        (((Silent.refl _).log rfl).log rfl) (.inr rfl) (hvalid _ _) (fun r => by simp [Request.new])
        (fun h => (Heap.handed_of_contiguous a hs h).symm)
        fun r h => by simp [Heap.unpacked_of_contiguous hr]
    | false =>
      have hroot : root = root ∧ rv.isContiguous = false := ⟨rfl, hr⟩
      have hrun := ireduce_unpack hs hroot op comm (Host.start m a)
      rw [hspan] at hrun
      rw [View.handed_of_packed a hr]
      exact starts_of_start (f := fun r => (((Request.new r).addCallback (unpackCallback rv
          (rv.contiguousView a) "fence `pkd_rv` unpacking after MPI call")).extendViewLifetime
          sv).extendViewLifetime rv) (g := fun h => h.log .popRegion) hrun
        ((((Silent.refl _).log rfl).allocated _ _).log rfl) (.inr rfl) (hvalid _ _)
        (fun r => by simp [Request.new, Request.addCallback])
        (fun h => (Heap.handed_of_contiguous a hs h).symm)
        fun r h => by simp [run_unpackCallback, Heap.unpacked_of_packed hr]
  | false =>
    refine ⟨a + 1, Nat.le_succ a, ?_⟩
    rw [View.handed_of_packed a hs]
    have hpacked : Silent (Host.start m a) ((Host.start m a).packedSend sv) :=
      ((((Silent.refl _).log rfl).allocated _ _).log rfl).log rfl
    cases hr : rv.isContiguous with
    | true =>
      have hroot : ¬ (root = root ∧ rv.isContiguous = false) := by simp [hr]
      have hrun := ireduce_packed hs hroot op comm (Host.start m a)
      rw [hcount] at hrun
      rw [View.handed_of_contiguous (a + 1) hr]
      exact starts_of_start (f := fun r => (((Request.new r).extendViewLifetime
          (sv.contiguousView a)).extendViewLifetime sv).extendViewLifetime rv)
        (g := fun h => h.log .popRegion) hrun hpacked (.inr rfl) (hvalid _ _)
        (fun r => by simp [Request.new]) (fun h => (Heap.handed_of_packed a hs h).symm)
        fun r h => by simp [Heap.unpacked_of_contiguous hr]
    | false =>
      have hroot : root = root ∧ rv.isContiguous = false := ⟨rfl, hr⟩
      have hrun := ireduce_packed_unpack hs hroot op comm (Host.start m a)
      rw [hcount] at hrun
      rw [View.handed_of_packed (a + 1) hr]
      exact starts_of_start (f := fun r => ((((Request.new r).addCallback (unpackCallback rv
          (rv.contiguousView (a + 1)) "fence `pkd_rv` unpacking after MPI call")).extendViewLifetime
          (sv.contiguousView a)).extendViewLifetime sv).extendViewLifetime rv)
        (g := fun h => h.log .popRegion) hrun ((hpacked.allocated _ _).log rfl) (.inr rfl)
        (hvalid _ _) (fun r => by simp [Request.new, Request.addCallback])
        (fun h => (Heap.handed_of_packed a hs h).symm)
        fun r h => by simp [run_unpackCallback, Heap.unpacked_of_packed hr]

/-- The other processes hand over `rv`, whatever it is. -/
theorem starts_ireduce_other (hsize : sv.size < 2147483648) (op : MpiOp) {rank root : Int}
    (hne : rank ≠ root) :
    Starts (α := α) (.ireduce sv rv op rank root comm) m a
      (ireduceCall (sv.handed a) rv sv.size op root comm) (Heap.handed a sv) id := by
  have hcount := CInt.ofSize_of_lt hsize
  have hother : ¬ (rank = root ∧ rv.isContiguous = false) := fun h => hne h.1
  have hvalid : ∀ s r : View, (ireduceCall s r sv.size op root comm).validCounts = true :=
    fun _ _ => validCounts_of_nonneg (Int.natCast_nonneg _) (Int.natCast_nonneg _)
  cases hs : sv.isContiguous with
  | true =>
    have hrun := ireduce_direct hs hother op comm (Host.start m a)
    rw [spanCount_of_contiguous hs, wireCount, hcount] at hrun
    rw [View.handed_of_contiguous a hs]
    exact starts_of_start (f := fun r => ((Request.new r).extendViewLifetime
        sv).extendViewLifetime rv) (g := fun h => h.log .popRegion) hrun
      (((Silent.refl _).log rfl).log rfl) (.inr rfl) (hvalid _ _) (fun r => by simp [Request.new])
      (fun h => (Heap.handed_of_contiguous a hs h).symm) fun r h => by simp
  | false =>
    have hrun := ireduce_packed hs hother op comm (Host.start m a)
    rw [hcount] at hrun
    rw [View.handed_of_packed a hs]
    exact starts_of_start (f := fun r => (((Request.new r).extendViewLifetime
        (sv.contiguousView a)).extendViewLifetime sv).extendViewLifetime rv)
      (g := fun h => h.log .popRegion) hrun
      (((((Silent.refl _).log rfl).allocated _ _).log rfl).log rfl) (.inr rfl) (hvalid _ _)
      (fun r => by simp [Request.new]) (fun h => (Heap.handed_of_packed a hs h).symm)
      fun r h => by simp

end Starts

/-! ## §2 Parts of a step -/

/-- What process `q` of `N` sends in a step. -/
def message (N : Nat) (heaps : Nat → Heap α) (q : Nat) : ParallelStep α n → List α
  | .event (.work _ _) => []
  | .event (.transfer src _ sv _) => sv.values (heaps src)
  | .all (.broadcast v _) => (v q).values (heaps q)
  | .all (.allgather sv _) => Memory.gather (heaps q) ((sv q).buffer (sv q).span)
  | .all (.alltoall sv _ count) => Memory.gather (heaps q) ((sv q).buffer (N * count))
  | .all (.allreduce sv _ _) => (sv q).values (heaps q)
  | .all (.reduce sv _ _ _) => (sv q).values (heaps q)

/-- The function that a collective calls, and its count. -/
def collectiveFn : Collective → MpiFn
  | .broadcast _ root => .mpiIbcast root
  | .allgather _ _ => .mpiIallgather
  | .alltoall _ _ _ => .mpiIalltoall
  | .allreduce _ _ op => .mpiIallreduce op
  | .reduce _ _ op root => .mpiIreduce op root

def collectiveCount : Collective → Nat
  | .broadcast v root => (v root).size
  | .allgather sv _ => (sv 0).size
  | .alltoall _ _ count => count
  | .allreduce _ rv _ => (rv 0).size
  | .reduce _ rv _ root => (rv root).size

section Parts

variable {ops : MpiOp → α → α → α} (W : World ops) (heaps : Nat → Heap α)

/-- `call` is one of process `p` for a step. -/
def IsCallOf (p : Nat) (call : MpiCall) : ParallelStep α n → Prop
  | .event (.work _ _) => False
  | .event (.transfer src dst _ _) => call.comm = W.comm ∧
    (p = src ∧ call.fn = mpiIsendFn W.mode dst pointToPointTag ∨
      p ≠ src ∧ p = dst ∧ call.fn = .mpiIrecv src pointToPointTag)
  | .all c => call.comm = W.comm ∧ call.fn = collectiveFn c ∧
    call.sendcount = collectiveCount c ∧ call.recvcount = collectiveCount c

/-- What there is to store for `call` of process `p`; for a collective, the
`m`-th one. -/
def brought (m p : Nat) (call : MpiCall) (s : ParallelStep α n) : List α :=
  match s with
  | .event (.transfer _ _ _ _) => message W.size heaps p s
  | _ => call.result (W.combiners p m) p
    ((List.range W.size).map fun q => if call.fn.reads q then message W.size heaps q s else [])

/-- A process, with memory `h`, that MPI has not done anything for yet. -/
structure Doing (s : ParallelStep α n) (p : Nat) (call : MpiCall) (unpack : Heap α → Heap α)
    (h : Heap α) : Prop where
  reads : call.fn.reads p = true →
    Memory.gather h (call.sent W.size) = message W.size heaps p s
  fits : call.fn.writes p = true →
    ∀ m, (brought W heaps m p call s).length ≤ (call.received W.size).length
  writes : call.fn.writes p = true → ∀ m (c : Cell), c.1 < n →
    unpack (Memory.scatter h (call.received W.size) (brought W heaps m p call s)) c =
      s.apply ops W.size heaps p c
  rests : call.fn.writes p = false → ∀ c : Cell, c.1 < n →
    unpack h c = s.apply ops W.size heaps p c

variable {W heaps} {p : Nat} {h : Heap α} {m : OpId} {a : AllocId} {c : AsyncCall}

/-- The routine `c` does the part of process `p` in a step. -/
def DoesPart (W : World ops) (heaps : Nat → Heap α) (s : ParallelStep α n) (p : Nat) (c : AsyncCall)
    (m : OpId) (a : AllocId) (h : Heap α) : Prop :=
  ∃ call pack unpack, Starts c m a call pack unpack ∧ IsCallOf W p call s ∧
    Doing W heaps s p call unpack (pack h)

/-- What the user's cells hold is not touched by packing. -/
theorem handed_user {v : View} (ha : n ≤ a) (heq : ∀ c : Cell, c.1 < n → h c = heaps p c)
    {c : Cell} (hlt : c.1 < n) : Heap.handed a v h c = heaps p c :=
  (Heap.handed_of_ne v h (Nat.ne_of_lt (Nat.lt_of_lt_of_le hlt ha))).trans (heq c hlt)

/-- What a view of the user holds. -/
theorem values_user {v : View} (hv : v.alloc < n) {g : Heap α}
    (heq : ∀ c : Cell, c.1 < n → h c = g c) : v.values h = v.values g :=
  View.values_congr fun c hc => heq c (by
    obtain ⟨i, -, rfl⟩ := View.mem_elements.mp hc
    exact hv)

theorem does_send {src dst : Nat} {sv rv : View}
    (hs : ProperStep W.size (.event (.transfer src dst sv rv) : ParallelStep α n)) (ha : n ≤ a)
    (heq : ∀ c : Cell, c.1 < n → h c = heaps src c) :
    DoesPart W heaps (.event (.transfer src dst sv rv) : ParallelStep α n) src
      (.isendImpl sv dst pointToPointTag W.mode W.comm) m a h := by
  obtain ⟨-, -, hne, hc, hsize⟩ := hs
  have hwrites : (mpiIsendFn W.mode dst pointToPointTag).writes src = false := by
    cases W.mode <;> rfl
  have hsent : ∀ count : Int, MpiCall.sent W.size
      { fn := mpiIsendFn W.mode dst pointToPointTag, sendbuf := some (sv.handed a),
        sendcount := count, recvbuf := none, recvcount := 0, comm := W.comm } =
      (sv.handed a).buffer count.toNat := fun count => by
    cases W.mode <;> simp [MpiCall.sent, mpiIsendFn]
  refine ⟨_, _, _, starts_isendImpl hsize dst pointToPointTag W.mode, ⟨rfl, .inl ⟨rfl, rfl⟩⟩,
    fun _ => ?_, fun hw => ?_, fun hw => ?_, fun _ c hlt => ?_⟩
  · rw [hsent, Int.toNat_natCast, Heap.gather_handed_values hc.sent, message]
    exact values_user hc.sends heq
  · exact absurd hw (by simp [hwrites])
  · exact absurd hw (by simp [hwrites])
  · rw [ParallelStep.apply, Event.apply, Function.update_of_ne hne]
    exact handed_user ha heq hlt

theorem does_recv {src dst : Nat} {sv rv : View}
    (hs : ProperStep W.size (.event (.transfer src dst sv rv) : ParallelStep α n)) (ha : n ≤ a)
    (heq : ∀ c : Cell, c.1 < n → h c = heaps dst c) :
    DoesPart W heaps (.event (.transfer src dst sv rv) : ParallelStep α n) dst
      (.recvExecute rv src W.comm) m a h := by
  obtain ⟨-, -, hne, hc, hsize⟩ := hs
  have hrsize : rv.size < 2147483648 := by rwa [← hc.size_eq]
  refine ⟨_, _, _, starts_recvExecute hrsize src, ⟨rfl, .inr ⟨Ne.symm hne, rfl, rfl⟩⟩,
    (fun hr => by cases hr), fun _ m => ?_, fun _ m c hlt => ?_, (fun hw => by cases hw)⟩
  · simp [brought, message, MpiCall.received, hc.size_eq]
  · rw [ParallelStep.apply, Event.apply, Function.update_self, ← hc.store_values]
    simp only [brought, message, MpiCall.received, Option.toList_some, List.flatMap_cons,
      List.flatMap_nil, List.append_nil, Int.toNat_natCast]
    exact Heap.unpacked_scatter hc.distinct (by simp [hc.size_eq]) ha hlt (heq c hlt)

theorem apply_all {d : Collective} (hp : p < W.size) :
    (ParallelStep.all d : ParallelStep α n).apply ops W.size heaps p =
      d.apply ops W.size heaps p := applyAll_of_lt hp

/-- The call of a collective on these buffers. -/
def callOn (fn : MpiFn) (sendbuf recvbuf : View) (count : Nat) (comm : MpiComm) : MpiCall :=
  { fn := fn, sendbuf := some sendbuf, sendcount := count, recvbuf := some recvbuf,
    recvcount := count, comm := comm }

section CallOn

variable (fn : MpiFn) (sendbuf recvbuf : View) (count : Nat) (comm : MpiComm) (N : Nat)

@[simp] theorem callOn_fn : (callOn fn sendbuf recvbuf count comm).fn = fn := rfl

@[simp] theorem callOn_sent : (callOn fn sendbuf recvbuf count comm).sent N =
    sendbuf.buffer (if fn = .mpiIalltoall then N * count else count) := by
  cases fn <;> simp [MpiCall.sent, callOn]

@[simp] theorem callOn_received : (callOn fn sendbuf recvbuf count comm).received N =
    recvbuf.buffer (if fn = .mpiIalltoall ∨ fn = .mpiIallgather then N * count else count) := by
  cases fn <;> simp [MpiCall.received, callOn]

theorem callOn_valid : (callOn fn sendbuf recvbuf count comm).validCounts = true :=
  validCounts_of_nonneg (Int.natCast_nonneg _) (Int.natCast_nonneg _)

theorem isCallOf_callOn (d : Collective) : IsCallOf W p
    (callOn (collectiveFn d) sendbuf recvbuf (collectiveCount d) W.comm)
    (.all d : ParallelStep α n) := ⟨rfl, rfl, rfl, rfl⟩

end CallOn

theorem does_broadcast {v : Nat → View} {root : Nat}
    (hs : ProperCollective n W.size (.broadcast v root)) (hp : p < W.size)
    (heq : ∀ c : Cell, c.1 < n → h c = heaps p c) :
    DoesPart W heaps (.all (.broadcast v root) : ParallelStep α n) p
      (.ibroadcast (v p) root W.comm) m a h := by
  obtain ⟨hroot, hviews⟩ := hs
  obtain ⟨hflat, hcarries, hsize⟩ := hviews p hp
  have hstarts : Starts (α := α) (.ibroadcast (v p) root W.comm) m a
      (callOn (.mpiIbcast root) (v p) (v p) (v root).size W.comm) id id := by
    rw [hcarries.size_eq]
    exact starts_ibroadcast hflat.contiguous hsize root
  have hbrought : ∀ m, brought W heaps m p
      (callOn (.mpiIbcast root) (v p) (v p) (v root).size W.comm)
      (.all (.broadcast v root) : ParallelStep α n) = (v root).values (heaps root) := fun m => by
    simp [brought, MpiCall.result, MpiFn.reads, message, hroot]
  refine ⟨_, _, _, hstarts, isCallOf_callOn _ _ (.broadcast v root), fun _ => ?_, fun _ m => ?_,
    fun _ m c hlt => ?_, fun hw c hlt => ?_⟩
  · show Memory.gather h ((callOn (.mpiIbcast root) (v p) (v p) (v root).size W.comm).sent _) = _
    rw [callOn_sent, if_neg MpiFn.noConfusion, hcarries.size_eq, gather_user hflat.user heq,
      gather_flat hflat.contiguous hcarries.distinct]
    rfl
  · simp [hbrought]
  · rw [apply_all hp, hbrought, callOn_received, if_neg (by simp), hcarries.size_eq]
    exact broadcast_arrives hflat hcarries hlt (heq c hlt)
  · obtain rfl : p = root := by simpa [MpiFn.writes] using hw
    rw [apply_all hp, Collective.apply, View.fill_self hcarries.distinct]
    exact heq c hlt

theorem does_allgather {sv rv : Nat → View} (hs : ProperCollective n W.size (.allgather sv rv))
    (hp : p < W.size) (heq : ∀ c : Cell, c.1 < n → h c = heaps p c) :
    DoesPart W heaps (.all (.allgather sv rv) : ParallelStep α n) p
      (.iallgather (sv p) (rv p) W.comm) m a h := by
  obtain ⟨hsend, hrecv, -, hsame, hall, hsize⟩ := hs p hp
  have hspan : ∀ q < W.size, (sv q).span = (sv 0).size := fun q hq => by
    rw [View.isContiguous_iff.mp (hs q hq).1.contiguous, (hs q hq).2.2.2.1]
  have hstarts : Starts (α := α) (.iallgather (sv p) (rv p) W.comm) m a
      (callOn .mpiIallgather (sv p) (rv p) (sv 0).size W.comm) id id := by
    have hcount : spanCount (sv p) = (sv 0).size := by
      rw [spanCount_of_contiguous hsend.contiguous, wireCount, CInt.ofSize_of_lt hsize, hsame]
    exact starts_contiguous rfl (by rw [callOn, ← hcount]) hsend.contiguous hrecv.contiguous
      (callOn_valid _ _ _ _ _)
  have hbrought : ∀ m, brought W heaps m p
      (callOn .mpiIallgather (sv p) (rv p) (sv 0).size W.comm)
      (.all (.allgather sv rv) : ParallelStep α n) =
      (List.range W.size).flatMap fun q => Memory.gather (heaps q) ((sv q).buffer (sv q).span) :=
    fun m => by simp [brought, MpiCall.result, MpiFn.reads, message, List.flatMap_def]
  have hlen : ((List.range W.size).flatMap fun q =>
      Memory.gather (heaps q) ((sv q).buffer (sv q).span)).length = W.size * (sv 0).size := by
    rw [List.length_flatMap, List.map_congr_left fun q hq => by
      rw [Memory.length_gather, View.length_buffer, hspan q (List.mem_range.mp hq)]]
    simp
  refine ⟨_, _, _, hstarts, isCallOf_callOn _ _ (.allgather sv rv), fun _ => ?_, fun _ m => ?_,
    fun _ m c hlt => ?_, fun hw => ?_⟩
  · rw [message, hspan p hp, callOn_sent, if_neg MpiFn.noConfusion]
    exact gather_user hsend.user heq
  · rw [hbrought, hlen, callOn_received, if_pos (.inr rfl), View.length_buffer]
  · rw [apply_all hp, hbrought, Collective.apply, hspan p hp, callOn_received,
      if_pos (.inr rfl)]
    exact Memory.scatter_congr (heq c hlt)
  · cases hw

theorem does_alltoall {sv rv : Nat → View} {count : Nat}
    (hs : ProperCollective n W.size (.alltoall sv rv count)) (hp : p < W.size)
    (heq : ∀ c : Cell, c.1 < n → h c = heaps p c) :
    DoesPart W heaps (.all (.alltoall sv rv count) : ParallelStep α n) p
      (.ialltoall (sv p) (rv p) count W.comm) m a h := by
  obtain ⟨hsend, hrecv, -, -, -, -⟩ := hs p hp
  have hstarts : Starts (α := α) (.ialltoall (sv p) (rv p) count W.comm) m a
      (callOn .mpiIalltoall (sv p) (rv p) count W.comm) id id :=
    starts_contiguous rfl rfl hsend.contiguous hrecv.contiguous (callOn_valid _ _ _ _ _)
  have hbrought : ∀ m, brought W heaps m p (callOn .mpiIalltoall (sv p) (rv p) count W.comm)
      (.all (.alltoall sv rv count) : ParallelStep α n) =
      (List.range W.size).flatMap fun q => BlockExchange.block count
        (Memory.gather (heaps q) ((sv q).buffer (W.size * count))) p :=
    fun m => by simp [brought, MpiCall.result, MpiFn.reads, message, callOn, List.flatMap_map]
  have hlen : ((List.range W.size).flatMap fun q => BlockExchange.block count
      (Memory.gather (heaps q) ((sv q).buffer (W.size * count))) p).length = W.size * count := by
    rw [List.length_flatMap, List.map_congr_left fun q _ =>
      BlockExchange.length_block (by simp) hp]
    simp
  refine ⟨_, _, _, hstarts, isCallOf_callOn _ _ (.alltoall sv rv count), fun _ => ?_,
    fun _ m => ?_, fun _ m c hlt => ?_, fun hw => ?_⟩
  · rw [message, callOn_sent, if_pos rfl]
    exact gather_user hsend.user heq
  · rw [hbrought, hlen, callOn_received, if_pos (.inl rfl), View.length_buffer]
  · rw [apply_all hp, hbrought, Collective.apply, callOn_received, if_pos (.inl rfl)]
    exact Memory.scatter_congr (heq c hlt)
  · cases hw

theorem does_allreduce [∀ op, Std.Associative (ops op)] {sv rv : Nat → View} {op : Nat}
    (hs : ProperCollective n W.size (.allreduce sv rv op)) (hp : p < W.size)
    (heq : ∀ c : Cell, c.1 < n → h c = heaps p c) :
    DoesPart W heaps (.all (.allreduce sv rv op) : ParallelStep α n) p
      (.iallreduce (sv p) (rv p) op W.comm) m a h := by
  obtain ⟨hsend, hrecv, -, hcarries, hsize⟩ := hs p hp
  have hzero : (sv p).size = (rv 0).size ∧ (rv p).size = (rv 0).size := by
    have h0 : 0 < W.size := Nat.zero_lt_of_lt hp
    have hsame := ((hs 0 h0).2.2.2.1 p hp).size_eq
    exact ⟨hsame, by rw [← (hcarries p hp).size_eq, hsame]⟩
  have hstarts : Starts (α := α) (.iallreduce (sv p) (rv p) op W.comm) m a
      (callOn (.mpiIallreduce op) (sv p) (rv p) (rv 0).size W.comm) id id := by
    have hcount : spanCount (sv p) = (rv 0).size := by
      rw [spanCount_of_contiguous hsend.contiguous, wireCount, CInt.ofSize_of_lt hsize, hzero.1]
    exact starts_contiguous rfl (by rw [callOn, ← hcount]) hsend.contiguous hrecv.contiguous
      (callOn_valid _ _ _ _ _)
  have hbrought : ∀ m, brought W heaps m p
      (callOn (.mpiIallreduce op) (sv p) (rv p) (rv 0).size W.comm)
      (.all (.allreduce sv rv op) : ParallelStep α n) =
      (W.combiners p m op).combineAll
        ((List.range W.size).map fun q => (sv q).values (heaps q)) (rv p).size :=
    fun m => by simp [brought, MpiCall.result, MpiFn.reads, message, callOn, hzero.2]
  refine ⟨_, _, _, hstarts, isCallOf_callOn _ _ (.allreduce sv rv op), fun _ => ?_,
    fun _ m => ?_, fun _ m c hlt => ?_, fun hw => ?_⟩
  · rw [message, callOn_sent, if_neg MpiFn.noConfusion, ← hzero.1]
    exact (gather_user hsend.user heq).trans
      (gather_flat hsend.contiguous ((hcarries p hp).sent hsend.contiguous) _)
  · simp [hbrought, hzero.2]
  · rw [apply_all hp, hbrought, callOn_received, if_neg (by simp), ← hzero.2]
    exact allreduce_arrives (W.combiners p m op) hp hrecv hcarries hlt (heq c hlt)
  · cases hw

section Reduce

variable {sv rv : Nat → View} {op root : Nat}
  (hs : ProperCollective n W.size (.reduce sv rv op root))

include hs

/-- What a process sends for a reduction, … -/
theorem sent_reduce {rv' : View} (hp : p < W.size) (heq : ∀ c : Cell, c.1 < n → h c = heaps p c) :
    Memory.gather (Heap.handed a (sv p) h) ((callOn (.mpiIreduce op root) ((sv p).handed a) rv'
      (rv root).size W.comm).sent W.size) = (sv p).values (heaps p) := by
  obtain ⟨hcarries, -⟩ := hs.2.2 p hp
  rw [callOn_sent, if_neg MpiFn.noConfusion, ← hcarries.size_eq,
    Heap.gather_handed_values hcarries.sent]
  exact values_user hcarries.sends heq

/-- … and what there is for the root. -/
theorem brought_reduce [∀ op, Std.Associative (ops op)] {sv' rv' : View} (m : Nat) :
    brought W heaps m root (callOn (.mpiIreduce op root) sv' rv' (rv root).size W.comm)
        (.all (.reduce sv rv op root) : ParallelStep α n) =
      (rv root).route.order.map fun i =>
        combined (ops op) W.size sv heaps (heaps root ((rv root).cell i)) i := by
  rw [← combineAll_carried (W.combiners root m op) (Nat.zero_lt_of_lt hs.1)
    (by simp [(rv root).enumerates_route.length_eq, View.size])
    (fun q hq => values_carried (hs.2.2 q hq).1 _) (heaps root)]
  simp [brought, MpiCall.result, MpiFn.reads, message, callOn]

theorem does_reduce_root [∀ op, Std.Associative (ops op)] (ha : n ≤ a)
    (heq : ∀ c : Cell, c.1 < n → h c = heaps root c) :
    DoesPart W heaps (.all (.reduce sv rv op root) : ParallelStep α n) root
      (.ireduce (sv root) (rv root) op root root W.comm) m a h := by
  obtain ⟨hcarries, hsize⟩ := hs.2.2 root hs.1
  obtain ⟨a', ha', hstarts⟩ : ∃ a', a ≤ a' ∧
      Starts (α := α) (.ireduce (sv root) (rv root) op root root W.comm) m a
        (callOn (.mpiIreduce op root) ((sv root).handed a) ((rv root).handed a') (sv root).size
          W.comm) (Heap.handed a (sv root)) (Heap.unpacked a' (rv root)) :=
    starts_ireduce_root hsize op root
  rw [hcarries.size_eq] at hstarts
  have hlen : (rv root).route.order.length = (rv root).size := by
    simp [(rv root).enumerates_route.length_eq, View.size]
  refine ⟨_, _, _, hstarts, isCallOf_callOn _ _ (.reduce sv rv op root),
    fun _ => sent_reduce hs hs.1 heq, fun _ m => ?_, fun _ m c hlt => ?_, fun hw => ?_⟩
  · simp [brought_reduce hs, hlen]
  · rw [apply_all hs.1, brought_reduce hs, Collective.apply, if_pos rfl, callOn_received,
      if_neg (by simp), ← View.store_map hcarries.distinct]
    exact Heap.unpacked_scatter hcarries.distinct (by simp [hlen]) (Nat.le_trans ha ha') hlt
      (handed_user ha heq hlt)
  · simp [MpiFn.writes] at hw

theorem does_reduce_other (hp : p < W.size) (hpr : p ≠ root) (ha : n ≤ a)
    (heq : ∀ c : Cell, c.1 < n → h c = heaps p c) :
    DoesPart W heaps (.all (.reduce sv rv op root) : ParallelStep α n) p
      (.ireduce (sv p) (rv p) op p root W.comm) m a h := by
  obtain ⟨hcarries, hsize⟩ := hs.2.2 p hp
  have hne : (p : Int) ≠ root := by omega
  have hstarts : Starts (α := α) (.ireduce (sv p) (rv p) op p root W.comm) m a
      (callOn (.mpiIreduce op root) ((sv p).handed a) (rv p) (sv p).size W.comm)
      (Heap.handed a (sv p)) id :=
    starts_ireduce_other hsize op hne
  rw [hcarries.size_eq] at hstarts
  have hwrites : MpiFn.writes p (.mpiIreduce op root) = false := by simp [MpiFn.writes, hne]
  refine ⟨_, _, _, hstarts, isCallOf_callOn _ _ (.reduce sv rv op root),
    fun _ => sent_reduce hs hp heq, fun hw => ?_, fun hw => ?_, fun _ c hlt => ?_⟩
  · exact absurd hw (by simp [hwrites])
  · exact absurd hw (by simp [hwrites])
  · rw [apply_all hp, Collective.apply, if_neg hpr]
    exact handed_user ha heq hlt

theorem does_reduce [∀ op, Std.Associative (ops op)] (hp : p < W.size) (ha : n ≤ a)
    (heq : ∀ c : Cell, c.1 < n → h c = heaps p c) :
    DoesPart W heaps (.all (.reduce sv rv op root) : ParallelStep α n) p
      (.ireduce (sv p) (rv p) op p root W.comm) m a h := by
  by_cases hpr : p = root
  · subst hpr
    exact does_reduce_root hs ha heq
  · exact does_reduce_other hs hp hpr ha heq

end Reduce

/-- Whatever the step, and whatever process it is. -/
theorem does_part [∀ op, Std.Associative (ops op)] {s : ParallelStep α n}
    (hs : ProperStep W.size s) (hc : partOf W p s = some c) (m : OpId) (ha : n ≤ a)
    (heq : ∀ c : Cell, c.1 < n → h c = heaps p c) : DoesPart W heaps s p c m a h := by
  cases s with
  | event e =>
    cases e with
    | work q k => cases hc
    | transfer src dst sv rv =>
      rw [partOf] at hc
      by_cases hsrc : src = p
      · subst hsrc
        rw [if_pos rfl] at hc
        cases hc
        exact does_send hs ha heq
      · rw [if_neg hsrc] at hc
        by_cases hdst : dst = p
        · subst hdst
          rw [if_pos rfl] at hc
          cases hc
          exact does_recv hs ha heq
        · rw [if_neg hdst] at hc
          cases hc
  | all d =>
    obtain ⟨hp, rfl⟩ : p < W.size ∧ collectiveCall W.comm p d = c := by
      simpa [partOf] using hc
    cases d with
    | broadcast v root => exact does_broadcast hs hp heq
    | allgather sv rv => exact does_allgather hs hp heq
    | alltoall sv rv count => exact does_alltoall hs hp heq
    | allreduce sv rv op => exact does_allreduce hs hp heq
    | reduce sv rv op root => exact does_reduce hs hp ha heq

end Parts

end KokkosComm.Mpi.Parallel
