/-
KokkosComm.Nccl.DataParallelTheorems — data-parallel programs do what they
are meant to, under every schedule.

§1 what a collective leaves on each process. §2 step after step, with all
streams empty in between, is one of the schedules; all others end alike.
§3 programs that mean the same.
-/
import KokkosComm.Nccl.ChoreographyTheorems
import KokkosComm.CollectiveTheorems
import KokkosComm.Nccl.DataParallel

namespace KokkosComm.Nccl

open Lts MultiIndex Reduction

variable {α : Type} {n : Nat}

/-! ## §1 What a collective leaves -/

section Collectives

variable [Inhabited α] {ops : NcclRedOp → α → α → α} (combiners : ∀ op, Combiner (ops op))
  {N : Nat} (hN : 0 < N) (comm : NcclComm)

/-- The memory of a process after a collective. -/
theorem after_documented (fn : TransportFn) (count : Nat) (all : fn.isCollective = true)
    (call : Nat → TransportCall) (fs : Nat → Heap α) {p : Nat} (hp : p < N) :
    (documented combiners N hN comm).after (.collective fn count all)
        ((List.range N).map call) fs p =
      Memory.scatter (fs p) ((call p).received (fn.recvCount N count))
        (fn.received combiners count ((List.range N).map fun q =>
          Memory.gather (fs q) ((call q).sent (fn.sendCount N count))) p) := by
  have hcalls : ((List.range N).map call).mapIdx (fun r c => (c, fs r)) =
      (List.range N).map fun q => (call q, fs q) := by
    refine List.ext_getElem (by simp) fun k hk hk' => ?_
    simp
  have hget : ((List.range N).map fun q => (call q, fs q))[p]? = some (call p, fs p) := by
    simp [hp]
  simp only [Fabric.after, documented, hcalls, hget, List.map_map]
  rfl

namespace Ranks

variable {combiners hN comm} {w : Ranks α} {steps : List (ParallelStep α n)}
  {heaps : Nat → Heap α}

/-- All processes come to a collective, it takes place, and all go on. -/
theorem Between.joint_all {c : Collective}
    (h : Between n (parallelProgram N (.all c :: steps)) heaps w) (fn : TransportFn) (count : Nat)
    (all : fn.isCollective = true) (call : Nat → AllocId → TransportCall)
    (pack back : Nat → AllocId → Option (View × View))
    (hmakes : ∀ p < N, ∀ a,
      (collectiveCall p c).Makes α N p comm a (call p a) (pack p a) (back p a))
    (hwire : ∀ p < N, ∀ a, (call p a).wire = ⟨fn, count⟩)
    (hafter : ∀ (a : Nat → AllocId) (hs fs : Nat → Heap α), (∀ p, n ≤ a p) →
      (∀ p (c : Cell), c.1 < n → hs p c = heaps p c) →
      (∀ p < N, fs p = copied (pack p (a p)) (hs p)) →
      ∀ p < N, ∀ cell : Cell, cell.1 < n →
        copied (back p (a p)) (Memory.scatter (fs p)
          ((call p (a p)).received (fn.recvCount N count))
          (fn.received combiners count ((List.range N).map fun q =>
            Memory.gather (fs q) ((call q (a q)).sent (fn.sendCount N count))) p)) cell =
          c.apply ops N heaps p cell) :
    ∃ as w', exec (step (documented combiners N hN comm)) w as = some w' ∧
      Between n (parallelProgram N steps) (c.applyAll ops N heaps) w' := by
  have hparties : ∀ {p}, p ∈ (Joint.collective fn count all).parties N ↔ p < N := by
    simp [Joint.parties]
  refine h.joint (.collective fn count all) (fun p => collectiveCall p c) call pack back
    (fun p hp m => ?_) (fun p hp m => ?_) (fun p hp => hmakes p (hparties.mp hp))
    (fun p hp a => ?_) (fun p hp => ?_) fun a hs fs ha hheap hfs p hp cell hlt => ?_
  · rw [parallelProgram, if_pos (hparties.mp hp)]
  · rw [parallelProgram, if_neg fun hlt => hp (hparties.mpr hlt)]
  · have hp : p < N := hparties.mp hp
    rw [hwire p hp]
    exact (if_pos hp).symm
  · exact if_neg fun hlt => hp (hparties.mpr hlt)
  · have hp : p < N := hparties.mp hp
    rw [Collective.applyAll, if_pos hp]
    refine Eq.trans ?_ (hafter a hs fs ha hheap (fun q hq => hfs q (hparties.mpr hq)) p hp cell hlt)
    exact congrArg (fun g => copied (back p (a p)) g cell)
      (after_documented combiners hN comm fn count all (fun q => call q (a q)) fs hp)

theorem Between.all_broadcast {v : Nat → View} {root : Nat}
    (hc : ProperCollective n N (.broadcast v root))
    (h : Between n (parallelProgram N (.all (.broadcast v root) :: steps)) heaps w) :
    ∃ as w', exec (step (documented combiners N hN comm)) w as = some w' ∧
      Between n (parallelProgram N steps)
        ((Collective.broadcast v root).applyAll ops N heaps) w' := by
  obtain ⟨hroot, hviews⟩ := hc
  have hspan : ∀ p < N, (v p).span = (v root).size := fun p hp => by
    rw [View.isContiguous_iff.mp (hviews p hp).1.contiguous, (hviews p hp).2.2.size_eq]
  refine h.joint_all (.contiguous (.ncclBcast root)) (v root).size rfl
    (fun p _ => .contiguous ⟨.ncclBcast root, dataHandle (v p), dataHandle (v p),
      (v p).span, comm⟩) (fun _ _ => none) (fun _ _ => none)
    (fun p hp _ => makes_broadcast (hviews p hp).1.contiguous root)
    (fun p hp a => by simp [TransportCall.wire, hspan p hp])
    fun a hs fs ha hheap hfs p hp cell hlt => ?_
  obtain ⟨hflat, -, hcarries⟩ := hviews p hp
  have hrootflat := (hviews root hroot).1
  have hmessage : Memory.gather (fs root) ((v root).buffer (v root).size) =
      (v root).values (heaps root) := by
    rw [hfs root hroot, copied, gather_user hrootflat.user (hheap root),
      gather_flat hrootflat.contiguous (hcarries.sent hrootflat.contiguous)]
  have hget : ((List.range N).map fun q => Memory.gather (fs q) ((v q).buffer (v root).size))[
      root]? = some (Memory.gather (fs root) ((v root).buffer (v root).size)) := by simp [hroot]
  show Memory.scatter (fs p) ((v p).buffer (v root).size)
    (((List.range N).map fun q => Memory.gather (fs q) ((v q).buffer (v root).size)).getD root [])
    cell = (Collective.broadcast v root).apply ops N heaps p cell
  rw [List.getD_eq_getElem?_getD, hget, Option.getD_some, hmessage, hcarries.size_eq]
  refine broadcast_arrives hflat hcarries hlt ?_
  rw [hfs p hp]
  exact hheap p cell hlt

theorem Between.all_allreduce [∀ op, Std.Associative (ops op)] {sv rv : Nat → View} {op : Nat}
    (hc : ProperCollective n N (.allreduce sv rv op))
    (h : Between n (parallelProgram N (.all (.allreduce sv rv op) :: steps)) heaps w) :
    ∃ as w', exec (step (documented combiners N hN comm)) w as = some w' ∧
      Between n (parallelProgram N steps)
        ((Collective.allreduce sv rv op).applyAll ops N heaps) w' := by
  have hspan : ∀ p < N, ∀ q < N, (sv p).span = (rv q).size := fun p hp q hq => by
    rw [View.isContiguous_iff.mp (hc p hp).1.contiguous, ((hc q hq).2.2.2 p hp).size_eq]
  refine h.joint_all (.contiguous (.ncclAllReduce op)) (rv 0).size rfl
    (fun p _ => .contiguous ⟨.ncclAllReduce op, dataHandle (sv p), dataHandle (rv p),
      (sv p).span, comm⟩) (fun _ _ => none) (fun _ _ => none)
    (fun p hp _ => makes_allreduce (hc p hp).1.contiguous (hc p hp).2.1.contiguous op)
    (fun p hp a => by simp [TransportCall.wire, hspan p hp 0 hN])
    fun a hs fs ha hheap hfs p hp cell hlt => ?_
  obtain ⟨-, hflat, -, hcarries⟩ := hc p hp
  have hsize : (rv 0).size = (rv p).size := by rw [← hspan p hp 0 hN, hspan p hp p hp]
  have hmessages : ((List.range N).map fun q => Memory.gather (fs q) ((sv q).buffer (rv p).size)) =
      (List.range N).map fun q => (sv q).values (heaps q) := by
    refine List.map_congr_left fun q hq => ?_
    have hq := List.mem_range.mp hq
    obtain ⟨hsent, -⟩ := hc q hq
    rw [hfs q hq, copied, gather_user hsent.user (hheap q), ← (hcarries q hq).size_eq,
      gather_flat hsent.contiguous ((hcarries q hq).sent hsent.contiguous)]
  show Memory.scatter (fs p) ((rv p).buffer (rv 0).size) ((combiners op).combineAll
      ((List.range N).map fun q => Memory.gather (fs q) ((sv q).buffer (rv 0).size)) (rv 0).size)
    cell = _
  rw [hsize, hmessages]
  refine allreduce_arrives (combiners op) hp hflat hcarries hlt ?_
  rw [hfs p hp]
  exact hheap p cell hlt

theorem Between.all_reduce [∀ op, Std.Associative (ops op)] {sv rv : Nat → View} {op root : Nat}
    (hc : ProperCollective n N (.reduce sv rv op root))
    (h : Between n (parallelProgram N (.all (.reduce sv rv op root) :: steps)) heaps w) :
    ∃ as w', exec (step (documented combiners N hN comm)) w as = some w' ∧
      Between n (parallelProgram N steps)
        ((Collective.reduce sv rv op root).applyAll ops N heaps) w' := by
  obtain ⟨hroot, hviews⟩ := hc
  have hsize : ∀ q < N, (sv q).size = (rv root).size := fun q hq => by
    rw [View.size, View.size, (hviews q hq).1.extents]
  have hcount : ∀ q < N, sentCount (sv q) = (rv root).size := fun q hq => by
    rw [← hsize q hq]
    exact sentCount_of_lt (hviews q hq).1.size
  refine h.joint_all (.nccl (.ncclReduce op root)) (rv root).size rfl
    (fun p a => .nccl (reduceCall ((sv p).handed a)
      (if receivesDirectly p root (rv p) then rv p
        else (rv p).contiguousView (if (sv p).isContiguous then a else a + 1))
      (sentCount (sv p)) op root comm))
    (fun p a => packs a (sv p))
    (fun p a => if receivesDirectly p root (rv p) then none
      else some (rv p, (rv p).contiguousView (if (sv p).isContiguous then a else a + 1)))
    (fun p hp a => makes_reduce (sv p) (rv p) op root)
    (fun p hp a => by simp [TransportCall.wire, reduceCall, hcount p hp])
    fun a hs fs ha hheap hfs p hp cell hlt => ?_
  have hmemory : ∀ q < N, fs q = (hs q).handed (a q) (sv q) := fun q hq => by
    rw [hfs q hq, copied_packs]
  have hkept : fs p cell = heaps p cell := by
    rw [hmemory p hp,
      Heap.handed_of_ne (sv p) _ (Nat.ne_of_lt (Nat.lt_of_lt_of_le hlt (ha p)))]
    exact hheap p cell hlt
  by_cases hpr : p = root
  · subst hpr
    have hmessage : ∀ q < N,
        Memory.gather (fs q) (((sv q).handed (a q)).buffer (rv p).size) =
          ((rv p).arrayLayout.indices (rv p).extents).map fun i => heaps q ((sv q).cell i) := by
      intro q hq
      obtain ⟨hreach, -⟩ := hviews q hq
      rw [hmemory q hq, ← hsize q hq, Heap.gather_handed_values hreach.sent, View.values,
        View.traveling, Memory.gather, List.map_map, hreach.orders]
      exact List.map_congr_left fun i _ => hheap q _ hreach.sends
    have hpacked : receivesDirectly (p : Int) (p : Int) (rv p) = false := by
      simp [receivesDirectly]
    have hreceived : (TransportFn.nccl (.ncclReduce op p)).received combiners (rv p).size
        ((List.range N).map fun q =>
          Memory.gather (fs q) (((sv q).handed (a q)).buffer (rv p).size)) p =
        ((rv p).arrayLayout.indices (rv p).extents).map fun i =>
          combined (ops op) N sv heaps (heaps p ((rv p).cell i)) i := by
      rw [TransportFn.received, if_pos rfl]
      exact combineAll_carried (combiners op) hN (by
        simp [((rv p).arrayLayout.enumerates_indices (rv p).extents).length_eq, View.size])
        hmessage (heaps p)
    simp only [hpacked, Bool.false_eq_true, if_false, copied, TransportCall.received,
      TransportCall.sent, reduceCall, Option.toList_some, List.flatMap_cons, List.flatMap_nil,
      List.append_nil, Pointer.buffer_dataHandle, TransportFn.recvCount, TransportFn.sendCount,
      hreceived]
    rw [Collective.apply, if_pos rfl]
    refine fill_packed ?_ (hviews p hp).1.distinct hlt hkept
    have := ha p
    split <;> omega
  · -- the other processes receive nothing, directly
    have hdirect : receivesDirectly (p : Int) (root : Int) (rv p) = true := by
      simp [receivesDirectly, hpr, ((hviews p hp).2 hpr).contiguous]
    have hnone : (TransportFn.nccl (.ncclReduce op root)).received combiners (rv root).size
        ((List.range N).map fun q =>
          Memory.gather (fs q) (((sv q).handed (a q)).buffer (rv root).size)) p = [] := by
      rw [TransportFn.received, if_neg (by omega)]
    simp only [hdirect, if_true, copied, TransportCall.received, TransportCall.sent, reduceCall,
      Option.toList_some, List.flatMap_cons, List.flatMap_nil, List.append_nil,
      Pointer.buffer_dataHandle, TransportFn.recvCount, TransportFn.sendCount, hnone]
    rw [Collective.apply, if_neg hpr, ← hkept]
    exact Memory.scatter_of_not_mem (by simp)

theorem Between.all_allgather {sv rv : Nat → View}
    (hc : ProperCollective n N (.allgather sv rv))
    (h : Between n (parallelProgram N (.all (.allgather sv rv) :: steps)) heaps w) :
    ∃ as w', exec (step (documented combiners N hN comm)) w as = some w' ∧
      Between n (parallelProgram N steps)
        ((Collective.allgather sv rv).applyAll ops N heaps) w' := by
  have hspan : ∀ p < N, (sv p).span = (sv 0).size := fun p hp => by
    rw [View.isContiguous_iff.mp (hc p hp).1.contiguous, (hc p hp).2.2.2.1]
  refine h.joint_all (.contiguous .ncclAllGather) (sv 0).size rfl
    (fun p _ => .contiguous ⟨.ncclAllGather, dataHandle (sv p), dataHandle (rv p), (sv p).span,
      comm⟩) (fun _ _ => none) (fun _ _ => none)
    (fun p hp _ => makes_allgather (hc p hp).1.contiguous (hc p hp).2.1.contiguous)
    (fun p hp a => by simp [TransportCall.wire, hspan p hp])
    fun a hs fs ha hheap hfs p hp cell hlt => ?_
  have hmessages : ((List.range N).map fun q => Memory.gather (fs q) ((sv q).buffer (sv 0).size)) =
      (List.range N).map fun q => Memory.gather (heaps q) ((sv q).buffer (sv q).span) := by
    refine List.map_congr_left fun q hq => ?_
    have hq := List.mem_range.mp hq
    rw [hfs q hq, copied, hspan q hq]
    exact gather_user (hc q hq).1.user (hheap q)
  show Memory.scatter (fs p) ((rv p).buffer (N * (sv 0).size))
    ((List.range N).map fun q => Memory.gather (fs q) ((sv q).buffer (sv 0).size)).flatten cell = _
  rw [hmessages, ← List.flatMap_def, Collective.apply, hspan p hp]
  refine Memory.scatter_congr ?_
  rw [hfs p hp]
  exact hheap p cell hlt

theorem Between.all_alltoall {sv rv : Nat → View} {count : Nat}
    (hc : ProperCollective n N (.alltoall sv rv count))
    (h : Between n (parallelProgram N (.all (.alltoall sv rv count) :: steps)) heaps w) :
    ∃ as w', exec (step (documented combiners N hN comm)) w as = some w' ∧
      Between n (parallelProgram N steps)
        ((Collective.alltoall sv rv count).applyAll ops N heaps) w' := by
  refine h.joint_all (.nccl .ncclAlltoAll) count rfl
    (fun p _ => .nccl ⟨.ncclAlltoAll, some (dataHandle (sv p)), some (dataHandle (rv p)), count,
      comm⟩) (fun _ _ => none) (fun _ _ => none)
    (fun p hp _ => makes_alltoall (hc p hp).1.contiguous (hc p hp).2.1.contiguous count)
    (fun p hp a => rfl) fun a hs fs ha hheap hfs p hp cell hlt => ?_
  have hmessages : ((List.range N).map fun q =>
        Memory.gather (fs q) ((sv q).buffer (N * count))) =
      (List.range N).map fun q => Memory.gather (heaps q) ((sv q).buffer (N * count)) := by
    refine List.map_congr_left fun q hq => ?_
    have hq := List.mem_range.mp hq
    rw [hfs q hq, copied]
    exact gather_user (hc q hq).1.user (hheap q)
  simp only [copied, TransportCall.received, TransportCall.sent, Option.toList_some,
    List.flatMap_cons, List.flatMap_nil, List.append_nil, Pointer.buffer_dataHandle,
    TransportFn.recvCount, TransportFn.sendCount, TransportFn.received, hmessages]
  rw [Collective.apply, List.flatMap_map]
  refine Memory.scatter_congr ?_
  rw [hfs p hp]
  exact hheap p cell hlt

/-! ## §2 Step after step -/

theorem Between.parallelStep [∀ op, Std.Associative (ops op)] {s : ParallelStep α n}
    (hs : ProperStep N s) (h : Between n (parallelProgram N (s :: steps)) heaps w) :
    ∃ as w', exec (step (documented combiners N hN comm)) w as = some w' ∧
      Between n (parallelProgram N steps) (s.apply ops N heaps) w' := by
  cases s with
  | event e =>
    cases e with
    | work p k =>
      exact h.work (fun m => by simp [parallelProgram]) fun q m hq => by
        simp [parallelProgram, Ne.symm hq]
    | transfer src dst sv rv =>
      obtain ⟨-, -, hne, hc⟩ := hs
      exact h.transfer hne hc (fun m => by simp [parallelProgram])
        (fun m => by simp [parallelProgram, hne]) fun q m hs hd => by
          simp [parallelProgram, Ne.symm hs, Ne.symm hd]
  | all c =>
    cases c with
    | broadcast v root => exact h.all_broadcast hs
    | allgather sv rv => exact h.all_allgather hs
    | alltoall sv rv count => exact h.all_alltoall hs
    | allreduce sv rv op => exact h.all_allreduce hs
    | reduce sv rv op root => exact h.all_reduce hs

variable (combiners hN comm) in
theorem Between.exists_finished_steps [∀ op, Std.Associative (ops op)]
    (h : Between n (parallelProgram N steps) heaps w) (hsteps : ∀ s ∈ steps, ProperStep N s) :
    ∃ as t, exec (step (documented combiners N hN comm)) w as = some t ∧ Finished t ∧
      ∀ p (c : Cell), c.1 < n → (t p).heap c = ParallelStep.run ops N heaps steps p c := by
  induction steps generalizing w heaps with
  | nil => exact ⟨[], w, rfl, fun p => ⟨h.program p, (h.idle p).queue⟩, h.heap⟩
  | cons s steps ih =>
    obtain ⟨as, u, has, hu⟩ : ∃ as u, exec (step (documented combiners N hN comm)) w as = some u ∧
        Between n (parallelProgram N steps) (s.apply ops N heaps) u :=
      h.parallelStep (hsteps s (by simp))
    obtain ⟨bs, t, hbs, hend, hheap⟩ := ih hu fun s hs => hsteps s (by simp [hs])
    exact ⟨as ++ bs, t, exec_append_eq_some.mpr ⟨u, has, hbs⟩, hend, hheap⟩

omit [Inhabited α] in
theorem parallelProgram_of_le {p : Nat} (hsteps : ∀ s ∈ steps, ProperStep N s) (hp : N ≤ p)
    (m : Nat) : parallelProgram N steps p m = [] := by
  induction steps generalizing m with
  | nil => rfl
  | cons s steps ih =>
    have hs := hsteps s (by simp)
    have hrest := ih fun s hs => hsteps s (by simp [hs])
    cases s with
    | event e =>
      cases e with
      | work q k =>
        have hq : q < N := hs
        rw [parallelProgram, if_neg (by omega), hrest]
      | transfer src dst sv rv =>
        obtain ⟨hsrc, hdst, -⟩ := hs
        rw [parallelProgram, if_neg (by omega), if_neg (by omega), hrest]
    | all c => rw [parallelProgram, if_neg (by omega), hrest]

omit [Inhabited α] in
theorem between_parallelPrograms (hsteps : ∀ s ∈ steps, ProperStep N s) (heaps : Nat → Heap α) :
    Between n (parallelProgram N steps) heaps (start (parallelPrograms N steps) heaps n) := by
  refine ⟨fun p => ⟨rfl, rfl, Nat.le_refl n⟩, fun p => ?_, fun p c _ => rfl⟩
  show (parallelPrograms N steps)[p]?.getD [] = parallelProgram N steps p 0
  unfold parallelPrograms
  by_cases hp : p < N
  · simp [hp]
  · rw [parallelProgram_of_le hsteps (Nat.not_lt.mp hp)]
    simp [hp]

/-- Every run can be finished, and however it is, the memories are those that
the steps mean. -/
theorem finished_parallel [∀ op, Std.Associative (ops op)]
    (hsteps : ∀ s ∈ steps, ProperStep N s) {as : List Act} {u : Ranks α}
    (hrun : exec (step (documented combiners N hN comm))
      (start (parallelPrograms N steps) heaps n) as = some u) :
    (∃ bs t, exec (step (documented combiners N hN comm)) u bs = some t ∧ Finished t) ∧
      (Finished u → ∀ p (c : Cell), c.1 < n →
        (u p).heap c = ParallelStep.run ops N heaps steps p c) := by
  obtain ⟨cs, t, hcs, hend, hheap⟩ :=
    (between_parallelPrograms hsteps heaps).exists_finished_steps combiners hN comm hsteps
  obtain ⟨⟨bs, hbs⟩, hlike⟩ := finished_like hcs hend hrun
  refine ⟨⟨bs, t, hbs, hend⟩, fun hu => ?_⟩
  rw [hlike hu]
  exact hheap

/-- **Data-parallel programs do what they are meant to.** For every number of
processes and every list of work, transfers and collectives: whatever the
schedule has done so far, all processes can still be finished, and however
that is done, the memories are those that the steps mean. -/
theorem data_parallel_carried_out [∀ op, Std.Associative (ops op)]
    (hsteps : ∀ s ∈ steps, ProperStep N s) {as : List Act} {u : Ranks α}
    (hrun : exec (step (documented combiners N hN comm))
      (start (parallelPrograms N steps) heaps n) as = some u) :
    (∃ bs t, exec (step (documented combiners N hN comm)) u bs = some t ∧ Finished t) ∧
      ∀ bs t, exec (step (documented combiners N hN comm)) u bs = some t → Finished t →
        ∀ p (c : Cell), c.1 < n → (t p).heap c = ParallelStep.run ops N heaps steps p c :=
  ⟨(finished_parallel hsteps hrun).1, fun _ _ hbs hend =>
    (finished_parallel hsteps (exec_append_eq_some.mpr ⟨u, hrun, hbs⟩)).2 hend⟩

/-! ## §3 Programs that mean the same -/

/-- **Everyone gets a reduction, or the root does and broadcasts it.** One can
be put for the other anywhere in a program: under all schedules both can be
finished, with the same memories. -/
theorem allreduce_as_reduce_broadcast [∀ op, Std.Associative (ops op)]
    {before after : List (ParallelStep α n)} {sv rv : Nat → View} {op root : Nat}
    (hone : ∀ s ∈ before ++ .all (.allreduce sv rv op) :: after, ProperStep N s)
    (htwo : ∀ s ∈ before ++ .all (.reduce sv rv op root) :: .all (.broadcast rv root) :: after,
      ProperStep N s)
    {as bs : List Act} {u t : Ranks α}
    (hu : exec (step (documented combiners N hN comm)) (start (parallelPrograms N
      (before ++ .all (.allreduce sv rv op) :: after)) heaps n) as = some u)
    (ht : exec (step (documented combiners N hN comm)) (start (parallelPrograms N
      (before ++ .all (.reduce sv rv op root) :: .all (.broadcast rv root) :: after))
      heaps n) bs = some t) :
    (∃ as' u', exec (step (documented combiners N hN comm)) u as' = some u' ∧ Finished u') ∧
      (∃ bs' t', exec (step (documented combiners N hN comm)) t bs' = some t' ∧ Finished t') ∧
      (Finished u → Finished t → ∀ p (c : Cell), c.1 < n → (u p).heap c = (t p).heap c) := by
  obtain ⟨hucan, hufinished⟩ := finished_parallel hone hu
  obtain ⟨htcan, htfinished⟩ := finished_parallel htwo ht
  refine ⟨hucan, htcan, fun hu ht p c hc => ?_⟩
  have hreduce : ProperCollective n N (.reduce sv rv op root) :=
    htwo (.all (.reduce sv rv op root)) (by simp)
  have hbroadcast : ProperCollective n N (.broadcast rv root) :=
    htwo (.all (.broadcast rv root)) (by simp)
  have hlaw := applyAll_reduce_broadcast ops (ParallelStep.run ops N heaps before) hN sv op
    hreduce.1 (fun p hp => (hbroadcast.2 p hp).2.2.extents.symm)
    (hreduce.2 root hreduce.1).1.distinct
  rw [hufinished hu p c hc, htfinished ht p c hc]
  simp only [ParallelStep.run_append, ParallelStep.run_cons, ParallelStep.apply, hlaw]

/-- **Blocks that are exchanged twice come home.** A program that ends with two
exchanges, the second from where the first one has put them, leaves in each
last buffer what was in the first one of the same process. -/
theorem alltoall_round_trip [∀ op, Std.Associative (ops op)]
    {before : List (ParallelStep α n)} {sv rv tv : Nat → View} {count : Nat}
    (hsteps : ∀ s ∈ before ++ [.all (.alltoall sv rv count), .all (.alltoall rv tv count)],
      ProperStep N s) {as : List Act} {u : Ranks α}
    (hrun : exec (step (documented combiners N hN comm)) (start (parallelPrograms N
      (before ++ [.all (.alltoall sv rv count), .all (.alltoall rv tv count)])) heaps n) as =
        some u) (hu : Finished u) :
    ∀ p < N, Memory.gather (u p).heap ((tv p).buffer (N * count)) =
      Memory.gather (ParallelStep.run ops N heaps before p) ((sv p).buffer (N * count)) := by
  intro p hp
  have hlast : ProperCollective n N (.alltoall rv tv count) :=
    hsteps (.all (.alltoall rv tv count)) (by simp)
  have hmeant := (finished_parallel hsteps hrun).2 hu p
  rw [gather_user (hlast p hp).2.1.user hmeant]
  simp only [ParallelStep.run_append, ParallelStep.run_cons, ParallelStep.run_nil,
    ParallelStep.apply]
  exact gather_alltoall_alltoall hp

end Ranks

end Collectives

/-- Every operator is addition, from left to right. -/
def adding (_ : NcclRedOp) : Combiner fun x y : Nat => x + y := .leftToRight _ 0

/-- Three elements, or two, from `base` on. -/
def three (base : Nat) (_ : Nat) : View := .line 0 base 3 1

def two (base : Nat) (_ : Nat) : View := .line 0 base 2 1

theorem flat_line (base k : Nat) : Flat 1 (.line 0 base k 1) :=
  ⟨View.isContiguous_line 0 base k, Nat.zero_lt_one⟩

/-- Two processes add up three elements; the second one gets the sum of three
elements of a strided line, too. -/
def sums : List (ParallelStep Nat 1) :=
  [.all (.allreduce (three 0) (three 3) 0),
    .all (.reduce (fun _ => .line 0 0 3 2) (three 6) 0 1)]

theorem carries_three : Carries 1 (three 0 0) (three 3 0) :=
  ⟨by decide, by decide, by decide, by decide, .inl (by decide), by decide, by decide⟩

theorem proper_allreduce : ProperCollective 1 2 (.allreduce (three 0) (three 3) 0) := by
  have hapart : Apart (three 0 0) (three 3 0) := by
    unfold Apart
    decide
  exact fun p _ => ⟨flat_line 0 3, flat_line 3 3, .inr hapart, fun _ _ => carries_three⟩

theorem proper_sums : ∀ s ∈ sums, ProperStep 2 s := by
  have hreaches : ReachesPacked 1 (.line 0 0 3 2) (three 6 1) :=
    ⟨by decide, by decide, by decide, by decide, .inl (by decide), by decide, by decide⟩
  intro s hs
  simp only [sums, List.mem_cons, List.not_mem_nil, or_false] at hs
  rcases hs with rfl | rfl
  · exact proper_allreduce
  · exact ⟨Nat.lt_succ_self 1, fun p _ => ⟨hreaches, fun _ => flat_line 6 3⟩⟩

theorem sums_carried_out : ∃ bs t,
    exec (Ranks.step (documented adding 2 (by decide) 0))
      (.start (parallelPrograms 2 sums) (fun p c => 100 * p + c.2) 1) bs = some t ∧
      t.Finished ∧ (t 0).heap (0, 4) = 102 ∧ (t 1).heap (0, 7) = 104 := by
  have hstart : exec (Ranks.step (documented adding 2 (by decide) 0))
    (.start (parallelPrograms 2 sums) (fun p c => 100 * p + c.2) 1) [] = some _ := rfl
  obtain ⟨⟨bs, t, hbs, hend⟩, hall⟩ := Ranks.data_parallel_carried_out proper_sums hstart
  exact ⟨bs, t, hbs, hend, (hall bs t hbs hend 0 (0, 4) (by decide)).trans (by decide +kernel),
    (hall bs t hbs hend 1 (0, 7) (by decide)).trans (by decide +kernel)⟩

/-- Everyone gets the sum, … -/
def sumForAll : List (ParallelStep Nat 1) := [] ++ .all (.allreduce (three 0) (three 3) 0) :: []

/-- … or process 1 does, and hands it out. -/
def sumHandedOut : List (ParallelStep Nat 1) :=
  [] ++ .all (.reduce (three 0) (three 3) 0 1) :: .all (.broadcast (three 3) 1) :: []

theorem sum_handed_out : ∃ as u bs t,
    exec (Ranks.step (documented adding 2 (by decide) 0))
      (.start (parallelPrograms 2 sumForAll) (fun p c => 100 * p + c.2) 1) as = some u ∧
      exec (Ranks.step (documented adding 2 (by decide) 0))
        (.start (parallelPrograms 2 sumHandedOut) (fun p c => 100 * p + c.2) 1) bs = some t ∧
      u.Finished ∧ (t.Finished → (u 0).heap (0, 4) = (t 0).heap (0, 4)) := by
  have hreaches : ReachesPacked 1 (three 0 0) (three 3 1) :=
    ⟨by decide, by decide, by decide, by decide, .inl (by decide), by decide, by decide⟩
  have hcarries : Carries 1 (three 3 1) (three 3 0) :=
    ⟨by decide, by decide, by decide, by decide, .inl (by decide), by decide, by decide⟩
  have hone : ∀ s ∈ sumForAll, ProperStep 2 s := by
    intro s hs
    obtain rfl : s = .all (.allreduce (three 0) (three 3) 0) := by simpa [sumForAll] using hs
    exact proper_allreduce
  have htwo : ∀ s ∈ sumHandedOut, ProperStep 2 s := by
    intro s hs
    simp only [sumHandedOut, List.nil_append, List.mem_cons, List.not_mem_nil, or_false] at hs
    rcases hs with rfl | rfl
    · exact ⟨Nat.lt_succ_self 1, fun p _ => ⟨hreaches, fun _ => flat_line 3 3⟩⟩
    · exact ⟨Nat.lt_succ_self 1, fun p _ => ⟨flat_line 3 3, Nat.le_refl 1, hcarries⟩⟩
  have hu : exec (Ranks.step (documented adding 2 (by decide) 0))
      (.start (parallelPrograms 2 sumForAll) (fun p c => 100 * p + c.2) 1) [] = some _ := rfl
  have ht : exec (Ranks.step (documented adding 2 (by decide) 0))
      (.start (parallelPrograms 2 sumHandedOut) (fun p c => 100 * p + c.2) 1) [] = some _ := rfl
  obtain ⟨⟨as, u, has, hend⟩, ⟨bs, t, hbs, -⟩, -⟩ :=
    Ranks.allreduce_as_reduce_broadcast hone htwo hu ht
  obtain ⟨-, -, hsame⟩ := Ranks.allreduce_as_reduce_broadcast hone htwo has hbs
  exact ⟨as, u, bs, t, has, hbs, hend, fun ht => hsame hend ht 0 (0, 4) (by decide)⟩

/-- Two processes exchange single elements, and exchange them back. -/
def outAndBack : List (ParallelStep Nat 1) :=
  [] ++ [.all (.alltoall (two 0) (two 2) 1), .all (.alltoall (two 2) (two 4) 1)]

theorem outAndBack_round_trip : ∃ as u,
    exec (Ranks.step (documented adding 2 (by decide) 0))
      (.start (parallelPrograms 2 outAndBack) (fun p c => 100 * p + c.2) 1) as = some u ∧
      (u 1).heap (0, 5) = 101 := by
  have hproper : ∀ base base', Apart (two base 0) (two base' 0) →
      ProperCollective 1 2 (.alltoall (two base) (two base') 1) := fun base base' hapart p _ =>
    ⟨flat_line base 2, flat_line base' 2, hapart, rfl, rfl⟩
  have hsteps : ∀ s ∈ outAndBack, ProperStep 2 s := by
    intro s hs
    simp only [outAndBack, List.nil_append, List.mem_cons, List.not_mem_nil, or_false] at hs
    rcases hs with rfl | rfl
    · exact hproper 0 2 (by unfold Apart; decide)
    · exact hproper 2 4 (by unfold Apart; decide)
  have hstart : exec (Ranks.step (documented adding 2 (by decide) 0))
      (.start (parallelPrograms 2 outAndBack) (fun p c => 100 * p + c.2) 1) [] = some _ := rfl
  obtain ⟨⟨as, u, has, hend⟩, -⟩ := Ranks.finished_parallel hsteps hstart
  have hback := Ranks.alltoall_round_trip hsteps has hend 1 (by decide)
  exact ⟨as, u, has, congrArg (fun xs => xs.getD 1 0) hback⟩

end KokkosComm.Nccl
