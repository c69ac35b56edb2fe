/-
KokkosComm.Nccl.StreamsTheorems — the schedule of hosts and streams does not
matter.

§1 two steps that can both be made commute: a host that enqueues and a
stream that works touch different ends of the queue, and two operations
that are ready share no party, since the call that is next on a stream says
which operation it belongs to. §2 what each routine enqueues. §3 every step
leaves less to do, so every program ends; by §1 it has one end only.
-/
import KokkosComm.Foundation.Diamond
import KokkosComm.Nccl.PointToPointTheorems
import KokkosComm.Nccl.Streams
import Mathlib.Algebra.Order.BigOperators.Group.Finset

namespace KokkosComm.Nccl

open Lts
open Mpi (Callback SpaceOp)

variable {α : Type}

/-! ## §1 The order of the steps -/

namespace Rank

variable {R R' : Rank α} {size rank : Nat} {comm : NcclComm} {heap : Heap α}

@[simp] theorem pop_queue (R : Rank α) (heap : Heap α) : (R.pop heap).queue = R.queue.tail := rfl
@[simp] theorem pop_program (R : Rank α) (heap : Heap α) : (R.pop heap).program = R.program := rfl
@[simp] theorem pop_heap (R : Rank α) (heap : Heap α) : (R.pop heap).heap = heap := rfl

/-- What the host does when something is on the stream, it also does after
the stream has done it. -/
structure Independent (R R' : Rank α) (size rank : Nat) (comm : NcclComm) : Prop where
  head : R'.queue.head? = R.queue.head?
  heap : R'.heap = R.heap
  pop : ∀ heap, (R.pop heap).host size rank comm = .returns (R'.pop heap)

theorem post_of_returns {routine : Routine (Request Callback × Option ContiguousCall)}
    {req : Request Callback} {call : Option ContiguousCall} {host : Host}
    (hrun : routine { nextAlloc := R.nextAlloc, events := R.events, trace := [] } =
      .returns ((req, call), host)) :
    R.post routine = .returns (R.posted (enqueued host.trace ++
      call.toList.map fun call => .transport (.contiguous call)) req host) := by
  rw [post, hrun]
  rfl

theorem wait_of_done {k : Nat} {req : Request Callback} {e : EventId}
    (hreq : R.requests[k]? = some req) (he : req.request_ = some e)
    (hdone : R.recorded e ≤ R.done) :
    R.wait k = .returns { R with
      program  := (req.callbacks_.flatMap Callback.body).map .space ++ R.program
      requests := R.requests.set k { req with callbacks_ := [] } } := by
  simp only [wait, hreq, he, if_pos hdone]

theorem posted_pop (hne : R.queue ≠ []) (heap : Heap α) (ops : List (StreamOp α))
    (req : Request Callback) (host : Host) :
    (R.pop heap).posted ops req host = (R.posted ops req host).pop heap := by
  have hlen : R.queue.tail.length + 1 = R.queue.length := by
    have := List.length_pos_iff.mpr hne
    rw [List.length_tail]
    omega
  simp only [posted, pop, List.tail_append_of_ne_nil hne, Rank.mk.injEq, true_and, and_true]
  cases req.request_ with
  | none => rfl
  | some e =>
    show Function.update _ e _ = Function.update _ e _
    congr 1
    omega

theorem post_pop {routine : Routine (Request Callback × Option ContiguousCall)}
    (h : R.post routine = .returns R') (hne : R.queue ≠ []) :
    R'.queue.head? = R.queue.head? ∧ R'.heap = R.heap ∧
      ∀ heap, (R.pop heap).post routine = .returns (R'.pop heap) := by
  obtain ⟨⟨⟨req, call⟩, host⟩, hrun, heq⟩ := Outcome.bind_eq_returns.mp h
  cases heq
  refine ⟨List.head?_append_of_ne_nil _ hne, rfl, fun heap => ?_⟩
  rw [← posted_pop hne]
  exact post_of_returns hrun

theorem host_independent (h : R.host size rank comm = .returns R') (hne : R.queue ≠ []) :
    Independent R R' size rank comm := by
  unfold host at h
  cases hprog : R.program with
  | nil => simp [hprog] at h
  | cons i rest =>
    simp only [hprog] at h
    cases i with
    | call c =>
      obtain ⟨hhead, hheap, hpop⟩ := post_pop h hne
      refine ⟨hhead, hheap, fun heap => ?_⟩
      rw [host, pop_program, hprog]
      exact hpop heap
    | kernel run =>
      cases h
      refine ⟨List.head?_append_of_ne_nil _ hne, rfl, fun heap => ?_⟩
      rw [host, pop_program, hprog]
      simp [enqueue, pop, List.tail_append_of_ne_nil hne]
    | space c =>
      cases c with
      | deepCopy dst src =>
        cases h
        refine ⟨List.head?_append_of_ne_nil _ hne, rfl, fun heap => ?_⟩
        rw [host, pop_program, hprog]
        simp [enqueue, pop, List.tail_append_of_ne_nil hne]
      | fence label =>
        simp [hne] at h
    | wait k =>
      unfold wait at h
      cases hreq : R.requests[k]? with
      | none => simp [hreq] at h
      | some req =>
        cases he : req.request_ with
        | none => simp [hreq, he] at h
        | some e =>
          by_cases hle : R.recorded e ≤ R.done
          · simp only [hreq, he, if_pos hle, Outcome.returns.injEq] at h
            subst h
            refine ⟨rfl, rfl, fun heap => ?_⟩
            rw [host, pop_program, hprog]
            simp only [wait, pop, hreq, he, if_pos (Nat.le_succ_of_le hle)]
          · simp [hreq, he, hle] at h

end Rank

section Joints

variable {F : Fabric α} {w v : Ranks α} {t t' : Joint} {p : Nat}

namespace Joint

theorem wire_transfer {src dst count size : Nat} {ne : src ≠ dst} {l : Wire} :
    (transfer src dst count ne).wire size p = some l ↔
      p = src ∧ l = ⟨.nccl (.ncclSend dst), count⟩ ∨
        p = dst ∧ l = ⟨.nccl (.ncclRecv src), count⟩ := by
  unfold wire
  by_cases hsrc : p = src
  · simp [hsrc, ne, eq_comm]
  · simp [hsrc, eq_comm]

theorem wire_collective {fn : TransportFn} {count size : Nat} {all : fn.isCollective = true}
    {l : Wire} :
    (collective fn count all).wire size p = some l ↔ p < size ∧ l = ⟨fn, count⟩ := by
  simp [wire, eq_comm]

/-- The parties are those that have a call. -/
theorem mem_parties_iff {size : Nat} :
    p ∈ t.parties size ↔ ∃ l, t.wire size p = some l := by
  cases t with
  | transfer src dst count ne =>
    simp only [wire_transfer, parties, List.mem_cons, List.not_mem_nil, or_false]
    constructor
    · rintro (rfl | rfl)
      · exact ⟨_, .inl ⟨rfl, rfl⟩⟩
      · exact ⟨_, .inr ⟨rfl, rfl⟩⟩
    · rintro ⟨l, ⟨rfl, _⟩ | ⟨rfl, _⟩⟩
      · exact .inl rfl
      · exact .inr rfl
  | collective fn count all =>
    simp only [wire_collective, parties, List.mem_range]
    exact ⟨fun h => ⟨_, h, rfl⟩, fun ⟨_, h, _⟩ => h⟩

/-- The call of one party says what the operation is. -/
theorem eq_of_wire {size : Nat} {l : Wire} (h : t.wire size p = some l)
    (h' : t'.wire size p = some l) : t = t' := by
  cases t with
  | transfer src dst count ne =>
    cases t' with
    | transfer src' dst' count' ne' =>
      rcases wire_transfer.mp h with ⟨rfl, rfl⟩ | ⟨rfl, rfl⟩
      · simpa [wire_transfer] using h'
      · simpa [wire_transfer, and_comm, and_left_comm, eq_comm] using h'
    | collective fn count all =>
      obtain ⟨_, rfl⟩ := wire_collective.mp h'
      rcases wire_transfer.mp h with ⟨_, heq⟩ | ⟨_, heq⟩
      · cases heq
        cases all
      · cases heq
        cases all
  | collective fn count all =>
    obtain ⟨_, rfl⟩ := wire_collective.mp h
    cases t' with
    | transfer src dst count ne =>
      rcases wire_transfer.mp h' with ⟨_, heq⟩ | ⟨_, heq⟩
      · cases heq
        cases all
      · cases heq
        cases all
    | collective fn' count' all' => simpa [wire_collective] using (wire_collective.mp h').2

end Joint

/-- All parties have the same calls next, and the same memories. -/
def SameHeads (F : Fabric α) (w v : Ranks α) (t : Joint) : Prop :=
  ∀ q ∈ t.parties F.size, (v q).queue.head? = (w q).queue.head? ∧ (v q).heap = (w q).heap

theorem SameHeads.head? (h : SameHeads F w v t) {q : Nat} (hq : q ∈ t.parties F.size) :
    (v q).head? = (w q).head? := by
  rw [Rank.head?, Rank.head?, (h q hq).1]

theorem SameHeads.ready (h : SameHeads F w v t) (hready : w.Ready F t) : v.Ready F t :=
  fun q hq => by rw [h.head? hq, hready q hq]

theorem SameHeads.heapAfter_eq (h : SameHeads F w v t) (hp : p ∈ t.parties F.size) :
    v.heapAfter F t p = w.heapAfter F t p := by
  have hcalls : (t.parties F.size).filterMap (fun q => (v q).head?) =
      (t.parties F.size).filterMap fun q => (w q).head? :=
    List.filterMap_congr fun q hq => h.head? hq
  unfold Ranks.heapAfter
  rw [hcalls]
  cases t with
  | transfer src dst count ne =>
    simp only [Fabric.after, (h src (by simp [Joint.parties])).2,
      (h dst (by simp [Joint.parties])).2, (h p hp).2]
  | collective fn count all =>
    simp only [Fabric.after]
    congr 1
    refine List.ext_getElem? fun r => ?_
    rw [List.getElem?_mapIdx, List.getElem?_mapIdx]
    cases hr : (List.filterMap (fun q => (w q).head?)
        (Joint.parties F.size (.collective fn count all)))[r]? with
    | none => rfl
    | some c =>
      have hlt := (List.getElem?_eq_some_iff.mp hr).1
      have hle : r < F.size := by
        refine Nat.lt_of_lt_of_le hlt ((List.length_filterMap_le _ _).trans ?_)
        simp [Joint.parties]
      rw [Option.map_some, Option.map_some, (h r (List.mem_range.mpr hle)).2]

theorem Ranks.meet_of_mem (hp : p ∈ t.parties F.size) :
    w.meet F t p = (w p).pop (w.heapAfter F t p) := if_pos hp

theorem Ranks.meet_of_not_mem (hp : p ∉ t.parties F.size) : w.meet F t p = w p := if_neg hp

/-- A party is at a call. -/
theorem Ranks.Ready.queue_ne_nil (h : w.Ready F t) (hp : p ∈ t.parties F.size) :
    (w p).queue ≠ [] := by
  obtain ⟨l, hl⟩ := Joint.mem_parties_iff.mp hp
  have hhead := h p hp
  rw [hl, Rank.head?] at hhead
  intro hnil
  simp [hnil] at hhead

end Joints

namespace Ranks

section Steps

variable {F : Fabric α} {w w' v : Ranks α} {t t' : Joint} {p q : Nat}

theorem step_host : w.step F (.host p) = some w' ↔
    ∃ R, (w p).host F.size p F.comm = .returns R ∧ w' = Function.update w p R := by
  rw [step, Outcome.toOption_eq_some, perform, Outcome.bind_eq_returns]
  simp only [Outcome.returns.injEq, eq_comm]

theorem step_work : w.step F (.work p) = some w' ↔
    ∃ f, (w p).queue.head?.bind StreamOp.effect = some f ∧
      w' = Function.update w p ((w p).pop (f (w p).heap)) := by
  rw [step, Outcome.toOption_eq_some, perform, Outcome.bind_eq_returns]
  unfold Rank.work
  cases (w p).queue.head?.bind StreamOp.effect with
  | none => simp
  | some f => simp [eq_comm]

theorem step_meet : w.step F (.meet t) = some w' ↔ w.Ready F t ∧ w' = w.meet F t := by
  rw [step, Outcome.toOption_eq_some, perform]
  by_cases h : w.Ready F t
  · simp [h, eq_comm]
  · simp [h]

theorem queue_ne_nil_of_effect {R : Rank α} {f : Heap α → Heap α}
    (h : R.queue.head?.bind StreamOp.effect = some f) : R.queue ≠ [] := by
  intro hnil
  simp [hnil] at h

/-- A party of an operation is not at work of its own. -/
theorem not_mem_of_effect (hready : w.Ready F t) {f : Heap α → Heap α}
    (h : (w p).queue.head?.bind StreamOp.effect = some f) : p ∉ t.parties F.size := by
  intro hp
  obtain ⟨l, hl⟩ := Joint.mem_parties_iff.mp hp
  have hhead := hready p hp
  rw [hl, Rank.head?] at hhead
  cases hq : (w p).queue.head? with
  | none => simp [hq] at hhead
  | some x =>
    cases x with
    | copy dst src => simp [hq, StreamOp.call?] at hhead
    | kernel run => simp [hq, StreamOp.call?] at hhead
    | transport call => simp [hq, StreamOp.effect] at h

/-- Two operations that are ready have no party in common. -/
theorem eq_of_ready (hready : w.Ready F t) (hready' : w.Ready F t') (hp : p ∈ t.parties F.size)
    (hp' : p ∈ t'.parties F.size) : t = t' := by
  obtain ⟨l, hl⟩ := Joint.mem_parties_iff.mp hp
  refine Joint.eq_of_wire hl ?_
  rw [← hready' p hp', hready p hp, hl]

/-- The same result after both steps. -/
def Joins (F : Fabric α) (a b : Act) (v v' : Ranks α) : Prop :=
  ∃ u, v.step F b = some u ∧ v'.step F a = some u

theorem Joins.symm {a b : Act} {v v' : Ranks α} (h : Joins F a b v v') : Joins F b a v' v := by
  obtain ⟨u, hu, hu'⟩ := h
  exact ⟨u, hu', hu⟩

theorem joins_host_host {R R' : Rank α} (hpq : p ≠ q)
    (hR : (w p).host F.size p F.comm = .returns R)
    (hR' : (w q).host F.size q F.comm = .returns R') :
    Joins F (.host p) (.host q) (Function.update w p R) (Function.update w q R') := by
  refine ⟨_, step_host.mpr ⟨R', ?_, rfl⟩, step_host.mpr ⟨R, ?_, ?_⟩⟩
  · rwa [Function.update_of_ne hpq.symm]
  · rwa [Function.update_of_ne hpq]
  · exact Function.update_comm hpq R R' w

theorem joins_work_work {f g : Heap α → Heap α} (hpq : p ≠ q)
    (hf : (w p).queue.head?.bind StreamOp.effect = some f)
    (hg : (w q).queue.head?.bind StreamOp.effect = some g) :
    Joins F (.work p) (.work q) (Function.update w p ((w p).pop (f (w p).heap)))
      (Function.update w q ((w q).pop (g (w q).heap))) := by
  refine ⟨_, step_work.mpr ⟨g, ?_, rfl⟩, step_work.mpr ⟨f, ?_, ?_⟩⟩
  · rwa [Function.update_of_ne hpq.symm]
  · rwa [Function.update_of_ne hpq]
  · rw [Function.update_of_ne hpq.symm, Function.update_of_ne hpq]
    exact Function.update_comm hpq _ _ w

theorem joins_host_work {R : Rank α} {f : Heap α → Heap α}
    (hR : (w p).host F.size p F.comm = .returns R)
    (hf : (w q).queue.head?.bind StreamOp.effect = some f) :
    Joins F (.host p) (.work q) (Function.update w p R)
      (Function.update w q ((w q).pop (f (w q).heap))) := by
  by_cases hpq : p = q
  · subst hpq
    have hind := Rank.host_independent hR (queue_ne_nil_of_effect hf)
    refine ⟨_, step_work.mpr ⟨f, ?_, rfl⟩, step_host.mpr ⟨R.pop (f (w p).heap), ?_, ?_⟩⟩
    · rw [Function.update_self, hind.head, hf]
    · rw [Function.update_self]
      exact hind.pop _
    · rw [Function.update_self, Function.update_idem, Function.update_idem, hind.heap]
  · refine ⟨_, step_work.mpr ⟨f, ?_, rfl⟩, step_host.mpr ⟨R, ?_, ?_⟩⟩
    · rwa [Function.update_of_ne (Ne.symm hpq)]
    · rwa [Function.update_of_ne hpq]
    · rw [Function.update_of_ne (Ne.symm hpq)]
      exact Function.update_comm hpq _ _ w

/-- An operation, after a step of one process that it does not see. -/
theorem meet_update {R : Rank α} (hsame : SameHeads F w (Function.update w p R) t) :
    meet F (Function.update w p R) t = Function.update (w.meet F t) p
      (if p ∈ t.parties F.size then R.pop (w.heapAfter F t p) else R) := by
  funext q
  by_cases hqp : q = p
  · subst hqp
    rw [Function.update_self]
    by_cases hq : q ∈ t.parties F.size
    · rw [meet_of_mem hq, if_pos hq, Function.update_self, hsame.heapAfter_eq hq]
    · rw [meet_of_not_mem hq, if_neg hq, Function.update_self]
  · rw [Function.update_of_ne hqp]
    by_cases hq : q ∈ t.parties F.size
    · rw [meet_of_mem hq, meet_of_mem hq, Function.update_of_ne hqp, hsame.heapAfter_eq hq]
    · rw [meet_of_not_mem hq, meet_of_not_mem hq, Function.update_of_ne hqp]

/-- A step of a process that is no party. -/
theorem sameHeads_update {R : Rank α} (hp : p ∉ t.parties F.size) :
    SameHeads F w (Function.update w p R) t := by
  intro q hq
  have hqp : q ≠ p := fun h => hp (h ▸ hq)
  rw [Function.update_of_ne hqp]
  exact ⟨rfl, rfl⟩

theorem joins_host_meet {R : Rank α} (hR : (w p).host F.size p F.comm = .returns R)
    (hready : w.Ready F t) :
    Joins F (.host p) (.meet t) (Function.update w p R) (w.meet F t) := by
  by_cases hp : p ∈ t.parties F.size
  · have hind := Rank.host_independent hR (hready.queue_ne_nil hp)
    have hsame : SameHeads F w (Function.update w p R) t := by
      intro q hq
      by_cases hqp : q = p
      · subst hqp
        rw [Function.update_self]
        exact ⟨hind.head, hind.heap⟩
      · rw [Function.update_of_ne hqp]
        exact ⟨rfl, rfl⟩
    refine ⟨_, step_meet.mpr ⟨hsame.ready hready, rfl⟩,
      step_host.mpr ⟨R.pop (w.heapAfter F t p), ?_, ?_⟩⟩
    · rw [meet_of_mem hp]
      exact hind.pop _
    · rw [meet_update hsame, if_pos hp]
  · have hsame := sameHeads_update (F := F) (w := w) (R := R) hp
    refine ⟨_, step_meet.mpr ⟨hsame.ready hready, rfl⟩, step_host.mpr ⟨R, ?_, ?_⟩⟩
    · rwa [meet_of_not_mem hp]
    · rw [meet_update hsame, if_neg hp]

theorem joins_work_meet {f : Heap α → Heap α}
    (hf : (w p).queue.head?.bind StreamOp.effect = some f) (hready : w.Ready F t) :
    Joins F (.work p) (.meet t) (Function.update w p ((w p).pop (f (w p).heap)))
      (w.meet F t) := by
  have hp := not_mem_of_effect hready hf
  have hsame := sameHeads_update (F := F) (w := w) (R := (w p).pop (f (w p).heap)) hp
  refine ⟨_, step_meet.mpr ⟨hsame.ready hready, rfl⟩, step_work.mpr ⟨f, ?_, ?_⟩⟩
  · rwa [meet_of_not_mem hp]
  · rw [meet_update hsame, if_neg hp, meet_of_not_mem hp]

theorem joins_meet_meet (htt' : t ≠ t') (hready : w.Ready F t) (hready' : w.Ready F t') :
    Joins F (.meet t) (.meet t') (w.meet F t) (w.meet F t') := by
  have hdisj : ∀ {q}, q ∈ t.parties F.size → q ∉ t'.parties F.size :=
    fun hq hq' => htt' (eq_of_ready hready hready' hq hq')
  have hsame : SameHeads F w (w.meet F t) t' := fun q hq => by
    rw [meet_of_not_mem fun h => hdisj h hq]
    exact ⟨rfl, rfl⟩
  have hsame' : SameHeads F w (w.meet F t') t := fun q hq => by
    rw [meet_of_not_mem (hdisj hq)]
    exact ⟨rfl, rfl⟩
  refine ⟨_, step_meet.mpr ⟨hsame.ready hready', rfl⟩,
    step_meet.mpr ⟨hsame'.ready hready, ?_⟩⟩
  funext q
  by_cases hq : q ∈ t.parties F.size
  · have hq' := hdisj hq
    rw [meet_of_not_mem hq', meet_of_mem hq, meet_of_mem hq, meet_of_not_mem hq',
      hsame'.heapAfter_eq hq]
  · by_cases hq' : q ∈ t'.parties F.size
    · rw [meet_of_mem hq', meet_of_not_mem hq, meet_of_not_mem hq, meet_of_mem hq',
        hsame.heapAfter_eq hq']
    · rw [meet_of_not_mem hq', meet_of_not_mem hq, meet_of_not_mem hq, meet_of_not_mem hq']

/-- Two steps of a network that can both be made can be made in either
order. -/
theorem commutes (F : Fabric α) : Commutes (step F) := by
  intro w a b v v' hab ha hb
  show Joins F a b v v'
  cases a with
  | host p =>
    obtain ⟨R, hR, rfl⟩ := step_host.mp ha
    cases b with
    | host q =>
      obtain ⟨R', hR', rfl⟩ := step_host.mp hb
      exact joins_host_host (fun h => hab (h ▸ rfl)) hR hR'
    | work q =>
      obtain ⟨f, hf, rfl⟩ := step_work.mp hb
      exact joins_host_work hR hf
    | meet t =>
      obtain ⟨hready, rfl⟩ := step_meet.mp hb
      exact joins_host_meet hR hready
  | work p =>
    obtain ⟨f, hf, rfl⟩ := step_work.mp ha
    cases b with
    | host q =>
      obtain ⟨R, hR, rfl⟩ := step_host.mp hb
      exact (joins_host_work hR hf).symm
    | work q =>
      obtain ⟨g, hg, rfl⟩ := step_work.mp hb
      exact joins_work_work (fun h => hab (h ▸ rfl)) hf hg
    | meet t =>
      obtain ⟨hready, rfl⟩ := step_meet.mp hb
      exact joins_work_meet hf hready
  | meet t =>
    obtain ⟨hready, rfl⟩ := step_meet.mp ha
    cases b with
    | host q =>
      obtain ⟨R, hR, rfl⟩ := step_host.mp hb
      exact (joins_host_meet hR hready).symm
    | work q =>
      obtain ⟨f, hf, rfl⟩ := step_work.mp hb
      exact (joins_work_meet hf hready).symm
    | meet t' =>
      obtain ⟨hready', rfl⟩ := step_meet.mp hb
      exact joins_meet_meet (fun h => hab (h ▸ rfl)) hready hready'

end Steps

end Ranks

/-! ## §2 What a routine enqueues -/

namespace Call

/-- The call of NCCL that a routine makes. -/
def wire : Call → Wire
  | send sv peer => ⟨.nccl (.ncclSend peer), sentCount sv⟩
  | recv rv peer => ⟨.nccl (.ncclRecv peer), sentCount rv⟩
  | reduce sv _ op root => ⟨.nccl (.ncclReduce op root), sentCount sv⟩
  | alltoall _ _ count => ⟨.nccl .ncclAlltoAll, count⟩
  | allgather sv _ => ⟨.contiguous .ncclAllGather, sv.span⟩
  | allreduce sv _ op => ⟨.contiguous (.ncclAllReduce op), sv.span⟩
  | broadcast v root => ⟨.contiguous (.ncclBcast root), v.span⟩

/-- The views that have to be contiguous. -/
def contiguous : Call → List View
  | alltoall sv rv _ => [sv, rv]
  | allgather sv rv => [sv, rv]
  | allreduce sv rv _ => [sv, rv]
  | broadcast v _ => [v]
  | _ => []

/-- The routine accepts its views. -/
def Accepts (c : Call) : Prop := ∀ v ∈ c.contiguous, v.isContiguous = true

instance (c : Call) : Decidable c.Accepts := inferInstanceAs (Decidable (∀ v ∈ c.contiguous, _))

end Call

/-- The copies that pack a send view. -/
def packing (a : AllocId) (sv : View) : List (StreamOp α) :=
  if sv.isContiguous then [] else [.copy (sv.contiguousView a) sv]

/-- What the callback of a packed receive view does. -/
def unpacking (a : AllocId) (rv : View) : List SpaceOp :=
  if rv.isContiguous then []
  else [Mpi.Packer.unpackInto rv (rv.contiguousView a),
    .fence "fence `pckd_rv` unpacking after NCCL call"]

/-- What the callbacks of a request do. -/
def Request.bodies (r : Request Callback) : List SpaceOp := r.callbacks_.flatMap Callback.body

@[simp] theorem bodies_new : (Request.new : Request Callback).bodies = [] := rfl

/-- Capturing the stream, for instance, leaves the callbacks. -/
@[simp] theorem bodies_mk (e : Option EventId) (r : Request Callback) :
    ({ request_ := e, callbacks_ := r.callbacks_ } : Request Callback).bodies = r.bodies := rfl

@[simp] theorem bodies_addCallback (r : Request Callback) (cb : Callback) :
    (r.addCallback cb).bodies = r.bodies ++ cb.body := by
  simp [Request.bodies, Request.addCallback]

@[simp] theorem bodies_extendViewLifetime (r : Request Callback) (v : View) :
    (r.extendViewLifetime v).bodies = r.bodies := body_extendViewLifetime r v

@[simp] theorem request_addCallback (r : Request Callback) (cb : Callback) :
    (r.addCallback cb).request_ = r.request_ := rfl

section Routines

variable {h : Host} (peer : Int) (comm : NcclComm)

theorem send_posts (sv : View) (ht : h.trace = []) :
    ∃ req host, send sv peer comm h = .returns (req, host) ∧ (∃ e, req.request_ = some e) ∧
      req.bodies = [] ∧ h.nextAlloc ≤ host.nextAlloc ∧
      (enqueued host.trace : List (StreamOp α)) = packing h.nextAlloc sv ++
        [.transport (.nccl (.toPeer (sv.handed h.nextAlloc) (sentCount sv) peer comm))] := by
  unfold send packing
  cases hc : sv.isContiguous with
  | true =>
    have hsent : sentCount sv = sv.span := if_pos hc
    rw [View.handed_of_contiguous _ hc, hsent]
    exact ⟨_, _, rfl, by simp, by simp, by simp [Host.log], by simp [Host.log, enqueued, ht]⟩
  | false =>
    rw [View.handed_of_packed _ hc, sentCount_of_packed hc,
      ← View.contiguousView_span h.nextAlloc sv]
    exact ⟨_, _, rfl, by simp, by simp, by simp [Host.log, Host.allocated],
      by simp [Host.log, Host.allocated, enqueued, ht]⟩

theorem recv_posts (rv : View) (ht : h.trace = []) :
    ∃ req host, recv rv peer comm h = .returns (req, host) ∧ (∃ e, req.request_ = some e) ∧
      req.bodies = unpacking h.nextAlloc rv ∧ h.nextAlloc ≤ host.nextAlloc ∧
      (enqueued host.trace : List (StreamOp α)) =
        [.transport (.nccl (.fromPeer (rv.handed h.nextAlloc) (sentCount rv) peer comm))] := by
  unfold recv unpacking
  cases hc : rv.isContiguous with
  | true =>
    have hsent : sentCount rv = rv.span := if_pos hc
    rw [View.handed_of_contiguous _ hc, hsent]
    exact ⟨_, _, rfl, by simp, by simp, by simp [Host.log], by simp [Host.log, enqueued, ht]⟩
  | false =>
    rw [View.handed_of_packed _ hc, sentCount_of_packed hc,
      ← View.contiguousView_span h.nextAlloc rv]
    exact ⟨_, _, rfl, by simp, by simp [Mpi.unpackCallback, Host.log],
      by simp [Host.log, Host.allocated], by simp [Host.log, Host.allocated, enqueued, ht]⟩

end Routines

/-- What a routine leaves that has returned: at most one copy and then one
call on the stream, a captured event, and at most one unpacking. -/
structure Posts (c : Call) (req : Request Callback) (ops : List (StreamOp α)) : Prop where
  ops : ∃ pack call, ops = pack ++ [.transport call] ∧ call.wire = c.wire ∧
    pack.length ≤ 1 ∧ ∀ x ∈ pack, x.call? = none
  event : ∃ e, req.request_ = some e
  bodies : req.bodies.length ≤ 2

theorem reduce_posts {h : Host} (sv rv : View) (op : NcclRedOp) (root rank : Int) (comm : NcclComm)
    (ht : h.trace = []) :
    ∃ req host, reduce sv rv op root rank comm h = .returns (req, host) ∧
      Posts (α := α) (.reduce sv rv op root) req (enqueued host.trace) := by
  unfold reduce
  cases hs : sv.isContiguous with
  | true =>
    have hsent : sentCount sv = sv.span := if_pos hs
    by_cases hr : rank ≠ root ∧ rv.isContiguous = true
    · simp only [if_pos hr]
      refine ⟨_, _, rfl, ⟨[], .nccl (reduceCall sv rv sv.span op root comm), ?_, ?_, ?_, ?_⟩,
        ?_, ?_⟩
      all_goals simp [Host.log, enqueued, ht, Call.wire, TransportCall.wire, reduceCall, hsent]
    · simp only [if_neg hr]
      refine ⟨_, _, rfl, ⟨[], .nccl (reduceCall sv (rv.contiguousView h.nextAlloc) sv.span op
        root comm), ?_, ?_, ?_, ?_⟩, ?_, ?_⟩
      all_goals simp [Host.log, Host.allocated, enqueued, ht, Call.wire, TransportCall.wire,
        reduceCall, hsent, Mpi.unpackCallback]
  | false =>
    have hsent : sentCount sv = CInt.ofSize sv.size := sentCount_of_packed hs
    by_cases hr : rank ≠ root ∧ rv.isContiguous = true
    · simp only [if_pos hr]
      refine ⟨_, _, rfl, ⟨[.copy (sv.contiguousView h.nextAlloc) sv],
        .nccl (reduceCall (sv.contiguousView h.nextAlloc) rv (CInt.ofSize sv.size) op root comm),
        ?_, ?_, ?_, ?_⟩, ?_, ?_⟩
      all_goals simp [Host.log, Host.allocated, enqueued, ht, Call.wire, TransportCall.wire,
        reduceCall, hsent, StreamOp.call?]
    · simp only [if_neg hr]
      refine ⟨_, _, rfl, ⟨[.copy (sv.contiguousView h.nextAlloc) sv],
        .nccl (reduceCall (sv.contiguousView h.nextAlloc) (rv.contiguousView (h.nextAlloc + 1))
          (CInt.ofSize sv.size) op root comm), ?_, ?_, ?_, ?_⟩, ?_, ?_⟩
      all_goals simp [Host.log, Host.allocated, enqueued, ht, Call.wire, TransportCall.wire,
        reduceCall, hsent, StreamOp.call?, Mpi.unpackCallback]

theorem alltoall_posts {h : Host} {sv rv : View} (hs : sv.isContiguous = true)
    (hr : rv.isContiguous = true) (count : Int) (size : Nat) (comm : NcclComm)
    (ht : h.trace = []) :
    ∃ req host, alltoall true sv rv count size comm h = .returns (req, host) ∧
      Posts (α := α) (.alltoall sv rv count) req (enqueued host.trace) := by
  unfold alltoall
  simp only [hs, hr, and_self, if_true]
  refine ⟨_, _, rfl, ⟨[], .nccl ⟨.ncclAlltoAll, some (dataHandle sv), some (dataHandle rv),
    count, comm⟩, ?_, rfl, ?_, ?_⟩, ?_, ?_⟩
  all_goals simp [Host.log, enqueued, ht]

theorem contiguous_posts {h : Host} (region : String) {views : List View}
    (call : ContiguousCall) {c : Call} (hviews : ∀ v ∈ views, v.isContiguous = true)
    (hwire : (TransportCall.contiguous call).wire = c.wire) (ht : h.trace = []) :
    ∃ req host, contiguousCollective region views call h = .returns ((req, call), host) ∧
      Posts (α := α) c req (enqueued host.trace ++ [.transport (.contiguous call)]) := by
  obtain ⟨req, host, hrun, hevent, hbodies, rfl⟩ :=
    contiguousCollective_returns region call h hviews
  refine ⟨req, _, hrun, ⟨[], .contiguous call, ?_, hwire, ?_, ?_⟩, ⟨_, hevent⟩, ?_⟩
  · simp [enqueued, ht]
  · simp
  · simp
  · rw [Request.bodies, hbodies]
    simp

/-- A routine that accepts its views returns. -/
theorem Call.run_posts {c : Call} (hc : c.Accepts) (size rank : Nat) (comm : NcclComm) {h : Host}
    (ht : h.trace = []) :
    ∃ req call host, c.run size rank comm h = .returns ((req, call), host) ∧
      Posts (α := α) c req (enqueued host.trace ++
        call.toList.map fun call => .transport (.contiguous call)) := by
  cases c with
  | send sv peer =>
    obtain ⟨req, host, hrun, hevent, hbodies, _, hops⟩ := send_posts (α := α) peer comm sv ht
    refine ⟨req, none, host, by simp [run, hrun], ?_, hevent, by simp [hbodies]⟩
    refine ⟨packing h.nextAlloc sv, _, by simpa using hops, rfl, ?_⟩
    unfold packing
    split
    · simp
    · simp [StreamOp.call?]
  | recv rv peer =>
    obtain ⟨req, host, hrun, hevent, hbodies, _, hops⟩ := recv_posts (α := α) peer comm rv ht
    refine ⟨req, none, host, by simp [run, hrun], ⟨[], _, by simpa using hops, rfl, by simp⟩,
      hevent, ?_⟩
    rw [hbodies, unpacking]
    split
    · simp
    · simp
  | reduce sv rv op root =>
    obtain ⟨req, host, hrun, hposts⟩ :=
      reduce_posts (α := α) sv rv op root rank comm ht
    exact ⟨req, none, host, by simp [run, hrun], by simpa using hposts⟩
  | alltoall sv rv count =>
    obtain ⟨req, host, hrun, hposts⟩ := alltoall_posts (α := α)
      (hc sv (by simp [contiguous])) (hc rv (by simp [contiguous])) count size comm ht
    exact ⟨req, none, host, by simp [run, hrun], by simpa using hposts⟩
  | allgather sv rv =>
    obtain ⟨req, host, hrun, hposts⟩ := contiguous_posts (α := α) (c := .allgather sv rv)
      "KokkosComm::Experimental::nccl::allgather"
      ⟨.ncclAllGather, dataHandle sv, dataHandle rv, sv.span, comm⟩
      (show ∀ v ∈ [sv, rv], v.isContiguous = true from hc) rfl ht
    refine ⟨req, some _, host, ?_, hposts⟩
    simp only [run, Nccl.allgather, Routine.bind_apply, hrun]
    rfl
  | allreduce sv rv op =>
    obtain ⟨req, host, hrun, hposts⟩ := contiguous_posts (α := α) (c := .allreduce sv rv op)
      "KokkosComm::Experimental::nccl::allreduce"
      ⟨.ncclAllReduce op, dataHandle sv, dataHandle rv, sv.span, comm⟩
      (show ∀ v ∈ [sv, rv], v.isContiguous = true from hc) rfl ht
    refine ⟨req, some _, host, ?_, hposts⟩
    simp only [run, Nccl.allreduce, Routine.bind_apply, hrun]
    rfl
  | broadcast v root =>
    obtain ⟨req, host, hrun, hposts⟩ := contiguous_posts (α := α) (c := .broadcast v root)
      "KokkosComm::Experimental::nccl::broadcast"
      ⟨.ncclBcast root, dataHandle v, dataHandle v, v.span, comm⟩
      (show ∀ w ∈ [v], w.isContiguous = true from hc) rfl ht
    refine ⟨req, some _, host, ?_, hposts⟩
    simp only [run, Nccl.broadcast, Routine.bind_apply, hrun]
    rfl

/-- Any other routine ends the process. -/
theorem Call.run_aborts {c : Call} (hc : ¬ c.Accepts) (size rank : Nat) (comm : NcclComm)
    (h : Host) : c.run size rank comm h = .aborts := by
  unfold Accepts at hc
  push Not at hc
  obtain ⟨v, hv, hne⟩ := hc
  have hnot : v.isContiguous = false := by simpa using hne
  cases c with
  | send sv peer => simp [contiguous] at hv
  | recv rv peer => simp [contiguous] at hv
  | reduce sv rv op root => simp [contiguous] at hv
  | alltoall sv rv count =>
    have hboth : ¬ (sv.isContiguous = true ∧ rv.isContiguous = true) := by
      rintro ⟨hs, hr⟩
      simp only [contiguous, List.mem_cons, List.not_mem_nil, or_false] at hv
      rcases hv with rfl | rfl
      · simp [hs] at hnot
      · simp [hr] at hnot
    simp only [run, Nccl.alltoall, if_neg hboth]
    rfl
  | allgather sv rv =>
    simp only [run, Nccl.allgather, Routine.bind_apply,
      contiguousCollective_aborts (show v ∈ [sv, rv] from hv) hnot]
    rfl
  | allreduce sv rv op =>
    simp only [run, Nccl.allreduce, Routine.bind_apply,
      contiguousCollective_aborts (show v ∈ [sv, rv] from hv) hnot]
    rfl
  | broadcast w root =>
    simp only [run, Nccl.broadcast, Routine.bind_apply,
      contiguousCollective_aborts (show v ∈ [w] from hv) hnot]
    rfl

/-! ## §3 Every program ends -/

theorem Call.accepts_of_run {c : Call} {size rank : Nat} {comm : NcclComm} {h : Host}
    {out : (Request Callback × Option ContiguousCall) × Host}
    (hrun : c.run size rank comm h = .returns out) : c.Accepts := by
  by_contra hc
  rw [c.run_aborts hc] at hrun
  cases hrun

/-- What is left to do for an instruction: a call enqueues two things, and
its callbacks as many. -/
def Instr.weight : Instr α → Nat
  | .call _ => 8
  | .kernel _ => 2
  | .space _ => 2
  | .wait _ => 1

/-- What is left to do. -/
def Rank.weight (R : Rank α) : Nat :=
  (R.program.map Instr.weight).sum + R.queue.length +
    2 * (R.requests.map fun req => req.bodies.length).sum

theorem sum_map_set {β : Type} (f : β → Nat) {l : List β} {k : Nat} {x : β} (y : β)
    (h : l[k]? = some x) : ((l.set k y).map f).sum + f x = (l.map f).sum + f y := by
  induction l generalizing k with
  | nil => cases h
  | cons z l ih =>
    cases k with
    | zero =>
      cases h
      simp only [List.set_cons_zero, List.map_cons, List.sum_cons]
      omega
    | succ k =>
      have := ih (by simpa using h)
      simp only [List.set_cons_succ, List.map_cons, List.sum_cons]
      omega

namespace Rank

variable {R R' : Rank α} {size rank : Nat} {comm : NcclComm}

/-- The step of a host, by what is next in its program. -/
theorem host_cases (h : R.host size rank comm = .returns R') : ∃ i rest, R.program = i :: rest ∧
    ((∃ c req ops host, i = .call c ∧ c.Accepts ∧ Posts c req ops ∧
        R' = { R with program := rest }.posted ops req host) ∨
      (∃ op, i.weight = 2 ∧ (∀ c, i ≠ .call c) ∧ (∀ k, i ≠ .wait k) ∧ op.call? = none ∧
        R' = { R with program := rest }.enqueue [op]) ∨
      (∃ label, i = .space (.fence label) ∧ R' = { R with program := rest }) ∨
      ∃ k req e, i = .wait k ∧ R.requests[k]? = some req ∧ req.request_ = some e ∧
        R' = { R with
          program  := req.bodies.map .space ++ rest
          requests := R.requests.set k { req with callbacks_ := [] } }) := by
  unfold host at h
  cases hprog : R.program with
  | nil => simp [hprog] at h
  | cons i rest =>
    refine ⟨i, rest, rfl, ?_⟩
    simp only [hprog] at h
    cases i with
    | call c =>
      obtain ⟨⟨⟨req, call⟩, host⟩, hrun, heq⟩ := Outcome.bind_eq_returns.mp h
      have hc := Call.accepts_of_run hrun
      obtain ⟨req', call', host', hrun', hposts⟩ := Call.run_posts (α := α) hc size rank comm
        (h := { nextAlloc := R.nextAlloc, events := R.events, trace := [] }) rfl
      cases hrun.symm.trans hrun'
      cases heq
      exact .inl ⟨c, req, _, host, rfl, hc, hposts, rfl⟩
    | kernel run =>
      cases h
      exact .inr (.inl ⟨.kernel run, rfl, by simp, by simp, rfl, rfl⟩)
    | space c =>
      cases c with
      | deepCopy dst src =>
        cases h
        exact .inr (.inl ⟨.copy dst src, rfl, by simp, by simp, rfl, rfl⟩)
      | fence label =>
        by_cases hq : R.queue.isEmpty = true
        · simp only [if_pos hq, Outcome.returns.injEq] at h
          exact .inr (.inr (.inl ⟨label, rfl, h.symm⟩))
        · simp [hq] at h
    | wait k =>
      unfold wait at h
      cases hreq : R.requests[k]? with
      | none => simp [hreq] at h
      | some req =>
        cases he : req.request_ with
        | none => simp [hreq, he] at h
        | some e =>
          by_cases hle : R.recorded e ≤ R.done
          · simp only [hreq, he, if_pos hle, Outcome.returns.injEq] at h
            exact .inr (.inr (.inr ⟨k, req, e, rfl, hreq, he, by rw [he]; exact h.symm⟩))
          · simp [hreq, he, hle] at h

theorem weight_host (h : R.host size rank comm = .returns R') : R'.weight < R.weight := by
  obtain ⟨i, rest, hprog, ⟨c, req, ops, host, rfl, _, hposts, rfl⟩ | ⟨op, hi, _, _, _, rfl⟩ |
    ⟨label, rfl, rfl⟩ | ⟨k, req, e, rfl, hreq, _, rfl⟩⟩ := host_cases h
  · obtain ⟨⟨pack, call, rfl, _, hpack, _⟩, _, hbodies⟩ := hposts
    simp only [weight, posted, hprog, List.map_cons, List.sum_cons, Instr.weight,
      List.length_append, List.length_singleton, List.map_append, List.sum_append, List.map_nil,
      List.sum_nil]
    omega
  · simp only [weight, enqueue, hprog, List.map_cons, List.sum_cons, hi, List.length_append,
      List.length_singleton]
    omega
  · simp only [weight, hprog, List.map_cons, List.sum_cons, Instr.weight]
    omega
  · have hset := sum_map_set (fun req : Request Callback => req.bodies.length)
      { req with callbacks_ := [] } hreq
    have hspace : ((req.bodies.map (Instr.space (α := α))).map Instr.weight).sum =
        2 * req.bodies.length := by
      simp [Function.comp_def, Instr.weight, Nat.mul_comm]
    have hcleared : ({ req with callbacks_ := [] } : Request Callback).bodies.length = 0 := rfl
    simp only [hcleared] at hset
    simp only [weight, hprog, List.map_cons, List.sum_cons, Instr.weight, List.map_append,
      List.sum_append, hspace]
    omega

theorem weight_pop (hne : R.queue ≠ []) (heap : Heap α) : (R.pop heap).weight < R.weight := by
  have := List.length_pos_iff.mpr hne
  simp only [weight, pop, List.length_tail]
  omega

end Rank

namespace Ranks

variable {F : Fabric α} {w w' : Ranks α} {N : Nat}

/-- Only the first `N` processes have anything to do. -/
def Within (N : Nat) (w : Ranks α) : Prop := ∀ p, N ≤ p → (w p).program = [] ∧ (w p).queue = []

/-- What is left to do for all of them. -/
def weight (N : Nat) (w : Ranks α) : Nat := ∑ p ∈ Finset.range N, (w p).weight

theorem within_start (programs : List (List (Instr α))) (heaps : Nat → Heap α) (n : Nat) :
    Within programs.length (start programs heaps n) := by
  intro p hp
  simp [start, Rank.start, List.getElem?_eq_none hp]

/-- One process has less to do, and no other more. -/
theorem weight_lt (hle : ∀ p, (w' p).weight ≤ (w p).weight) {p : Nat} (hp : p < N)
    (hlt : (w' p).weight < (w p).weight) : weight N w' < weight N w :=
  Finset.sum_lt_sum (fun q _ => hle q) ⟨p, Finset.mem_range.mpr hp, hlt⟩

theorem weight_update {R : Rank α} {p : Nat} (hp : p < N) (hlt : R.weight < (w p).weight) :
    weight N (Function.update w p R) < weight N w := by
  refine weight_lt (p := p) (fun q => ?_) hp (by simpa using hlt)
  by_cases hqp : q = p
  · subst hqp
    simpa using hlt.le
  · rw [Function.update_of_ne hqp]

theorem Within.update {R : Rank α} {p : Nat} (hw : Within N w) (hp : p < N) :
    Within N (Function.update w p R) := fun q hq => by
  rw [Function.update_of_ne (by omega)]
  exact hw q hq

theorem Within.lt_of_queue (hw : Within N w) {p : Nat} (h : (w p).queue ≠ []) : p < N := by
  by_contra hp
  exact h (hw p (Nat.not_lt.mp hp)).2

theorem Within.lt_of_program (hw : Within N w) {p : Nat} (h : (w p).program ≠ []) : p < N := by
  by_contra hp
  exact h (hw p (Nat.not_lt.mp hp)).1

/-- An operation has a party. -/
theorem exists_party (F : Fabric α) (t : Joint) : ∃ p, p ∈ t.parties F.size := by
  cases t with
  | transfer src dst count ne => exact ⟨src, by simp [Joint.parties]⟩
  | collective fn count all => exact ⟨0, List.mem_range.mpr F.size_pos⟩

/-- Every step leaves less to do. -/
theorem weight_step {x : Act} (hw : Within N w) (h : w.step F x = some w') :
    Within N w' ∧ weight N w' < weight N w := by
  cases x with
  | host p =>
    obtain ⟨R, hR, rfl⟩ := step_host.mp h
    obtain ⟨i, rest, hprog, _⟩ := Rank.host_cases hR
    have hp := hw.lt_of_program (p := p) (by simp [hprog])
    exact ⟨hw.update hp, weight_update hp (Rank.weight_host hR)⟩
  | work p =>
    obtain ⟨f, hf, rfl⟩ := step_work.mp h
    have hq := queue_ne_nil_of_effect hf
    have hp := hw.lt_of_queue hq
    exact ⟨hw.update hp, weight_update hp (Rank.weight_pop hq _)⟩
  | meet t =>
    obtain ⟨hready, rfl⟩ := step_meet.mp h
    obtain ⟨p, hp⟩ := exists_party F t
    have hlt : ∀ {q}, q ∈ t.parties F.size → (w.meet F t q).weight < (w q).weight := fun hq => by
      rw [meet_of_mem hq]
      exact Rank.weight_pop (hready.queue_ne_nil hq) _
    refine ⟨fun q hq => ?_, weight_lt (fun q => ?_) (hw.lt_of_queue (hready.queue_ne_nil hp))
      (hlt hp)⟩
    · by_cases hmem : q ∈ t.parties F.size
      · exact absurd (hw q hq).2 (hready.queue_ne_nil hmem)
      · rw [meet_of_not_mem hmem]
        exact hw q hq
    · by_cases hmem : q ∈ t.parties F.size
      · exact (hlt hmem).le
      · rw [meet_of_not_mem hmem]

/-- **The schedule does not matter.** Every program on streams has one end,
done or not; every run can be continued to it, and comes there by the same
steps in some order. -/
theorem schedules_end_alike (F : Fabric α) (programs : List (List (Instr α)))
    (heaps : Nat → Heap α) (n : Nat) : ∃ t as, exec (step F) (start programs heaps n) as = some t ∧
      Stuck (step F) t ∧ ∀ bs u, exec (step F) (start programs heaps n) bs = some u →
        ∃ cs, exec (step F) u cs = some t ∧ (bs ++ cs).Perm as := by
  have hstep : ∀ (w : Ranks α) x w', Within programs.length w → step F w x = some w' →
      Within programs.length w' ∧ weight programs.length w' < weight programs.length w :=
    fun w x w' hw h => weight_step hw h
  obtain ⟨as, t, hrun, hend⟩ := exists_end hstep (within_start programs heaps n)
  exact ⟨t, as, hrun, hend, fun bs u hbs => exec_to_end (commutes F) hrun hend hbs⟩

end Ranks

end KokkosComm.Nccl
