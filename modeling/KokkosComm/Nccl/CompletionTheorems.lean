/-
KokkosComm.Nccl.CompletionTheorems — which programs on streams come to
their end.

A stream that waits for a call of NCCL holds up everything behind it, so
the order of the calls on each process matters. §1 what is still to come on
a process, and that a process is held up only by a call or by its end. §2 a
program is finished by every schedule exactly when the calls of all
processes are the projections of one order of operations, and otherwise
every schedule gets stuck. §3 processes that refuse each other's next
operation do so forever.
-/
import KokkosComm.Nccl.StreamsTheorems

namespace KokkosComm.Nccl

open Lts
open Mpi (Callback SpaceOp)

variable {α : Type}

/-! ## §1 What is still to come -/

def StreamOp.wire? (x : StreamOp α) : Option Wire := x.call?.map TransportCall.wire

def Instr.wire? : Instr α → Option Wire
  | .call c => some c.wire
  | _ => none

/-- The calls of NCCL that a process has still to make, in their order. -/
def Rank.wires (R : Rank α) : List Wire :=
  R.queue.filterMap StreamOp.wire? ++ R.program.filterMap Instr.wire?

/-- After `m` calls: routines accept their views, and the host waits for
requests that it has. -/
def Scheduled : Nat → List (Instr α) → Prop
  | _, [] => True
  | m, .call c :: is => c.Accepts ∧ Scheduled (m + 1) is
  | m, .wait k :: is => k < m ∧ Scheduled m is
  | m, .kernel _ :: is => Scheduled m is
  | m, .space _ :: is => Scheduled m is

theorem scheduled_space {m : Nat} {is : List (Instr α)} (cs : List SpaceOp) :
    Scheduled m (cs.map .space ++ is) ↔ Scheduled m is := by
  induction cs with
  | nil => rfl
  | cons c cs ih => exact ih

/-- A process that can always go on. -/
structure Rank.Ok (R : Rank α) : Prop where
  scheduled : Scheduled R.requests.length R.program
  events : ∀ req ∈ R.requests, ∃ e, req.request_ = some e ∧
    R.recorded e ≤ R.done + R.queue.length

namespace Rank

variable {R R' : Rank α} {size rank : Nat} {comm : NcclComm} {heap : Heap α}

/-- A host puts on the stream what its program says. -/
theorem wires_host (h : R.host size rank comm = .returns R') : R'.wires = R.wires := by
  obtain ⟨i, rest, hprog, ⟨c, req, ops, host, rfl, _, hposts, rfl⟩ |
    ⟨op, _, hcall, hwait, hop, rfl⟩ | ⟨label, rfl, rfl⟩ | ⟨k, req, e, rfl, _, _, rfl⟩⟩ :=
      host_cases h
  · obtain ⟨⟨pack, call, rfl, hwire, _, hpack⟩, _⟩ := hposts
    have hnone : pack.filterMap StreamOp.wire? = [] :=
      List.filterMap_eq_nil_iff.mpr fun x hx => by simp [StreamOp.wire?, hpack x hx]
    simp [wires, posted, hprog, hnone, StreamOp.wire?, StreamOp.call?, Instr.wire?, hwire]
  · have hi : i.wire? = none := by
      cases i with
      | call c => exact absurd rfl (hcall c)
      | kernel run => rfl
      | space c => rfl
      | wait k => rfl
    simp [wires, enqueue, hprog, StreamOp.wire?, hop, hi]
  · simp [wires, hprog, List.filterMap_cons, Instr.wire?]
  · have hspace : (req.bodies.map (Instr.space (α := α))).filterMap Instr.wire? = [] := by
      simp [List.filterMap_map, Function.comp_def, Instr.wire?]
    simp [wires, hprog, List.filterMap_cons, Instr.wire?, hspace]

/-- What a host has done was scheduled. -/
theorem scheduled_host (h : R.host size rank comm = .returns R') :
    Scheduled R'.requests.length R'.program ↔ Scheduled R.requests.length R.program := by
  obtain ⟨i, rest, hprog, ⟨c, req, ops, host, rfl, hc, _, rfl⟩ |
    ⟨op, _, hcall, hwait, _, rfl⟩ | ⟨label, rfl, rfl⟩ | ⟨k, req, e, rfl, hreq, _, rfl⟩⟩ :=
      host_cases h
  · simp [posted, hprog, Scheduled, hc]
  · cases i with
    | call c => exact absurd rfl (hcall c)
    | kernel run => simp [enqueue, hprog, Scheduled]
    | space c => simp [enqueue, hprog, Scheduled]
    | wait k => exact absurd rfl (hwait k)
  · simp [hprog, Scheduled]
  · have hk := (List.getElem?_eq_some_iff.mp hreq).1
    simp [hprog, Scheduled, scheduled_space, hk]

theorem Ok.host (hR : R.Ok) (h : R.host size rank comm = .returns R') : R'.Ok := by
  refine ⟨(scheduled_host h).mpr hR.scheduled, ?_⟩
  obtain ⟨i, rest, hprog, ⟨c, req, ops, host, rfl, hc, hposts, rfl⟩ |
    ⟨op, _, hcall, hwait, _, rfl⟩ | ⟨label, rfl, rfl⟩ | ⟨k, req, e, rfl, hreq, _, rfl⟩⟩ :=
      host_cases h
  · obtain ⟨e, he⟩ := hposts.event
    intro r hr
    simp only [posted, he, List.mem_append, List.mem_singleton] at hr ⊢
    rcases hr with hr | rfl
    · obtain ⟨e', he', hle⟩ := hR.events r hr
      refine ⟨e', he', ?_⟩
      by_cases heq : e' = e
      · rw [heq, Function.update_self]
        simp
      · rw [Function.update_of_ne heq]
        simp only [List.length_append]
        omega
    · refine ⟨e, he, ?_⟩
      rw [Function.update_self]
      simp
  · intro r hr
    obtain ⟨e, he, hle⟩ := hR.events r hr
    exact ⟨e, he, by simp only [enqueue, List.length_append]; omega⟩
  · exact hR.events
  · intro r hr
    rcases List.mem_or_eq_of_mem_set hr with hr | rfl
    · exact hR.events r hr
    · exact hR.events req (List.mem_of_getElem? hreq)

theorem Ok.pop (hR : R.Ok) (hne : R.queue ≠ []) (heap : Heap α) : (R.pop heap).Ok := by
  refine ⟨hR.scheduled, fun r hr => ?_⟩
  obtain ⟨e, he, hle⟩ := hR.events r hr
  have := List.length_pos_iff.mpr hne
  exact ⟨e, he, by simp only [Rank.pop, List.length_tail]; omega⟩

theorem wires_pop_work {f : Heap α → Heap α}
    (h : R.queue.head?.bind StreamOp.effect = some f) (heap : Heap α) :
    (R.pop heap).wires = R.wires := by
  unfold wires Rank.pop
  cases hq : R.queue with
  | nil => simp [hq] at h
  | cons x q =>
    have hx : x.wire? = none := by
      cases x with
      | copy dst src => rfl
      | kernel run => rfl
      | transport call => simp [hq, StreamOp.effect] at h
    simp [hx]

theorem wires_pop_call {call : TransportCall} (h : R.head? = some call) (heap : Heap α) :
    R.wires = call.wire :: (R.pop heap).wires := by
  unfold wires Rank.pop
  cases hq : R.queue with
  | nil => simp [head?, hq] at h
  | cons x q =>
    have hx : x.wire? = some call.wire := by
      have hcall : x.call? = some call := by simpa [head?, hq] using h
      simp [StreamOp.wire?, hcall]
    simp [hx]

/-- The host can make a step, or the stream can on its own. -/
def Free (R : Rank α) (size rank : Nat) (comm : NcclComm) : Prop :=
  (∃ R', R.host size rank comm = .returns R') ∨
    ∃ f, R.queue.head?.bind StreamOp.effect = some f

/-- A process is held up only by a call, or it is at its end. -/
theorem Ok.held_up (hR : R.Ok) (hfree : ¬ R.Free size rank comm) :
    (∃ call, R.head? = some call) ∨ R.program = [] ∧ R.queue = [] := by
  cases hq : R.queue with
  | cons x q =>
    left
    cases x with
    | copy dst src => exact absurd (.inr ⟨_, by rw [hq]; rfl⟩) hfree
    | kernel run => exact absurd (.inr ⟨_, by rw [hq]; rfl⟩) hfree
    | transport call => exact ⟨call, by simp [head?, hq, StreamOp.call?]⟩
  | nil =>
    right
    refine ⟨?_, rfl⟩
    by_contra hne
    obtain ⟨i, rest, hprog⟩ := List.exists_cons_of_ne_nil hne
    refine hfree (.inl ?_)
    have hsched := hR.scheduled
    rw [hprog] at hsched
    unfold Rank.host
    simp only [hprog]
    cases i with
    | call c =>
      obtain ⟨req, call, host, hrun, _⟩ := Call.run_posts (α := α) hsched.1 size rank comm
        (h := { nextAlloc := R.nextAlloc, events := R.events, trace := [] }) rfl
      exact ⟨_, post_of_returns hrun⟩
    | kernel run => exact ⟨_, rfl⟩
    | space c =>
      cases c with
      | deepCopy dst src => exact ⟨_, rfl⟩
      | fence label => exact ⟨{ R with program := rest }, by simp [hq]⟩
    | wait k =>
      have hk : R.requests[k]? = some (R.requests.get ⟨k, hsched.1⟩) :=
        List.getElem?_eq_getElem hsched.1
      obtain ⟨e, he, hle⟩ := hR.events _ (List.mem_of_getElem? hk)
      rw [hq, List.length_nil, Nat.add_zero] at hle
      exact ⟨_, wait_of_done hk he hle⟩

end Rank

/-! ## §2 One order of operations -/

namespace Joint

/-- The part of process `p` in some operations: its calls, in their order. -/
def part (size : Nat) (order : List Joint) (p : Nat) : List Wire :=
  order.filterMap fun t => t.wire size p

variable {size p : Nat} {t : Joint} {order : List Joint}

theorem part_of_mem {l : Wire} (h : t.wire size p = some l) :
    part size (t :: order) p = l :: part size order p := by simp [part, h]

theorem part_of_not_mem (h : p ∉ t.parties size) :
    part size (t :: order) p = part size order p := by
  have hnone : t.wire size p = none := by
    by_contra hne
    exact h (mem_parties_iff.mpr (Option.ne_none_iff_exists'.mp hne))
  simp [part, hnone]

end Joint

namespace Ranks

variable {F : Fabric α} {w w' : Ranks α} {order : List Joint} {N : Nat}

/-- The calls that each process has still to make are its part of the
operations of `order`. -/
def Follows (F : Fabric α) (w : Ranks α) (order : List Joint) : Prop :=
  ∀ p, (w p).wires = Joint.part F.size order p

/-- A step of one process that makes no call. -/
theorem Follows.update {R : Rank α} {p : Nat} (hR : R.wires = (w p).wires) :
    Follows F (Function.update w p R) order ↔ Follows F w order := by
  refine forall_congr' fun q => ?_
  by_cases hqp : q = p
  · subst hqp
    rw [Function.update_self, hR]
  · rw [Function.update_of_ne hqp]

/-- The parties of an operation that is ready have its calls before them. -/
theorem Ready.wires {t : Joint} (h : w.Ready F t) {p : Nat} (hp : p ∈ t.parties F.size) :
    ∃ l, t.wire F.size p = some l ∧ (w p).wires = l :: (w.meet F t p).wires := by
  have hhead := h p hp
  obtain ⟨l, hl⟩ := Joint.mem_parties_iff.mp hp
  rw [hl] at hhead
  obtain ⟨call, hcall, rfl⟩ := Option.map_eq_some_iff.mp hhead
  exact ⟨_, hl, by rw [meet_of_mem hp]; exact Rank.wires_pop_call hcall _⟩

theorem follows_meet {t : Joint} (h : w.Ready F t) :
    Follows F (w.meet F t) order ↔ Follows F w (t :: order) := by
  refine forall_congr' fun p => ?_
  by_cases hp : p ∈ t.parties F.size
  · obtain ⟨l, hl, hwires⟩ := h.wires hp
    rw [Joint.part_of_mem hl, hwires, List.cons_inj_right]
  · rw [Joint.part_of_not_mem hp, meet_of_not_mem hp]

/-- Processes that can always go on, by steps that only they make. -/
def Going (w : Ranks α) : Prop := ∀ p, (w p).Ok

theorem Going.update (hw : Going w) {R : Rank α} {p : Nat} (hR : R.Ok) :
    Going (Function.update w p R) := by
  intro q
  by_cases hqp : q = p
  · subst hqp
    simpa using hR
  · rw [Function.update_of_ne hqp]
    exact hw q

theorem Going.meet (hw : Going w) {t : Joint} (h : w.Ready F t) : Going (w.meet F t) := by
  intro p
  by_cases hp : p ∈ t.parties F.size
  · rw [meet_of_mem hp]
    exact (hw p).pop (h.queue_ne_nil hp) _
  · rw [meet_of_not_mem hp]
    exact hw p

/-- When no process is free, the next operation of the order is ready. -/
theorem ready_of_follows (hw : Going w) (hfree : ∀ p, ¬ (w p).Free F.size p F.comm) {t : Joint}
    (hfollows : Follows F w (t :: order)) : w.Ready F t := by
  intro p hp
  obtain ⟨l, hl⟩ := Joint.mem_parties_iff.mp hp
  have hwires := hfollows p
  rw [Joint.part_of_mem hl] at hwires
  rcases (hw p).held_up (hfree p) with ⟨call, hcall⟩ | ⟨hprog, hqueue⟩
  · rw [Rank.wires_pop_call hcall (w p).heap] at hwires
    rw [hcall, hl, Option.map_some, (List.cons.inj hwires).1]
  · simp [Rank.wires, hprog, hqueue] at hwires

/-- When no process is free and no operation is left, all are finished. -/
theorem finished_of_follows (hw : Going w) (hfree : ∀ p, ¬ (w p).Free F.size p F.comm)
    (hfollows : Follows F w []) : Finished w := by
  intro p
  rcases (hw p).held_up (hfree p) with ⟨call, hcall⟩ | hdone
  · have hwires := hfollows p
    rw [Rank.wires_pop_call hcall (w p).heap] at hwires
    cases hwires
  · exact hdone

/-- Along an order, some schedule finishes. -/
theorem exists_finished (hw : Going w) (hwithin : Within N w) (hfollows : Follows F w order) :
    ∃ as t, exec (step F) w as = some t ∧ Finished t := by
  induction hn : weight N w using Nat.strongRecOn generalizing w order with
  | _ n ih =>
    by_cases hfree : ∃ p, (w p).Free F.size p F.comm
    · -- a process that is free makes a step
      obtain ⟨p, ⟨R, hR⟩ | ⟨f, hf⟩⟩ := hfree
      · have hstep : w.step F (.host p) = some _ := step_host.mpr ⟨R, hR, rfl⟩
        obtain ⟨hwithin', hlt⟩ := weight_step hwithin hstep
        obtain ⟨as, t, has, hend⟩ := ih _ (hn ▸ hlt) (hw.update ((hw p).host hR)) hwithin'
          ((Follows.update (Rank.wires_host hR)).mpr hfollows) rfl
        exact ⟨.host p :: as, t, exec_cons_eq_some.mpr ⟨_, hstep, has⟩, hend⟩
      · have hstep : w.step F (.work p) = some _ := step_work.mpr ⟨f, hf, rfl⟩
        obtain ⟨hwithin', hlt⟩ := weight_step hwithin hstep
        obtain ⟨as, t, has, hend⟩ := ih _ (hn ▸ hlt)
          (hw.update ((hw p).pop (queue_ne_nil_of_effect hf) _)) hwithin'
          ((Follows.update (Rank.wires_pop_work hf _)).mpr hfollows) rfl
        exact ⟨.work p :: as, t, exec_cons_eq_some.mpr ⟨_, hstep, has⟩, hend⟩
    · push Not at hfree
      cases order with
      | nil => exact ⟨[], w, rfl, finished_of_follows hw hfree hfollows⟩
      | cons t order =>
        have hready := ready_of_follows hw hfree hfollows
        have hstep : w.step F (.meet t) = some _ := step_meet.mpr ⟨hready, rfl⟩
        obtain ⟨hwithin', hlt⟩ := weight_step hwithin hstep
        obtain ⟨as, u, has, hend⟩ := ih _ (hn ▸ hlt) (hw.meet hready) hwithin'
          ((follows_meet hready).mpr hfollows) rfl
        exact ⟨.meet t :: as, u, exec_cons_eq_some.mpr ⟨_, hstep, has⟩, hend⟩

/-- A schedule that finishes shows an order, and that everything it did was
scheduled. -/
theorem exists_order {as : List Act} {t : Ranks α} (h : exec (step F) w as = some t)
    (hend : Finished t) :
    (∀ p, Scheduled (w p).requests.length (w p).program) ∧ ∃ order, Follows F w order := by
  induction as generalizing w with
  | nil =>
    obtain rfl : w = t := by simpa using h
    refine ⟨fun p => by rw [(hend p).1]; trivial, [], fun p => ?_⟩
    simp [Rank.wires, Joint.part, (hend p).1, (hend p).2]
  | cons x as ih =>
    obtain ⟨u, hu, has⟩ := exec_cons_eq_some.mp h
    obtain ⟨hsched, order, hfollows⟩ := ih has
    cases x with
    | host p =>
      obtain ⟨R, hR, rfl⟩ := step_host.mp hu
      refine ⟨fun q => ?_, order, (Follows.update (Rank.wires_host hR)).mp hfollows⟩
      have hq := hsched q
      by_cases hqp : q = p
      · subst hqp
        rw [Function.update_self] at hq
        exact (Rank.scheduled_host hR).mp hq
      · rwa [Function.update_of_ne hqp] at hq
    | work p =>
      obtain ⟨f, hf, rfl⟩ := step_work.mp hu
      refine ⟨fun q => ?_, order, (Follows.update (Rank.wires_pop_work hf _)).mp hfollows⟩
      have hq := hsched q
      by_cases hqp : q = p
      · subst hqp
        rwa [Function.update_self] at hq
      · rwa [Function.update_of_ne hqp] at hq
    | meet t' =>
      obtain ⟨hready, rfl⟩ := step_meet.mp hu
      refine ⟨fun q => ?_, t' :: order, (follows_meet hready).mp hfollows⟩
      have hq := hsched q
      by_cases hmem : q ∈ t'.parties F.size
      · rwa [meet_of_mem hmem] at hq
      · rwa [meet_of_not_mem hmem] at hq

/-- Nothing can be done when all are finished. -/
theorem Finished.stuck (h : Finished w) : Stuck (step F) w := by
  intro x
  by_contra hne
  obtain ⟨w', hw'⟩ := Option.ne_none_iff_exists'.mp hne
  cases x with
  | host p =>
    obtain ⟨R, hR, _⟩ := step_host.mp hw'
    obtain ⟨i, rest, hprog, _⟩ := Rank.host_cases hR
    simp [(h p).1] at hprog
  | work p =>
    obtain ⟨f, hf, _⟩ := step_work.mp hw'
    exact queue_ne_nil_of_effect hf (h p).2
  | meet t =>
    obtain ⟨hready, _⟩ := step_meet.mp hw'
    obtain ⟨p, hp⟩ := exists_party F t
    exact hready.queue_ne_nil hp (h p).2

/-- A run that can be made to the end: every other one can be continued to
the same end. -/
theorem finished_like {as bs : List Act} {t u : Ranks α} (has : exec (step F) w as = some t)
    (ht : Finished t) (hbs : exec (step F) w bs = some u) :
    (∃ cs, exec (step F) u cs = some t) ∧ (Finished u → u = t) := by
  refine ⟨?_, fun hu => (end_unique (commutes F) has ht.stuck hbs hu.stuck).1⟩
  obtain ⟨cs, hcs, _⟩ := exec_to_end (commutes F) has ht.stuck hbs
  exact ⟨cs, hcs⟩

theorem going_start {programs : List (List (Instr α))}
    (h : ∀ program ∈ programs, Scheduled 0 program) (heaps : Nat → Heap α) (n : Nat) :
    Going (start programs heaps n) := by
  intro p
  refine ⟨?_, fun req hreq => by simp [start, Rank.start] at hreq⟩
  show Scheduled 0 (programs[p]?.getD [])
  cases hp : programs[p]? with
  | none => trivial
  | some program => exact h program (List.mem_of_getElem? hp)

theorem wires_start (programs : List (List (Instr α))) (heaps : Nat → Heap α) (n p : Nat) :
    (start programs heaps n p).wires = (programs[p]?.getD []).filterMap Instr.wire? := by
  simp [start, Rank.start, Rank.wires]

/-- Whatever has been done since `w`, all processes can still be finished. -/
def Finishes (F : Fabric α) (w : Ranks α) : Prop :=
  ∀ bs u, exec (step F) w bs = some u → ∃ cs t, exec (step F) u cs = some t ∧ Finished t

/-- Every schedule gets stuck, after the same steps and in the same state, and
there not all processes are finished. -/
def GetsStuck (F : Fabric α) (w : Ranks α) : Prop :=
  ∃ as t, Stuck (step F) t ∧ ¬ Finished t ∧ ∀ bs u, exec (step F) w bs = some u →
    ¬ Finished u ∧ ∃ cs, exec (step F) u cs = some t ∧ (bs ++ cs).Perm as

/-- All schedules have one end, and it is one or the other. -/
theorem finishes_or_getsStuck (F : Fabric α) (programs : List (List (Instr α)))
    (heaps : Nat → Heap α) (n : Nat) :
    Finishes F (start programs heaps n) ∨ GetsStuck F (start programs heaps n) := by
  obtain ⟨t, as, -, hstuck, hall⟩ := schedules_end_alike F programs heaps n
  by_cases hend : Finished t
  · left
    intro bs u hbs
    obtain ⟨cs, hcs, -⟩ := hall bs u hbs
    exact ⟨cs, t, hcs, hend⟩
  · right
    refine ⟨as, t, hstuck, hend, fun bs u hbs => ?_⟩
    obtain ⟨cs, hcs, hperm⟩ := hall bs u hbs
    refine ⟨fun hu => hend ?_, cs, hcs, hperm⟩
    -- from a finished state there is no way on, so `u` would be the end
    obtain ⟨-, rfl⟩ := hu.stuck.eq_nil hcs
    exact hu

/-- A program that can be finished at all has its calls in one order. -/
theorem Finishes.ordered {F : Fabric α} {programs : List (List (Instr α))} {heaps : Nat → Heap α}
    {n : Nat} (h : Finishes F (start programs heaps n)) :
    (∀ program ∈ programs, Scheduled 0 program) ∧ ∃ order : List Joint, ∀ p,
      (programs[p]?.getD []).filterMap Instr.wire? = Joint.part F.size order p := by
  obtain ⟨as, t, hrun, hend⟩ := h [] _ rfl
  obtain ⟨hsched, order, hfollows⟩ := exists_order hrun hend
  refine ⟨fun program hmem => ?_, order, fun p => by rw [← wires_start]; exact hfollows p⟩
  obtain ⟨p, hp⟩ := List.mem_iff_getElem?.mp hmem
  have hp' : Scheduled 0 (programs[p]?.getD []) := hsched p
  rwa [hp] at hp'

/-- One schedule along the order shows that all can be finished. -/
theorem finishes_of_ordered {F : Fabric α} {programs : List (List (Instr α))}
    (hsched : ∀ program ∈ programs, Scheduled 0 program) {order : List Joint}
    (horder : ∀ p, (programs[p]?.getD []).filterMap Instr.wire? = Joint.part F.size order p)
    (heaps : Nat → Heap α) (n : Nat) : Finishes F (start programs heaps n) := by
  intro bs u hbs
  have hfollows : Follows F (start programs heaps n) order := fun p => by
    rw [wires_start]
    exact horder p
  obtain ⟨as, t, hrun, hend⟩ := exists_finished (going_start hsched heaps n)
    (within_start programs heaps n) hfollows
  obtain ⟨⟨cs, hcs⟩, -⟩ := finished_like hrun hend hbs
  exact ⟨cs, t, hcs, hend⟩

/-- **A program is finished by every schedule exactly when its calls have one
order.** Whatever has been done so far, all processes can still be
finished, if and only if the routines accept their views, no host waits for
a request that it does not have, and the calls of each process are its part
of one list of operations, in the order of that list. Otherwise every
schedule gets stuck. -/
theorem finishes_iff (F : Fabric α) (programs : List (List (Instr α))) (heaps : Nat → Heap α)
    (n : Nat) :
    (Finishes F (start programs heaps n) ↔
      (∀ program ∈ programs, Scheduled 0 program) ∧ ∃ order : List Joint, ∀ p,
        (programs[p]?.getD []).filterMap Instr.wire? = Joint.part F.size order p) ∧
      (¬ Finishes F (start programs heaps n) → GetsStuck F (start programs heaps n)) := by
  refine ⟨⟨fun h => h.ordered, ?_⟩, fun hno => ?_⟩
  · rintro ⟨hsched, order, horder⟩
    exact finishes_of_ordered hsched horder heaps n
  · exact (finishes_or_getsStuck F programs heaps n).resolve_left hno

/-! ## §3 Processes that refuse each other -/

/-- Each process of `S` has a call before it, and every operation that the
call belongs to is refused: another process of `S` has a call before it that
is not its part of the operation. -/
def Refusing (F : Fabric α) (w : Ranks α) (S : Nat → Prop) : Prop :=
  ∀ p, S p → ∃ l, (w p).wires.head? = some l ∧
    ∀ t : Joint, t.wire F.size p = some l → ∃ q ∈ t.parties F.size, S q ∧
      (w q).wires.head? ≠ t.wire F.size q

variable {S : Nat → Prop}

theorem Refusing.congr (h : Refusing F w S) (hwires : ∀ p, S p → (w' p).wires = (w p).wires) :
    Refusing F w' S := by
  intro p hp
  obtain ⟨l, hl, hrefused⟩ := h p hp
  refine ⟨l, by rw [hwires p hp, hl], fun t ht => ?_⟩
  obtain ⟨q, hq, hSq, hne⟩ := hrefused t ht
  exact ⟨q, hq, hSq, by rw [hwires q hSq]; exact hne⟩

/-- An operation that is ready has no party among them. -/
theorem Refusing.not_party (h : Refusing F w S) {t : Joint} (hready : w.Ready F t) {p : Nat}
    (hp : S p) : p ∉ t.parties F.size := by
  intro hmem
  obtain ⟨l, hl, hrefused⟩ := h p hp
  have hhead : ∀ {q}, q ∈ t.parties F.size → (w q).wires.head? = t.wire F.size q := fun hq => by
    obtain ⟨l, hl, hwires⟩ := hready.wires hq
    rw [hwires, hl, List.head?_cons]
  obtain ⟨q, hq, _, hne⟩ := hrefused t ((hhead hmem).symm.trans hl)
  exact hne (hhead hq)

theorem Refusing.step (h : Refusing F w S) {x : Act} (hx : w.step F x = some w') {p : Nat}
    (hp : S p) : (w' p).wires = (w p).wires := by
  cases x with
  | host q =>
    obtain ⟨R, hR, rfl⟩ := step_host.mp hx
    by_cases hpq : p = q
    · subst hpq
      rw [Function.update_self, Rank.wires_host hR]
    · rw [Function.update_of_ne hpq]
  | work q =>
    obtain ⟨f, hf, rfl⟩ := step_work.mp hx
    by_cases hpq : p = q
    · subst hpq
      rw [Function.update_self, Rank.wires_pop_work hf]
    · rw [Function.update_of_ne hpq]
  | meet t =>
    obtain ⟨hready, rfl⟩ := step_meet.mp hx
    rw [meet_of_not_mem (h.not_party hready hp)]

/-- **Processes that refuse each other's next operation do so forever.** In
every run, none of their calls ever takes place. -/
theorem refusing_forever (h : Refusing F w S) {as : List Act} {u : Ranks α}
    (hrun : exec (step F) w as = some u) :
    ∀ p, S p → (u p).wires = (w p).wires ∧ ¬ Finished u := by
  have hkept : ∀ p, S p → (u p).wires = (w p).wires := by
    induction as generalizing w with
    | nil =>
      obtain rfl : w = u := by simpa using hrun
      exact fun _ _ => rfl
    | cons x as ih =>
      obtain ⟨v, hv, has⟩ := exec_cons_eq_some.mp hrun
      have hstep : ∀ p, S p → (v p).wires = (w p).wires := fun p hp => h.step hv hp
      intro p hp
      rw [ih (h.congr hstep) has p hp, hstep p hp]
  intro p hp
  refine ⟨hkept p hp, fun hend => ?_⟩
  obtain ⟨l, hl, _⟩ := h p hp
  rw [← hkept p hp] at hl
  simp [Rank.wires, (hend p).1, (hend p).2] at hl

/-- Two processes that both send first. -/
def sendsFirst : List (List (Instr Nat)) :=
  [[.call (.send (.line 0 0 3 1) 1), .call (.recv (.line 0 3 3 1) 1), .wait 1],
    [.call (.send (.line 0 0 3 1) 0), .call (.recv (.line 0 3 3 1) 0), .wait 1]]

/-- A communicator whose collectives leave every memory. -/
def keeping (size : Nat) (size_pos : 0 < size) : Fabric Nat where
  size := size
  size_pos := size_pos
  comm := 0
  collective _ _ calls p c := (calls[p]?.map fun x => x.2 c).getD 0

theorem sendsFirst_forever : ∃ u,
    exec (step (keeping 2 (by decide))) (start sendsFirst (fun _ c => c.2) 1)
      [.host 0, .host 1, .host 1, .host 0] = some u ∧ (u 0).queue.length = 2 ∧ ¬ Finished u := by
  have hwires : ∀ p : Nat, (start sendsFirst (fun _ c => c.2) 1 p).wires =
      (sendsFirst[p]?.getD []).filterMap Instr.wire? := wires_start _ _ _
  have hrefusing : Refusing (keeping 2 (by decide)) (start sendsFirst (fun _ c => c.2) 1)
      (· < 2) := by
    intro p hp
    have hcases : p = 0 ∨ p = 1 := by omega
    rcases hcases with rfl | rfl
    · refine ⟨⟨.nccl (.ncclSend 1), 3⟩, by rw [hwires]; rfl, fun t ht => ?_⟩
      obtain rfl : t = .transfer 0 1 3 (by decide) := Joint.eq_of_wire ht rfl
      exact ⟨1, by decide, by decide, by rw [hwires]; decide⟩
    · refine ⟨⟨.nccl (.ncclSend 0), 3⟩, by rw [hwires]; rfl, fun t ht => ?_⟩
      obtain rfl : t = .transfer 1 0 3 (by decide) := Joint.eq_of_wire ht rfl
      exact ⟨0, by decide, by decide, by rw [hwires]; decide⟩
  have hrun : exec (step (keeping 2 (by decide))) (start sendsFirst (fun _ c => c.2) 1)
      [.host 0, .host 1, .host 1, .host 0] = some _ := rfl
  exact ⟨_, rfl, rfl, (refusing_forever hrefusing hrun 0 (by decide)).2⟩

end Ranks

end KokkosComm.Nccl
