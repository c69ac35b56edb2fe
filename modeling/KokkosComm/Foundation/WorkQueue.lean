/-
KokkosComm.Foundation.WorkQueue — a queue of tasks that run in order, each
at some time after it was enqueued and no later than the next fence.

`advance` is the environment's event: the oldest pending task runs. The
other events are the program's. A statement about a program that enqueues
and fences is one about all event lists whose `program` part is what the
program does.

Two facts carry all such statements. The environment only shortens the
queue (`pending_suffix_program`), so what is not pending when nothing runs
by itself is not pending at all. And the tasks take effect in the order in
which they were enqueued (`settled_run`), so at a fence the memory is what
it would be had each task run at once.

With several queues, each one sees its own events only (`pendingAt_eq`).
-/
import Mathlib.Data.List.Basic
import Mathlib.Logic.Function.Basic

namespace WorkQueue

variable {τ σ ι : Type}

inductive Event (τ : Type) where
  | enqueue (t : τ)
  | fence
  | advance
  deriving DecidableEq, Repr

namespace Event

def isProgram : Event τ → Bool
  | enqueue _ => true
  | fence => true
  | advance => false

/-- What is pending after the event. -/
def pend : Event τ → List τ → List τ
  | enqueue t, q => q ++ [t]
  | fence, _ => []
  | advance, q => q.tail

/-- The tasks that run at the event. -/
def due : Event τ → List τ → List τ
  | enqueue _, _ => []
  | fence, q => q
  | advance, q => q.take 1

end Event

/-- What the program does, without the environment. -/
def program (es : List (Event τ)) : List (Event τ) := es.filter Event.isProgram

/-- The tasks enqueued. -/
def tasks (es : List (Event τ)) : List τ :=
  es.filterMap fun e =>
    match e with
    | .enqueue t => some t
    | _ => none

section Equations

variable (t : τ) (es : List (Event τ))

@[simp] theorem program_enqueue : program (.enqueue t :: es) = .enqueue t :: program es := rfl
@[simp] theorem program_fence : program (.fence :: es) = .fence :: program es := rfl
@[simp] theorem program_advance : program (.advance :: es) = program es := rfl

@[simp] theorem tasks_nil : tasks ([] : List (Event τ)) = [] := rfl
@[simp] theorem tasks_enqueue : tasks (.enqueue t :: es) = t :: tasks es := rfl
@[simp] theorem tasks_fence : tasks (.fence :: es) = tasks es := rfl
@[simp] theorem tasks_advance : tasks (.advance :: es) = tasks es := rfl

@[simp] theorem tasks_append (es' : List (Event τ)) : tasks (es ++ es') = tasks es ++ tasks es' :=
  List.filterMap_append

@[simp] theorem tasks_program : tasks (program es) = tasks es := by
  induction es with
  | nil => rfl
  | cons e es ih => cases e <;> simp [ih]

end Equations

/-! ## What is pending -/

def pending (q : List τ) (es : List (Event τ)) : List τ := es.foldl (fun q e => e.pend q) q

@[simp] theorem pending_nil (q : List τ) : pending q [] = q := rfl

@[simp] theorem pending_cons (q : List τ) (e : Event τ) (es : List (Event τ)) :
    pending q (e :: es) = pending (e.pend q) es := rfl

@[simp] theorem pending_append (q : List τ) (es es' : List (Event τ)) :
    pending q (es ++ es') = pending (pending q es) es' := List.foldl_append

theorem pend_suffix (e : Event τ) {q q' : List τ} (h : q <:+ q') : e.pend q <:+ e.pend q' := by
  cases e with
  | enqueue t =>
    obtain ⟨l, rfl⟩ := h
    exact ⟨l, by simp [Event.pend]⟩
  | fence => exact List.suffix_refl _
  | advance =>
    obtain ⟨l, rfl⟩ := h
    cases l with
    | nil => exact List.suffix_refl _
    | cons t l => exact (List.tail_suffix q).trans (List.suffix_append l q)

/-- The environment only shortens the queue. -/
theorem pending_suffix_program {q q' : List τ} (h : q <:+ q') (es : List (Event τ)) :
    pending q es <:+ pending q' (program es) := by
  induction es generalizing q q' with
  | nil => exact h
  | cons e es ih =>
    cases e with
    | enqueue t => exact ih (pend_suffix (.enqueue t) h)
    | fence => exact ih (pend_suffix .fence h)
    | advance => exact ih ((List.tail_suffix q).trans h)

/-- What is pending was pending before, or has been enqueued. -/
theorem mem_pending {q : List τ} {es : List (Event τ)} {t : τ} (h : t ∈ pending q es) :
    t ∈ q ∨ t ∈ tasks es := by
  induction es generalizing q with
  | nil => exact .inl h
  | cons e es ih =>
    cases e with
    | enqueue u =>
      rcases ih h with h | h
      · rcases List.mem_append.mp h with h | h
        · exact .inl h
        · exact .inr (by simp [List.mem_singleton.mp h])
      · exact .inr (List.mem_cons_of_mem _ h)
    | fence => exact .inr ((ih h).resolve_left (by simp [Event.pend]))
    | advance => exact (ih h).imp_left List.mem_of_mem_tail

/-- Nothing is pending after a program that ends with a fence. -/
theorem pending_eq_nil {es : List (Event τ)} {es' : List (Event τ)}
    (h : program es = es' ++ [.fence]) (q : List τ) : pending q es = [] := by
  have hsuffix := pending_suffix_program (List.suffix_refl q) es
  rw [h, pending_append] at hsuffix
  exact List.suffix_nil.mp hsuffix

/-! ## The memory -/

section Memory

variable (run : τ → σ → σ)

/-- The memory after some tasks, in order. -/
def runAll (ts : List τ) (m : σ) : σ := ts.foldl (fun m t => run t m) m

/-- Memory and queue after some events. -/
def exec (m : σ) (q : List τ) : List (Event τ) → σ × List τ
  | [] => (m, q)
  | e :: es => exec (runAll run (e.due q) m) (e.pend q) es

variable {run}

@[simp] theorem runAll_nil (m : σ) : runAll run [] m = m := rfl

theorem exec_snd (m : σ) (q : List τ) (es : List (Event τ)) :
    (exec run m q es).2 = pending q es := by
  induction es generalizing m q with
  | nil => rfl
  | cons e es ih => exact ih _ _

/-- Nothing happens on an empty queue as long as the program does nothing. -/
theorem exec_of_idle {es : List (Event τ)} (h : program es = []) (m : σ) :
    exec run m [] es = (m, []) := by
  induction es with
  | nil => rfl
  | cons e es ih =>
    cases e with
    | enqueue t => cases h
    | fence => cases h
    | advance => exact ih h

/-- Once all that is pending has run, each task has run at its turn. -/
theorem settled_run (m : σ) (q : List τ) (es : List (Event τ)) :
    runAll run (exec run m q es).2 (exec run m q es).1 =
      runAll run (tasks es) (runAll run q m) := by
  induction es generalizing m q with
  | nil => rfl
  | cons e es ih =>
    rw [exec, ih]
    cases e with
    | enqueue t => simp [Event.due, Event.pend, runAll]
    | fence => simp [Event.due, Event.pend]
    | advance =>
      -- the oldest task runs first in either case
      have hq : runAll run q.tail (runAll run (q.take 1) m) = runAll run q m := by
        cases q <;> rfl
      rw [Event.due, Event.pend, hq, tasks_advance]

/-- At a fence the memory is what the tasks make of it when each runs at
once. -/
theorem exec_of_fence {es es' : List (Event τ)} (h : program es = es' ++ [.fence]) (m : σ)
    (q : List τ) :
    exec run m q es = (runAll run (tasks es') (runAll run q m), []) := by
  have hnil : (exec run m q es).2 = [] := by rw [exec_snd, pending_eq_nil h]
  have hsettled : runAll run (exec run m q es).2 (exec run m q es).1 =
      runAll run (tasks es) (runAll run q m) := settled_run m q es
  rw [hnil, runAll_nil, ← tasks_program es, h] at hsettled
  refine Prod.ext ?_ hnil
  simpa using hsettled

end Memory

/-! ## Several queues -/

section Family

variable [DecidableEq ι]

/-- What is pending on each of several queues. -/
def pendingAt (Q : ι → List τ) (es : List (ι × Event τ)) : ι → List τ :=
  es.foldl (fun Q e => Function.update Q e.1 (e.2.pend (Q e.1))) Q

/-- The events of one queue. -/
def eventsAt (i : ι) (es : List (ι × Event τ)) : List (Event τ) :=
  (es.filter fun e => e.1 == i).map Prod.snd

/-- What the program does to several queues. -/
def programs (es : List (ι × Event τ)) : List (ι × Event τ) := es.filter fun e => e.2.isProgram

/-- Each queue sees its own events only. -/
theorem pendingAt_eq (Q : ι → List τ) (es : List (ι × Event τ)) (i : ι) :
    pendingAt Q es i = pending (Q i) (eventsAt i es) := by
  induction es generalizing Q with
  | nil => rfl
  | cons e es ih =>
    obtain ⟨j, e⟩ := e
    have hstep : pendingAt Q ((j, e) :: es) i =
        pending (Function.update Q j (e.pend (Q j)) i) (eventsAt i es) := ih _
    rw [hstep]
    by_cases h : j = i
    · subst h
      simp [eventsAt]
    · have hne : i ≠ j := fun heq => h heq.symm
      simp [eventsAt, h, Function.update_of_ne hne]

theorem pendingAt_append (Q : ι → List τ) (es es' : List (ι × Event τ)) :
    pendingAt Q (es ++ es') = pendingAt (pendingAt Q es) es' := List.foldl_append

theorem program_eventsAt (i : ι) (es : List (ι × Event τ)) :
    program (eventsAt i es) = eventsAt i (programs es) := by
  rw [program, eventsAt, eventsAt, programs, List.filter_map, List.filter_filter,
    List.filter_filter]
  congr 2
  funext e
  exact Bool.and_comm _ _

theorem mem_tasks {es : List (Event τ)} {t : τ} : t ∈ tasks es ↔ .enqueue t ∈ es := by
  induction es with
  | nil => simp
  | cons e es ih => cases e <;> simp [ih]

/-- What is pending on a queue was pending before, or the program has
enqueued it there. -/
theorem mem_pendingAt {Q : ι → List τ} {es : List (ι × Event τ)} {i : ι} {t : τ}
    (h : t ∈ pendingAt Q es i) : t ∈ Q i ∨ (i, .enqueue t) ∈ programs es := by
  rw [pendingAt_eq] at h
  refine (mem_pending h).imp_right fun ht => ?_
  obtain ⟨⟨j, e⟩, hmem, rfl⟩ := List.mem_map.mp (mem_tasks.mp ht)
  obtain ⟨hes, hj⟩ := List.mem_filter.mp hmem
  obtain rfl : j = i := by simpa using hj
  exact List.mem_filter.mpr ⟨hes, rfl⟩

/-- A queue on which the program fences last is empty. -/
theorem pendingAt_eq_nil {Q : ι → List τ} {es : List (ι × Event τ)} {i : ι}
    (es' : List (Event τ)) (h : eventsAt i (programs es) = es' ++ [.fence]) :
    pendingAt Q es i = [] := by
  rw [pendingAt_eq]
  exact pending_eq_nil ((program_eventsAt i es).trans h) _

end Family

end WorkQueue
