/-
KokkosComm.Mpi.ParallelProgressTheorems — data-parallel programs come to
their end over MPI, and to the same one as over NCCL.

§1 of the processes that have come least far one can go on, so that nothing
is stuck before all are through. §2 what every run of a program comes to.
§3 both backends.
-/
import Mathlib.Order.WellFounded
import KokkosComm.Foundation.Diamond
import KokkosComm.Mpi.MessagingRunTheorems
import KokkosComm.Mpi.ParallelRunTheorems
import KokkosComm.Nccl.DataParallelTheorems

namespace KokkosComm.Mpi.Parallel

open Lts

variable {α : Type} {n : Nat} {ops : MpiOp → α → α → α} {W : World ops}
  {steps : List (ParallelStep α n)} {heaps : Nat → Heap α} {p q k : Nat} {s : ParallelStep α n}

/-! ## §1 A process that has come least far -/

section Progress

variable {w : Nodes α} {A : Node α} {past : List (Started α)} {x : Started α} {k' : Nat}

/-- A process that has a part in the next step can begin it. -/
theorem Resting.host_returns [∀ op, Std.Associative (ops op)]
    (hsteps : ∀ s ∈ steps, ProperStep W.size s) (h : Resting W steps heaps p k A)
    (hs : steps[k]? = some s)
    (hpart : (∃ κ, s = .event (.work p κ)) ∨ ∃ c, partOf W p s = some c) :
    ∃ A', A.host = .returns A' := by
  rcases hpart with ⟨κ, rfl⟩ | ⟨c, hc⟩
  · obtain ⟨A', hreturns, -⟩ := h.work hs
    exact ⟨A', hreturns⟩
  · obtain ⟨A', x, hreturns, -⟩ := h.call hsteps hs hc
    exact ⟨A', hreturns⟩

theorem step_host {A' : Node α} (h : (w p).host = .returns A') :
    Nodes.step W w (.host p) = some (Function.update w p A') := by
  rw [Nodes.step, Nodes.perform, h]
  rfl

/-- MPI can read what has not been read. -/
theorem Calling.can_read (h : Calling W steps heaps p k s past x (w p)) (hread : x.read = none)
    (hreads : x.call.fn.reads p = true) :
    ∃ w', Nodes.step W w (.read p past.length) = some w' := by
  simp [Nodes.step, Nodes.perform, h.get, hread, hreads, Outcome.toOption]

theorem sent_of_settled {l : List (Started α)} {js : List Nat}
    (hl : List.Forall₂ (Made W steps heaps q) js l) (hsettled : ∀ y ∈ l, Over q y) :
    List.Forall₂ (fun j y => Made W steps heaps q j y ∧
      (j = k → y.call.fn.reads q = true → y.read.isSome = true)) js l := by
  induction hl with
  | nil => exact .nil
  | cons hmade _ ih =>
    exact .cons ⟨hmade, fun _ => (hsettled _ List.mem_cons_self).1⟩
      (ih fun y hy => hsettled y (List.mem_cons_of_mem _ hy))

/-- A process that has got further has sent all, … -/
theorem Resting.sent (h : Resting W steps heaps q k' A) (hlt : k < k') :
    Sent W steps heaps q k A := ⟨k', hlt, sent_of_settled h.made h.settled⟩

/-- … and so has one in the call, once MPI has read it. -/
theorem Calling.sent (h : Calling W steps heaps q k' s past x A) (hle : k ≤ k')
    (hread : k' = k → x.call.fn.reads q = true → x.read.isSome = true) :
    Sent W steps heaps q k A := by
  refine ⟨k' + 1, Nat.lt_succ_of_le hle, ?_⟩
  rw [h.shares_succ, h.posted]
  exact List.rel_append (sent_of_settled h.kept h.settled) (.cons ⟨h.made, hread⟩ .nil)

/-- In a call for which all has been sent, MPI can go on, or the wait can. -/
theorem Calling.can_step (h : Calling W steps heaps p k s past x (w p))
    (hsteps : ∀ s ∈ steps, ProperStep W.size s)
    (hall : ∀ q, ∃ k', List.Forall₂ (Made W steps heaps q) (shares W steps q k') (w q).posted)
    (hsent : ∀ q, (partOf W q s).isSome = true → Sent W steps heaps q k (w q))
    (hread : x.call.fn.reads p = true → x.read.isSome = true) :
    ∃ act w', Nodes.step W w act = some w' := by
  by_cases hst : (w p).lib.status past.length = .inFlight
  · by_cases hstored : x.call.fn.writes p = true ∧ x.stored = false
    · obtain ⟨hwrites, hunstored⟩ := hstored
      obtain ⟨xs, harr⟩ := h.exists_arriving hsteps hsent hwrites
      obtain ⟨-, m, rfl⟩ := h.arriving_eq hsteps hall hwrites harr
      have hfits := (h.waiting hunstored).fits hwrites m
      refine ⟨.store p past.length, ?_⟩
      simp [Nodes.step, Nodes.perform, h.get, hunstored, hwrites, harr, hfits, Outcome.toOption]
    · have hdone : x.call.fn.writes p = true → x.stored = true := fun hwrites => by
        by_contra hunstored
        exact hstored ⟨hwrites, Bool.eq_false_iff.mpr hunstored⟩
      have hcalled := h.called hsteps hsent
      refine ⟨.finish p past.length, ?_⟩
      simp only [Nodes.step, Nodes.perform, h.get]
      rw [if_pos ⟨hst, hread, hdone, hcalled⟩]
      exact ⟨_, rfl⟩
  · exact ⟨_, _, step_host ((host_wait h.program h.get h.handle).trans (if_neg hst))⟩

variable (W steps heaps) in
/-- Step `k` is the next one that the process has a part in, or it is in the
call of it. -/
inductive Stands (p k : Nat) (A : Node α) : Prop where
  | before (h : Resting W steps heaps p k A)
      (hnext : k = steps.length ∨ ∃ s, steps[k]? = some s ∧
        ((∃ κ, s = .event (.work p κ)) ∨ ∃ c, partOf W p s = some c))
  | inside (s : ParallelStep α n) (past : List (Started α)) (x : Started α)
      (h : Calling W steps heaps p k s past x A)

theorem At.stands {r : Nat} (h : At W steps heaps p r A) : ∃ k, Stands W steps heaps p k A := by
  cases h with
  | resting k h hr =>
    obtain ⟨k', -, hrest, hnext⟩ := h.next
    exact ⟨k', .before hrest hnext⟩
  | calling k s past x h hr => exact ⟨k, .inside s past x h⟩

/-- Nothing can happen any more only when all processes are through. -/
theorem rests_of_stuck [∀ op, Std.Associative (ops op)]
    (hsteps : ∀ s ∈ steps, ProperStep W.size s) (hat : ∀ p, ∃ r, At W steps heaps p r (w p))
    (hstuck : Stuck (Nodes.step W) w) (p : Nat) :
    Resting W steps heaps p steps.length (w p) := by
  have hno : ∀ act w', Nodes.step W w act ≠ some w' := fun act w' h => by
    rw [hstuck act] at h
    cases h
  choose pos hpos using fun q => (hat q).elim fun r h => h.stands
  -- `first` has come least far
  obtain ⟨first, hfirst⟩ : ∃ first, ∀ q, pos first ≤ pos q :=
    ⟨Function.argmin pos, fun q => Function.argmin_le pos q⟩
  have hcalling : ∀ q, pos q < steps.length → ∃ s past x,
      Calling W steps heaps q (pos q) s past x (w q) ∧
        (x.call.fn.reads q = true → x.read.isSome = true) := by
    intro q hlt
    cases hpos q with
    | before h hnext =>
      obtain hend | ⟨s, hs, hpart⟩ := hnext
      · exact absurd hend (Nat.ne_of_lt hlt)
      · obtain ⟨A', hA'⟩ := h.host_returns hsteps hs hpart
        exact absurd (step_host hA') (hno _ _)
    | inside s past x h =>
      refine ⟨s, past, x, h, fun hreads => ?_⟩
      by_contra hread
      obtain ⟨w', hw'⟩ := h.can_read (Option.not_isSome_iff_eq_none.mp hread) hreads
      exact hno _ _ hw'
  have hrests : ∀ q, steps.length ≤ pos q → Resting W steps heaps q steps.length (w q) := by
    intro q hle
    cases hpos q with
    | before h hnext => exact Nat.le_antisymm h.le hle ▸ h
    | inside s past x h =>
      exact absurd (List.getElem?_eq_some_iff.mp h.step).1 (Nat.not_lt.mpr hle)
  have hend : steps.length ≤ pos first := by
    by_contra hlt
    have hlt := Nat.not_le.mp hlt
    obtain ⟨s, past, x, h, hread⟩ := hcalling first hlt
    have hsent : ∀ q, (partOf W q s).isSome = true → Sent W steps heaps q (pos first) (w q) := by
      intro q _
      by_cases hq : pos q < steps.length
      · obtain ⟨s', past', x', h', hread'⟩ := hcalling q hq
        exact h'.sent (hfirst q) fun _ => hread'
      · exact (hrests q (Nat.not_lt.mp hq)).sent hlt
    obtain ⟨act, w', hw'⟩ := h.can_step hsteps (fun q => (hat q).elim fun r h => h.made) hsent hread
    exact hno act w' hw'
  exact hrests p (Nat.le_trans hend (hfirst p))

end Progress

/-! ## §2 The whole program -/

section Whole

variable {w : Nodes α} {A : Node α} {r : Nat}

/-- A process that has run its program has the memory that is meant. -/
theorem At.heap_of_done [∀ op, Std.Associative (ops op)]
    (hsteps : ∀ s ∈ steps, ProperStep W.size s) (h : At W steps heaps p r A)
    (hdone : A.program = []) (c : Cell) (hlt : c.1 < n) :
    A.heap c = ParallelStep.run ops W.size heaps steps p c := by
  have hblocks : A.host = .blocks := by rw [Node.host, hdone]
  obtain ⟨k, hstands⟩ := h.stands
  cases hstands with
  | before h hnext =>
    obtain rfl | ⟨s, hs, hpart⟩ := hnext
    · rw [h.heap c hlt, memoryAt, List.take_length]
    · obtain ⟨A', hA'⟩ := h.host_returns hsteps hs hpart
      rw [hblocks] at hA'
      cases hA'
  | inside s past x h =>
    rw [h.program] at hdone
    cases hdone

theorem At.host_cases [∀ op, Std.Associative (ops op)]
    (hsteps : ∀ s ∈ steps, ProperStep W.size s) (h : At W steps heaps p r A) :
    A.host = .blocks ∨ ∃ A', A.host = .returns A' := by
  obtain ⟨k, hstands⟩ := h.stands
  cases hstands with
  | before h hnext =>
    obtain rfl | ⟨s, hs, hpart⟩ := hnext
    · refine .inl ?_
      rw [Node.host, h.program, programAt_end (Nat.le_refl _)]
    · exact .inr (h.host_returns hsteps hs hpart)
  | inside s past x h =>
    rw [host_wait h.program h.get h.handle]
    split
    · exact .inl rfl
    · exact .inr ⟨_, rfl⟩

/-- No act is an error. -/
theorem perform_safe [∀ op, Std.Associative (ops op)] (hsteps : ∀ s ∈ steps, ProperStep W.size s)
    (hat : ∀ p, ∃ r, At W steps heaps p r (w p)) (act : Act) :
    Nodes.perform W w act = .blocks ∨ ∃ w', Nodes.perform W w act = .returns w' := by
  cases act with
  | host p =>
    obtain ⟨r, h⟩ := hat p
    rw [Nodes.perform]
    obtain hA | ⟨A', hA⟩ := h.host_cases hsteps
    · exact .inl (by rw [hA]; rfl)
    · exact .inr ⟨_, by rw [hA]; rfl⟩
  | read p op =>
    rw [Nodes.perform]
    split
    · split
      · exact .inr ⟨_, rfl⟩
      · exact .inl rfl
    · exact .inl rfl
  | store p op =>
    rw [Nodes.perform]
    split
    · rename_i x hx
      split
      · rename_i hcond
        split
        · rename_i xs harr
          obtain ⟨r, h⟩ := hat p
          have hnot : ¬ Over p x := fun hover => by
            have := hover.2 hcond.2
            simp [hcond.1] at this
          obtain ⟨k, s, past, rfl, hcalling, -⟩ := h.calling_of_not_over hx hnot
          obtain ⟨-, m, rfl⟩ := hcalling.arriving_eq hsteps
            (fun q => (hat q).elim fun r h => h.made) hcond.2 harr
          rw [if_pos ((hcalling.waiting hcond.1).fits hcond.2 m)]
          exact .inr ⟨_, rfl⟩
        · exact .inl rfl
      · exact .inl rfl
    · exact .inl rfl
  | finish p op =>
    rw [Nodes.perform]
    split
    · split
      · exact .inr ⟨_, rfl⟩
      · exact .inl rfl
    · exact .inl rfl

/-- **Data-parallel programs do what they are meant to over MPI.** For every
number of processes and every list of work, transfers and collectives, and
whatever MPI and the processes have done so far: they have not gone on for
longer than `5 * W.size * steps.length` acts, nothing that can happen next is
an error, the programs can still be finished, and when they are, the memories
are those that the steps mean. -/
theorem parallel_carried_out [∀ op, Std.Associative (ops op)]
    (hsteps : ∀ s ∈ steps, ProperStep W.size s) {acts : List Act}
    (hrun : exec (Nodes.step W) (.start (parallelPrograms W steps) heaps n) acts = some w) :
    acts.length ≤ 5 * W.size * steps.length ∧
      (∀ act, Nodes.perform W w act = .blocks ∨ ∃ w', Nodes.perform W w act = .returns w') ∧
      (∃ acts' w', exec (Nodes.step W) w acts' = some w' ∧ w'.Finished) ∧
      (w.Finished → ∀ p (c : Cell), c.1 < n →
        (w p).heap c = ParallelStep.run ops W.size heaps steps p c) := by
  have hstep : ∀ (w : Nodes α) R act w', Within W steps heaps w R →
      Nodes.step W w act = some w' → ∃ R', R' < R ∧ Within W steps heaps w' R' :=
    fun _ _ _ _ h => h.step hsteps
  obtain ⟨R, hwithin, hlen⟩ := exists_rank_of_exec hstep (within_start hsteps) hrun
  have hat : ∀ p, ∃ r, At W steps heaps p r (w p) := by
    obtain ⟨r, hat, -⟩ := hwithin
    exact fun p => ⟨r p, hat p⟩
  refine ⟨by omega, perform_safe hsteps hat, ?_, fun hend p c hlt => ?_⟩
  · obtain ⟨acts', w', hacts', hstuck⟩ := exists_end_of_rank hstep hwithin
    obtain ⟨R', ⟨r', hat', -⟩, -⟩ := exists_rank_of_exec hstep hwithin hacts'
    refine ⟨acts', w', hacts', fun p => ?_⟩
    rw [(rests_of_stuck hsteps (fun p => ⟨r' p, hat' p⟩) hstuck p).program,
      programAt_end (Nat.le_refl _)]
  · obtain ⟨r, h⟩ := hat p
    exact h.heap_of_done hsteps (hend p) c hlt

end Whole

/-- Two processes of which MPI buffers the messages and adds up. -/
def pair : World fun _ x y : Nat => x + y :=
  { Messaging.buffered with
    size      := 2
    combiners := fun _ _ => Nccl.adding }

theorem proper_pair : ∀ s ∈ Nccl.sums, ProperStep pair.size s := by
  have hcarries : Carries 1 (.line 0 0 3 2) (Nccl.three 6 1) :=
    ⟨by decide, by decide, by decide, by decide, .inl (by decide), by decide, by decide⟩
  have hapart : Apart (Nccl.three 0 0) (Nccl.three 3 0) := by
    unfold Apart
    decide
  have hapart' : Apart (.line 0 0 3 2) (Nccl.three 6 1) := by
    unfold Apart
    decide
  intro s hs
  simp only [Nccl.sums, List.mem_cons, List.not_mem_nil, or_false] at hs
  rcases hs with rfl | rfl
  · exact fun p _ => ⟨Nccl.flat_line 0 3, Nccl.flat_line 3 3, hapart,
      fun _ _ => Nccl.carries_three,
      (by decide : (Nccl.three 0 0).size < 2147483648)⟩
  · exact ⟨(by decide : 1 < 2), hapart', fun p _ => ⟨hcarries,
      (by decide : (View.line 0 0 3 2).size < 2147483648)⟩⟩

theorem parallel_carried_out_pair : ∃ acts w,
    exec (Nodes.step pair) (.start (parallelPrograms pair Nccl.sums) (fun p c => 100 * p + c.2) 1)
      acts = some w ∧ acts.length ≤ 20 ∧ w.Finished ∧ (w 0).heap (0, 4) = 102 ∧
      (w 1).heap (0, 7) = 104 := by
  have hstart : exec (Nodes.step pair)
    (.start (parallelPrograms pair Nccl.sums) (fun p c => 100 * p + c.2) 1) [] = some _ := rfl
  obtain ⟨-, -, ⟨acts, w, hacts, hend⟩, -⟩ := parallel_carried_out proper_pair hstart
  obtain ⟨hlen, -, -, hmeant⟩ := parallel_carried_out proper_pair hacts
  exact ⟨acts, w, hacts, hlen, hend, (hmeant hend 0 (0, 4) (by decide)).trans (by decide +kernel),
    (hmeant hend 1 (0, 7) (by decide)).trans (by decide +kernel)⟩

/-! ## §3 Both backends -/

/-- **The backends agree on data-parallel programs.** With views that both
take, a program can be finished over MPI, whatever it has done so far, as over
NCCL; and when it is, both leave the same in the user's memory. -/
theorem parallel_backends_agree [Inhabited α] [∀ op, Std.Associative (ops op)]
    (combiners : ∀ op, Reduction.Combiner (ops op)) (hN : 0 < W.size) (comm : Nccl.NcclComm)
    (hmpi : ∀ s ∈ steps, ProperStep W.size s) (hnccl : ∀ s ∈ steps, Nccl.ProperStep W.size s)
    {acts : List Act} {w : Nodes α}
    (hacts : exec (Nodes.step W) (.start (parallelPrograms W steps) heaps n) acts = some w)
    {as : List Nccl.Act} {u : Nccl.Ranks α}
    (has : exec (Nccl.Ranks.step (Nccl.documented combiners W.size hN comm))
      (.start (Nccl.parallelPrograms W.size steps) heaps n) as = some u) :
    (∃ acts' w', exec (Nodes.step W) w acts' = some w' ∧ w'.Finished) ∧
      (∃ as' u', exec (Nccl.Ranks.step (Nccl.documented combiners W.size hN comm)) u as' = some u' ∧
        u'.Finished) ∧
      (w.Finished → u.Finished → ∀ p (c : Cell), c.1 < n → (w p).heap c = (u p).heap c) := by
  obtain ⟨-, -, hcan, hmeant⟩ := parallel_carried_out hmpi hacts
  obtain ⟨hcan', hmeant'⟩ := Nccl.Ranks.finished_parallel hnccl has
  refine ⟨hcan, hcan', fun hw hu p c hlt => ?_⟩
  rw [hmeant hw p c hlt, hmeant' hu p c hlt]

theorem sums_agree : ∃ acts w as u,
    exec (Nodes.step pair) (.start (parallelPrograms pair Nccl.sums) (fun p c => 100 * p + c.2) 1)
      acts = some w ∧ w.Finished ∧
    exec (Nccl.Ranks.step (Nccl.documented Nccl.adding 2 (by decide) 0))
      (.start (Nccl.parallelPrograms 2 Nccl.sums) (fun p c => 100 * p + c.2) 1) as = some u ∧
    u.Finished ∧ (w 1).heap (0, 7) = (u 1).heap (0, 7) := by
  have hmpi : exec (Nodes.step pair)
    (.start (parallelPrograms pair Nccl.sums) (fun p c => 100 * p + c.2) 1) [] = some _ := rfl
  have hnccl : exec (Nccl.Ranks.step (Nccl.documented Nccl.adding 2 (by decide) 0))
    (.start (Nccl.parallelPrograms 2 Nccl.sums) (fun p c => 100 * p + c.2) 1) [] = some _ := rfl
  obtain ⟨⟨acts, w, hacts, hw⟩, ⟨as, u, has, hu⟩, -⟩ :=
    parallel_backends_agree Nccl.adding (by decide) 0 proper_pair Nccl.proper_sums hmpi hnccl
  obtain ⟨-, -, hagree⟩ :=
    parallel_backends_agree Nccl.adding (by decide) 0 proper_pair Nccl.proper_sums hacts has
  exact ⟨acts, w, as, u, hacts, hw, has, hu, hagree hw hu 1 (0, 7) (by decide)⟩

end KokkosComm.Mpi.Parallel
