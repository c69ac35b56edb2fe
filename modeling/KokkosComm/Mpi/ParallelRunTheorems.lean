/-
KokkosComm.Mpi.ParallelRunTheorems — data-parallel programs do what they are
meant to over MPI, whenever MPI does what it has to.

§1 where a process can be: between two steps (`Resting`), or in the call of
one (`Calling`), which is all that happens to it. §2 what belongs together:
the k-th call of a kind is that of the k-th step of this kind. §3 each act
keeps this, and makes a rank smaller. §4 so does each step of a run.
-/
import Mathlib.Algebra.BigOperators.Group.Finset.Basic
import Mathlib.Algebra.Order.BigOperators.Group.Finset
import KokkosComm.Foundation.Lts
import KokkosComm.Foundation.Occurrences
import KokkosComm.Mpi.ParallelTheorems

namespace KokkosComm.Mpi.Parallel

open Lts Occurrences

variable {α : Type} {n : Nat}

/-! ## §1 Where a process is -/

section Runs

variable {ops : MpiOp → α → α → α} (W : World ops) (steps : List (ParallelStep α n))
  (heaps : Nat → Heap α)

/-- The memories before step `k`. -/
def memoryAt (k : Nat) : Nat → Heap α := ParallelStep.run ops W.size heaps (steps.take k)

/-- Process `p` makes a call in step `j`. -/
def calls (p j : Nat) : Bool := (steps[j]?.bind (partOf W p)).isSome

/-- The steps before `k` in which it makes calls. -/
def shares (p k : Nat) : List Nat := (List.range k).filter (calls W steps p)

/-- The rest of its program. -/
def programAt (p k : Nat) : List (Instr α) :=
  parallelProgram W p (steps.drop k) (shares W steps p k).length

/-- `x` is the operation of step `j`. -/
def Made (p j : Nat) (x : Started α) : Prop :=
  ∃ s, steps[j]? = some s ∧ IsCallOf W p x.call s ∧ (x.read = none ∨
    x.call.fn.reads p = true ∧ x.read = some (message W.size (memoryAt W steps heaps j) p s))

/-- MPI has done all for an operation. -/
def Over (p : Nat) (x : Started α) : Prop :=
  (x.call.fn.reads p = true → x.read.isSome = true) ∧
    (x.call.fn.writes p = true → x.stored = true)

/-- Before step `k`, with all operations over. -/
structure Resting (p k : Nat) (A : Node α) : Prop where
  le : k ≤ steps.length
  program : A.program = programAt W steps p k
  heap : ∀ c : Cell, c.1 < n → A.heap c = memoryAt W steps heaps k p c
  alloc : n ≤ A.nextAlloc
  made : List.Forall₂ (Made W steps heaps p) (shares W steps p k) A.posted
  settled : ∀ x ∈ A.posted, Over p x
  status : ∀ op, A.lib.status op = .inFlight ↔ A.posted.length ≤ op

/-- In step `k`, before the wait for the operation `x`. -/
structure Calling (p k : Nat) (s : ParallelStep α n) (past : List (Started α)) (x : Started α)
    (A : Node α) : Prop where
  step : steps[k]? = some s
  part : (partOf W p s).isSome = true
  program : A.program = .wait past.length :: programAt W steps p (k + 1)
  alloc : n ≤ A.nextAlloc
  posted : A.posted = past ++ [x]
  kept : List.Forall₂ (Made W steps heaps p) (shares W steps p k) past
  settled : ∀ y ∈ past, Over p y
  made : Made W steps heaps p k x
  handle : x.req.request_ = some past.length
  waiting : x.stored = false →
    Doing W (memoryAt W steps heaps k) s p x.call x.req.complete A.heap
  stored : x.stored = true → (x.call.fn.reads p = true → x.read.isSome = true) ∧
    ∀ c : Cell, c.1 < n → x.req.complete A.heap c = memoryAt W steps heaps (k + 1) p c
  status : ∀ op, op ≠ past.length → (A.lib.status op = .inFlight ↔ past.length < op)
  done : A.lib.status past.length ≠ .inFlight → Over p x

/-- What has been done for the operation `x`, of the five acts of a step. -/
def spent (A : Node α) (op : OpId) (x : Started α) : Nat :=
  1 + (if x.read.isSome then 1 else 0) + (if x.stored then 1 else 0) +
    (if A.lib.status op = .inFlight then 0 else 1)

/-- Where a process is, with at most `r` acts left. -/
inductive At (p r : Nat) (A : Node α) : Prop where
  | resting (k : Nat) (h : Resting W steps heaps p k A) (hr : r = 5 * (steps.length - k))
  | calling (k : Nat) (s : ParallelStep α n) (past : List (Started α)) (x : Started α)
      (h : Calling W steps heaps p k s past x A)
      (hr : r + spent A past.length x = 5 * (steps.length - k))

variable {W steps heaps} {p q k : Nat} {s : ParallelStep α n}

theorem memoryAt_succ (hs : steps[k]? = some s) :
    memoryAt W steps heaps (k + 1) = s.apply ops W.size (memoryAt W steps heaps k) := by
  rw [memoryAt, List.take_add_one, hs, ParallelStep.run_append]
  rfl

theorem calls_eq (hs : steps[k]? = some s) : calls W steps p k = (partOf W p s).isSome := by
  rw [calls, hs, Option.bind_some]

theorem shares_succ : shares W steps p (k + 1) =
    shares W steps p k ++ if calls W steps p k then [k] else [] := by
  rw [shares, List.range_succ, List.filter_append, List.filter_cons, List.filter_nil, shares]

theorem programAt_eq (hs : steps[k]? = some s) : programAt W steps p k =
    instrsOf W p (shares W steps p k).length s ++ programAt W steps p (k + 1) := by
  obtain ⟨hlt, hget⟩ := List.getElem?_eq_some_iff.mp hs
  rw [programAt, List.drop_eq_getElem_cons hlt, parallelProgram, hget, programAt, shares_succ,
    calls_eq hs]
  cases (partOf W p s).isSome <;> simp

theorem instrsOf_work (m : Nat) (κ : UserKernel α n) :
    instrsOf W p m (.event (.work p κ)) = [.kernel κ.toKernel] := by simp [instrsOf, partOf]

theorem instrsOf_call {c : AsyncCall} (hc : partOf W p s = some c) (m : Nat) :
    instrsOf W p m s = [.call c, .wait m] := by cases s <;> simp [instrsOf, hc]

theorem programAt_end (hk : steps.length ≤ k) : programAt W steps p k = [] := by
  rw [programAt, List.drop_eq_nil_of_le hk]
  rfl

/-- What a step is for a process: work, a call, or nothing at all. -/
theorem part_cases (W : World ops) (p : Nat) (s : ParallelStep α n) :
    (∃ κ, s = .event (.work p κ)) ∨ (∃ c, partOf W p s = some c) ∨
      partOf W p s = none ∧ (∀ m, instrsOf W p m s = []) ∧
        ∀ heaps : Nat → Heap α, s.apply ops W.size heaps p = heaps p := by
  cases hc : partOf W p s with
  | some c => exact .inr (.inl ⟨c, rfl⟩)
  | none =>
    cases s with
    | event e =>
      cases e with
      | work q κ =>
        by_cases hq : q = p
        · subst hq
          exact .inl ⟨κ, rfl⟩
        · exact .inr (.inr ⟨rfl, fun m => by simp [instrsOf, partOf, hq],
            fun heaps => Function.update_of_ne (Ne.symm hq) _ _⟩)
      | transfer src dst sv rv =>
        have hdst : dst ≠ p := by
          rintro rfl
          rw [partOf] at hc
          by_cases hsrc : src = dst
          · simp [hsrc] at hc
          · simp [hsrc] at hc
        exact .inr (.inr ⟨rfl, fun m => by simp [instrsOf, hc],
          fun heaps => Function.update_of_ne (Ne.symm hdst) _ _⟩)
    | all d =>
      have hp : ¬ p < W.size := by simpa [partOf] using hc
      exact .inr (.inr ⟨rfl, fun m => by simp [instrsOf, hc],
        fun heaps => applyAll_of_not_lt hp⟩)

/-- Steps without a part of the process can be passed over. -/
theorem Resting.skip {A : Node α} (h : Resting W steps heaps p k A) (hs : steps[k]? = some s)
    (hnone : partOf W p s = none) (hinstrs : ∀ m, instrsOf W p m s = [])
    (hsame : ∀ heaps : Nat → Heap α, s.apply ops W.size heaps p = heaps p) :
    Resting W steps heaps p (k + 1) A := by
  have hcalls : calls W steps p k = false := by simp [calls_eq hs, hnone]
  have hshares : shares W steps p (k + 1) = shares W steps p k := by simp [shares_succ, hcalls]
  refine ⟨(List.getElem?_eq_some_iff.mp hs).1, ?_, fun c hlt => ?_, h.alloc, ?_, h.settled,
    h.status⟩
  · rw [h.program, programAt_eq hs, hinstrs, List.nil_append]
  · rw [memoryAt_succ hs, hsame]
    exact h.heap c hlt
  · rw [hshares]
    exact h.made

/-- A process at rest is at the end, or before a step that it takes part in. -/
theorem Resting.next {A : Node α} (h : Resting W steps heaps p k A) :
    ∃ k', k ≤ k' ∧ Resting W steps heaps p k' A ∧ (k' = steps.length ∨ ∃ s, steps[k']? = some s ∧
      ((∃ κ, s = .event (.work p κ)) ∨ ∃ c, partOf W p s = some c)) := by
  induction hd : steps.length - k generalizing k with
  | zero => exact ⟨k, Nat.le_refl k, h, .inl (by have := h.le; omega)⟩
  | succ d ih =>
    have hlt : k < steps.length := by omega
    have hs : steps[k]? = some steps[k] := List.getElem?_eq_getElem hlt
    rcases part_cases W p steps[k] with hwork | hpart | ⟨hnone, hinstrs, hsame⟩
    · exact ⟨k, Nat.le_refl k, h, .inr ⟨_, hs, .inl hwork⟩⟩
    · exact ⟨k, Nat.le_refl k, h, .inr ⟨_, hs, .inr hpart⟩⟩
    · obtain ⟨k', hle, hrest, hnext⟩ := ih (h.skip hs hnone hinstrs hsame) (by omega)
      exact ⟨k', Nat.le_of_succ_le hle, hrest, hnext⟩

/-! ## §2 What belongs together -/

/-- A transfer from `a` to `b`, … -/
def isTransfer (a b : Nat) : ParallelStep α n → Bool
  | .event (.transfer src dst _ _) => src == a && dst == b
  | _ => false

/-- … or a collective. -/
def isAll : ParallelStep α n → Bool
  | .all _ => true
  | _ => false

variable (steps) in
/-- The steps of a kind. -/
def places (kind : ParallelStep α n → Bool) (j : Nat) : Bool := steps[j]?.any kind

theorem places_eq {kind : ParallelStep α n → Bool} (hs : steps[k]? = some s) :
    places steps kind k = kind s := by simp [places, hs]

section Kinds

variable {call : MpiCall} {a b : Nat}

theorem isCollective_collectiveFn (d : Collective) : (collectiveFn d).isCollective = true := by
  cases d <;> rfl

theorem envelopes_collectiveFn (d : Collective) :
    (collectiveFn d).sendEnvelope = none ∧ (collectiveFn d).recvEnvelope = none := by
  cases d <;> exact ⟨rfl, rfl⟩

theorem envelopes_mpiIsendFn (mode : CommunicationMode) (dest tag : Int) :
    (mpiIsendFn mode dest tag).recvEnvelope = none ∧
      (mpiIsendFn mode dest tag).isCollective = false := by
  cases mode <;> exact ⟨rfl, rfl⟩

theorem isSendTo_eq (h : IsCallOf W p call s) :
    call.isSendTo W.comm b = isTransfer p b s := by
  cases s with
  | event e =>
    cases e with
    | work q κ => exact h.elim
    | transfer src dst sv rv =>
      obtain ⟨hcomm, ⟨rfl, hfn⟩ | ⟨hne, rfl, hfn⟩⟩ := h
      · simp [MpiCall.isSendTo, hfn, hcomm, sendEnvelope_mpiIsendFn, isTransfer]
      · simp [MpiCall.isSendTo, hfn, MpiFn.sendEnvelope, isTransfer, Ne.symm hne]
  | all d =>
    obtain ⟨-, hfn, -⟩ := h
    simp [MpiCall.isSendTo, hfn, (envelopes_collectiveFn d).1, isTransfer]

theorem isRecvFrom_eq (h : IsCallOf W p call s) (hs : ProperStep W.size s) :
    call.isRecvFrom W.comm a = isTransfer a p s := by
  cases s with
  | event e =>
    cases e with
    | work q κ => exact h.elim
    | transfer src dst sv rv =>
      have hne : src ≠ dst := hs.2.2.1
      obtain ⟨hcomm, ⟨rfl, hfn⟩ | ⟨-, rfl, hfn⟩⟩ := h
      · simp [MpiCall.isRecvFrom, hfn, (envelopes_mpiIsendFn _ _ _).1, isTransfer, Ne.symm hne]
      · simp [MpiCall.isRecvFrom, hfn, hcomm, MpiFn.recvEnvelope, isTransfer]
  | all d =>
    obtain ⟨-, hfn, -⟩ := h
    simp [MpiCall.isRecvFrom, hfn, (envelopes_collectiveFn d).2, isTransfer]

theorem isCollectiveOn_eq (h : IsCallOf W p call s) :
    call.isCollectiveOn W.comm = isAll s := by
  cases s with
  | event e =>
    cases e with
    | work q κ => exact h.elim
    | transfer src dst sv rv =>
      obtain ⟨hcomm, ⟨-, hfn⟩ | ⟨-, -, hfn⟩⟩ := h
      · simp [MpiCall.isCollectiveOn, hfn, (envelopes_mpiIsendFn _ _ _).2, isAll]
      · simp [MpiCall.isCollectiveOn, hfn, MpiFn.isCollective, isAll]
  | all d =>
    obtain ⟨hcomm, hfn, -⟩ := h
    simp [MpiCall.isCollectiveOn, hfn, hcomm, isCollective_collectiveFn, isAll]

/-- Both ends of a transfer make a call for it. -/
theorem part_of_isTransfer (h : isTransfer a b s = true) :
    (partOf W a s).isSome = true ∧ (partOf W b s).isSome = true := by
  cases s with
  | event e =>
    cases e with
    | work q κ => cases h
    | transfer src dst sv rv =>
      obtain ⟨rfl, rfl⟩ : src = a ∧ dst = b := by simpa [isTransfer] using h
      refine ⟨by simp [partOf], ?_⟩
      by_cases hsrc : src = dst <;> simp [partOf, hsrc]
  | all d => cases h

theorem part_of_isAll (h : isAll s = true) (hq : q < W.size) : (partOf W q s).isSome = true := by
  cases s with
  | event e => cases h
  | all d => simp [partOf, hq]

end Kinds

section Matching

variable {kind : MpiCall → Bool} {place : ParallelStep α n → Bool} {R : Nat → Started α → Prop}
  {l : List (Started α)} {k' : Nat}

/-- Operations of a kind are those of steps of a kind. -/
theorem filter_of_made (hl : List.Forall₂ R (shares W steps q k') l)
    (hkind : ∀ j x, R j x → kind x.call = places steps place j)
    (hcalls : ∀ j, places steps place j = true → calls W steps q j = true) :
    List.Forall₂ R ((List.range k').filter (places steps place))
      (l.filter fun x => kind x.call) := by
  rw [← filter_filter_range hcalls]
  refine List.rel_filter (fun j x hjx => ?_) hl
  show places steps place j = true ↔ kind x.call = true
  rw [hkind j x hjx]

theorem countP_of_made (hl : List.Forall₂ R (shares W steps q k') l)
    (hkind : ∀ j x, R j x → kind x.call = places steps place j)
    (hcalls : ∀ j, places steps place j = true → calls W steps q j = true) :
    l.countP (fun x => kind x.call) = (List.range k').countP (places steps place) := by
  rw [List.countP_eq_length_filter, List.countP_eq_length_filter,
    (filter_of_made hl hkind hcalls).length_eq]

/-- The operation of step `k`, if it has been started. -/
theorem nth_of_made {A : Node α} (hl : List.Forall₂ R (shares W steps q k') A.posted)
    (hkind : ∀ j x, R j x → kind x.call = places steps place j)
    (hcalls : ∀ j, places steps place j = true → calls W steps q j = true)
    (hplace : places steps place k = true) :
    (k < k' → ∃ y, A.nth kind ((List.range k).countP (places steps place)) = some y ∧ R k y) ∧
      ∀ y, A.nth kind ((List.range k).countP (places steps place)) = some y → R k y := by
  have hfilter := filter_of_made hl hkind hcalls
  have hget : k < k' → ∃ y, A.nth kind ((List.range k).countP (places steps place)) = some y ∧
      R k y := fun hlt => by
    obtain ⟨hi, hk⟩ := List.getElem?_eq_some_iff.mp (getElem?_filter_range hlt hplace)
    have hi' := hfilter.length_eq ▸ hi
    refine ⟨_, List.getElem?_eq_getElem hi', ?_⟩
    have hR := (List.forall₂_iff_get.mp hfilter).2 _ hi hi'
    simpa [hk] using hR
  refine ⟨hget, fun y hy => ?_⟩
  by_cases hlt : k < k'
  · obtain ⟨y', hy', hR⟩ := hget hlt
    obtain rfl : y' = y := Option.some.inj (hy'.symm.trans hy)
    exact hR
  · obtain ⟨hi, -⟩ := List.getElem?_eq_some_iff.mp hy
    have hle : (List.range k').countP (places steps place) ≤
        (List.range k).countP (places steps place) := by
      obtain ⟨rest, -, heq⟩ :=
        filter_range_of_le (p := places steps place) (Nat.not_lt.mp hlt)
      rw [List.countP_eq_length_filter, List.countP_eq_length_filter, heq, List.length_append]
      exact Nat.le_add_right _ _
    rw [← hfilter.length_eq, ← List.countP_eq_length_filter] at hi
    omega

end Matching

theorem places_iff {kind : ParallelStep α n → Bool} {j : Nat} :
    places steps kind j = true ↔ ∃ s, steps[j]? = some s ∧ kind s = true := by
  simp [places, Option.any_eq_true]

theorem places_transfer {a b : Nat} {sv rv : View}
    (hs : steps[k]? = some (.event (.transfer a b sv rv))) :
    places steps (isTransfer a b) k = true := places_iff.mpr ⟨_, hs, by simp [isTransfer]⟩

theorem places_all {d : Collective} (hs : steps[k]? = some (.all d)) :
    places steps isAll k = true := places_iff.mpr ⟨_, hs, rfl⟩

section Made

variable {j a b : Nat} {x : Started α}

theorem calls_of_places {kind : ParallelStep α n → Bool}
    (hkind : ∀ s, kind s = true → (partOf W q s).isSome = true)
    (h : places steps kind j = true) : calls W steps q j = true := by
  obtain ⟨s, hs, hk⟩ := places_iff.mp h
  rw [calls_eq hs, hkind s hk]

theorem Made.isSendTo (h : Made W steps heaps q j x) :
    x.call.isSendTo W.comm b = places steps (isTransfer q b) j := by
  obtain ⟨s, hs, hcall, -⟩ := h
  rw [isSendTo_eq hcall, places_eq hs]

theorem Made.isRecvFrom (h : Made W steps heaps q j x)
    (hsteps : ∀ s ∈ steps, ProperStep W.size s) :
    x.call.isRecvFrom W.comm a = places steps (isTransfer a q) j := by
  obtain ⟨s, hs, hcall, -⟩ := h
  rw [isRecvFrom_eq hcall (hsteps s (List.mem_of_getElem? hs)), places_eq hs]

theorem Made.isCollectiveOn (h : Made W steps heaps q j x) :
    x.call.isCollectiveOn W.comm = places steps isAll j := by
  obtain ⟨s, hs, hcall, -⟩ := h
  rw [isCollectiveOn_eq hcall, places_eq hs]

/-- What MPI has read, it has read for the step. -/
theorem Made.eq_of_read (h : Made W steps heaps q j x) (hs : steps[j]? = some s) {xs : List α}
    (hread : x.read = some xs) : x.call.fn.reads q = true ∧
      xs = message W.size (memoryAt W steps heaps j) q s := by
  obtain ⟨s', hs', -, hcases⟩ := h
  obtain rfl : s' = s := Option.some.inj (hs'.symm.trans hs)
  rcases hcases with hnone | ⟨hreads, hsome⟩
  · rw [hnone] at hread
    cases hread
  · rw [hsome] at hread
    exact ⟨hreads, (Option.some.inj hread).symm⟩

end Made

/-- All that `q` sends for step `k` has been read. -/
def Sent (W : World ops) (steps : List (ParallelStep α n)) (heaps : Nat → Heap α) (q k : Nat)
    (A : Node α) : Prop :=
  ∃ k', k < k' ∧ List.Forall₂ (fun j y => Made W steps heaps q j y ∧
    (j = k → y.call.fn.reads q = true → y.read.isSome = true)) (shares W steps q k') A.posted

section Contributions

variable {A : Node α} {k' m : Nat} {d : Collective} {call : MpiCall}

/-- Calls of the same collective agree. -/
theorem contribution_of_made {y : Started α} (hmade : Made W steps heaps q k y)
    (hs : steps[k]? = some (.all d)) (hcall : IsCallOf W p call (.all d : ParallelStep α n))
    (hnth : A.nth (MpiCall.isCollectiveOn W.comm) m = some y) :
    A.contribution m call = y.read ∧ y.call.fn = call.fn := by
  obtain ⟨s, hs', hcall', -⟩ := hmade
  obtain rfl : s = .all d := Option.some.inj (hs'.symm.trans hs)
  obtain ⟨hcomm, hfn, -, hrecv⟩ := hcall
  obtain ⟨-, hfn', hsend', -⟩ := hcall'
  have hsame : y.call.fn = call.fn := by rw [hfn, hfn']
  refine ⟨?_, hsame⟩
  rw [Node.contribution, hcomm, hnth, Option.bind_some, if_pos ⟨hsame, by rw [hsend', hrecv]⟩]

theorem contribution_eq (hmade : List.Forall₂ (Made W steps heaps q) (shares W steps q k') A.posted)
    (hq : q < W.size) (hs : steps[k]? = some (.all d))
    (hcall : IsCallOf W p call (.all d : ParallelStep α n)) {xs : List α}
    (hc : A.contribution ((List.range k).countP (places steps isAll)) call = some xs) :
    call.fn.reads q = true ∧
      xs = message W.size (memoryAt W steps heaps k) q (.all d : ParallelStep α n) := by
  obtain ⟨-, hnth⟩ := nth_of_made hmade
    (fun j x h => h.isCollectiveOn)
    (fun j => calls_of_places fun s h => part_of_isAll h hq) (places_all hs)
  cases hy : A.nth (MpiCall.isCollectiveOn W.comm) ((List.range k).countP (places steps isAll)) with
  | none =>
    rw [Node.contribution, hcall.1, hy] at hc
    cases hc
  | some y =>
    obtain ⟨heq, hfn⟩ := contribution_of_made (hnth y hy) hs hcall hy
    rw [heq] at hc
    rw [← hfn]
    exact (hnth y hy).eq_of_read hs hc

/-- … whose messages are those of the step, and empty where nothing is sent. -/
theorem contribution_getD
    (hmade : List.Forall₂ (Made W steps heaps q) (shares W steps q k') A.posted)
    (hq : q < W.size) (hs : steps[k]? = some (.all d))
    (hcall : IsCallOf W p call (.all d : ParallelStep α n))
    (hthere : call.fn.reads q = true →
      (A.contribution ((List.range k).countP (places steps isAll)) call).isSome = true) :
    (A.contribution ((List.range k).countP (places steps isAll)) call).getD [] =
      if call.fn.reads q then
        message W.size (memoryAt W steps heaps k) q (.all d : ParallelStep α n) else [] := by
  cases hc : A.contribution ((List.range k).countP (places steps isAll)) call with
  | none =>
    have hreads : ¬ call.fn.reads q = true := fun hr => by
      have hsome := hthere hr
      rw [hc] at hsome
      cases hsome
    rw [if_neg hreads]
    rfl
  | some ys =>
    obtain ⟨hreads, rfl⟩ := contribution_eq hmade hq hs hcall hc
    rw [if_pos hreads]
    rfl

theorem exists_contribution (hsent : Sent W steps heaps q k A) (hq : q < W.size)
    (hs : steps[k]? = some (.all d)) (hcall : IsCallOf W p call (.all d : ParallelStep α n))
    (hreads : call.fn.reads q = true) :
    (A.contribution ((List.range k).countP (places steps isAll)) call).isSome = true := by
  obtain ⟨k', hlt, hmade⟩ := hsent
  obtain ⟨hget, -⟩ := nth_of_made hmade
    (fun j x h => h.1.isCollectiveOn)
    (fun j => calls_of_places fun s h => part_of_isAll h hq) (places_all hs)
  obtain ⟨y, hy, hmade', hread⟩ := hget hlt
  obtain ⟨heq, hfn⟩ := contribution_of_made hmade' hs hcall hy
  rw [heq]
  exact hread rfl (by rw [hfn, hreads])

end Contributions

section Arriving

variable {w : Nodes α} {op : OpId} {call : MpiCall}

theorem arriving_recv {src : Nat} {tag : Int} (hfn : call.fn = .mpiIrecv src tag) :
    Nodes.arriving W w p op call = if call.isRecvFrom W.comm src then
      ((w src).nth (MpiCall.isSendTo W.comm p)
        ((w p).before (MpiCall.isRecvFrom W.comm src) op)).bind Started.read else none := by
  unfold Nodes.arriving
  split
  · rename_i src' _ heq
    obtain ⟨hsrc, -⟩ : (src : Int) = Int.ofNat src' ∧ _ := by simpa [hfn] using heq
    obtain rfl : src = src' := Int.ofNat.inj hsrc
    rfl
  · rename_i hother
    exact absurd hfn (hother src tag)

theorem arriving_all {d : Collective} (hfn : call.fn = collectiveFn d) :
    Nodes.arriving W w p op call =
      if call.isCollectiveOn W.comm = true ∧ ∀ q < W.size, call.fn.reads q = true →
          ((w q).contribution ((w p).before (MpiCall.isCollectiveOn W.comm) op) call).isSome = true
      then some (call.result (W.combiners p ((w p).before (MpiCall.isCollectiveOn W.comm) op)) p
        ((List.range W.size).map fun q => ((w q).contribution
          ((w p).before (MpiCall.isCollectiveOn W.comm) op) call).getD [])) else none := by
  unfold Nodes.arriving
  split
  · rename_i heq
    rw [hfn] at heq
    cases d <;> cases heq
  · simp only [List.map_map, Function.comp_def]

theorem writes_mpiIsendFn (mode : CommunicationMode) (dest tag : Int) :
    (mpiIsendFn mode dest tag).writes p = false := by cases mode <;> rfl

variable {past : List (Started α)} {x : Started α}

/-- The operations of a kind before the one that has been called. -/
theorem Calling.before_eq {A : Node α} (h : Calling W steps heaps p k s past x A)
    {kind : MpiCall → Bool} {place : ParallelStep α n → Bool}
    (hkind : ∀ j x, Made W steps heaps p j x → kind x.call = places steps place j)
    (hcalls : ∀ s, place s = true → (partOf W p s).isSome = true) :
    A.before kind past.length = (List.range k).countP (places steps place) := by
  rw [Node.before, h.posted, List.take_left]
  exact countP_of_made h.kept hkind fun j => calls_of_places hcalls

theorem Calling.isCall {A : Node α} (h : Calling W steps heaps p k s past x A) :
    IsCallOf W p x.call s := by
  obtain ⟨s', hs', hcall, -⟩ := h.made
  obtain rfl : s' = s := Option.some.inj (hs'.symm.trans h.step)
  exact hcall

/-- The collectives before the one that has been called. -/
theorem Calling.before_all {A : Node α} (h : Calling W steps heaps p k s past x A)
    (hp : p < W.size) : A.before (MpiCall.isCollectiveOn W.comm) past.length =
      (List.range k).countP (places steps isAll) :=
  h.before_eq (fun _ _ hx => hx.isCollectiveOn) fun _ hs => part_of_isAll hs hp

/-- The operation that has been called is the last of its kind. -/
theorem Calling.nth_eq {A : Node α} (h : Calling W steps heaps p k s past x A)
    {kind : MpiCall → Bool} {m : Nat} (hbefore : A.before kind past.length = m)
    (hkind : kind x.call = true) : A.nth kind m = some x := by
  rw [Node.before, h.posted, List.take_left, List.countP_eq_length_filter] at hbefore
  rw [Node.nth, h.posted, List.filter_append, ← hbefore,
    List.getElem?_append_right (Nat.le_refl _), Nat.sub_self]
  simp [hkind]

/-- A receive gets the send of its step, … -/
theorem Calling.arriving_transfer {src : Nat} {tag : Int} {sv rv : View}
    (h : Calling W steps heaps p k (.event (.transfer src p sv rv)) past x (w p))
    (hsteps : ∀ s ∈ steps, ProperStep W.size s) (hfn : x.call.fn = .mpiIrecv src tag) :
    Nodes.arriving W w p past.length x.call = ((w src).nth (MpiCall.isSendTo W.comm p)
      ((List.range k).countP (places steps (isTransfer src p)))).bind Started.read := by
  have hproper := hsteps _ (List.mem_of_getElem? h.step)
  rw [arriving_recv hfn, if_pos (by rw [isRecvFrom_eq h.isCall hproper]; simp [isTransfer]),
    h.before_eq (fun j x hx => hx.isRecvFrom hsteps) fun s hs => (part_of_isTransfer hs).2]

/-- … and what there is to store is what was sent for the step. -/
theorem Calling.arriving_eq (h : Calling W steps heaps p k s past x (w p))
    (hsteps : ∀ s ∈ steps, ProperStep W.size s)
    (hall : ∀ q, ∃ k', List.Forall₂ (Made W steps heaps q) (shares W steps q k') (w q).posted)
    (hwrites : x.call.fn.writes p = true) {xs : List α}
    (harr : Nodes.arriving W w p past.length x.call = some xs) :
    (x.call.fn.reads p = true → x.read.isSome = true) ∧
      ∃ m, xs = brought W (memoryAt W steps heaps k) m p x.call s := by
  have hs := h.step
  have hcall := h.isCall
  cases s with
  | event e =>
    cases e with
    | work q κ => exact hcall.elim
    | transfer src dst sv rv =>
      obtain ⟨-, ⟨-, hfn⟩ | ⟨-, rfl, hfn⟩⟩ := hcall
      · rw [hfn, writes_mpiIsendFn] at hwrites
        cases hwrites
      · rw [h.arriving_transfer hsteps hfn] at harr
        obtain ⟨y, hy, hread⟩ := Option.bind_eq_some_iff.mp harr
        obtain ⟨k', hmade⟩ := hall src
        obtain ⟨-, hnth⟩ := nth_of_made hmade (fun j x hx => hx.isSendTo)
          (fun j => calls_of_places fun s hs => (part_of_isTransfer hs).1) (places_transfer hs)
        refine ⟨fun hr => ?_, 0, ((hnth y hy).eq_of_read hs hread).2⟩
        rw [hfn] at hr
        cases hr
  | all d =>
    have hp : p < W.size := by simpa [partOf] using h.part
    rw [arriving_all hcall.2.1, h.before_all hp] at harr
    split at harr
    · rename_i hcond
      rw [List.map_congr_left fun q hq => (hall q).elim fun k' hmade => contribution_getD hmade
        (List.mem_range.mp hq) hs hcall (hcond.2 q (List.mem_range.mp hq))] at harr
      refine ⟨fun hr => ?_, _, (Option.some.inj harr).symm⟩
      have hown := hcond.2 p hp hr
      rwa [(contribution_of_made h.made hs hcall (h.nth_eq (h.before_all hp)
        (by rw [isCollectiveOn_eq hcall]; rfl))).1] at hown
    · cases harr

/-- … and it is there when all have sent. -/
theorem Calling.exists_arriving (h : Calling W steps heaps p k s past x (w p))
    (hsteps : ∀ s ∈ steps, ProperStep W.size s)
    (hsent : ∀ q, (partOf W q s).isSome = true → Sent W steps heaps q k (w q))
    (hwrites : x.call.fn.writes p = true) :
    ∃ xs, Nodes.arriving W w p past.length x.call = some xs := by
  have hs := h.step
  have hcall := h.isCall
  cases s with
  | event e =>
    cases e with
    | work q κ => exact hcall.elim
    | transfer src dst sv rv =>
      obtain ⟨-, ⟨-, hfn⟩ | ⟨-, rfl, hfn⟩⟩ := hcall
      · rw [hfn, writes_mpiIsendFn] at hwrites
        cases hwrites
      · obtain ⟨k', hlt, hmade⟩ := hsent src (by simp [partOf])
        obtain ⟨hget, -⟩ := nth_of_made hmade (fun j x hx => hx.1.isSendTo)
          (fun j => calls_of_places fun s hs => (part_of_isTransfer hs).1) (places_transfer hs)
        obtain ⟨y, hy, hmade', hread⟩ := hget hlt
        obtain ⟨s, hs', hcall', -⟩ := hmade'
        obtain rfl : s = .event (.transfer src p sv rv) := Option.some.inj (hs'.symm.trans hs)
        have hreads : y.call.fn.reads src = true := by
          obtain ⟨-, ⟨-, hfn'⟩ | ⟨hne, -⟩⟩ := hcall'
          · rw [hfn']
            cases W.mode <;> rfl
          · exact absurd rfl hne
        obtain ⟨xs, hxs⟩ := Option.isSome_iff_exists.mp (hread rfl hreads)
        refine ⟨xs, ?_⟩
        rw [h.arriving_transfer hsteps hfn, hy, Option.bind_some, hxs]
  | all d =>
    have hp : p < W.size := by simpa [partOf] using h.part
    rw [arriving_all hcall.2.1, h.before_all hp]
    refine ⟨_, if_pos ⟨by rw [isCollectiveOn_eq hcall]; rfl, fun q hq hr => ?_⟩⟩
    exact exists_contribution (hsent q (part_of_isAll rfl hq)) hq hs hcall hr

theorem Sent.count_lt {A : Node α} (h : Sent W steps heaps q k A) {kind : MpiCall → Bool}
    {place : ParallelStep α n → Bool}
    (hkind : ∀ j x, Made W steps heaps q j x → kind x.call = places steps place j)
    (hcalls : ∀ s, place s = true → (partOf W q s).isSome = true)
    (hplace : places steps place k = true) :
    (List.range k).countP (places steps place) < A.count kind := by
  obtain ⟨k', hlt, hmade⟩ := h
  rw [Node.count, countP_of_made hmade (fun j x hx => hkind j x hx.1) fun j =>
    calls_of_places hcalls]
  exact countP_range_lt hlt hplace

/-- Nothing that MPI could wait for is missing then. -/
theorem Calling.called (h : Calling W steps heaps p k s past x (w p))
    (hsteps : ∀ s ∈ steps, ProperStep W.size s)
    (hsent : ∀ q, (partOf W q s).isSome = true → Sent W steps heaps q k (w q)) :
    x.call.fn.early W.buffers = true ∨ Nodes.Called W w p past.length x.call := by
  have hs := h.step
  have hcall := h.isCall
  cases s with
  | event e =>
    cases e with
    | work q κ => exact hcall.elim
    | transfer src dst sv rv =>
      have hne : src ≠ dst := (hsteps _ (List.mem_of_getElem? hs)).2.2.1
      obtain ⟨-, ⟨rfl, hfn⟩ | ⟨-, -, hfn⟩⟩ := hcall
      · have hlt := (hsent dst (by simp [partOf, hne])).count_lt
          (fun j x hx => hx.isRecvFrom hsteps) (fun s hs => (part_of_isTransfer hs).2)
          (places_transfer hs)
        refine .inr ?_
        unfold Nodes.Called
        rw [hfn, sendEnvelope_mpiIsendFn]
        show (w p).before (MpiCall.isSendTo W.comm dst) past.length < _
        rw [h.before_eq (fun j x hx => hx.isSendTo) fun s hs => (part_of_isTransfer hs).1]
        exact hlt
      · exact .inl (by rw [hfn]; rfl)
  | all d =>
    have hp : p < W.size := by simpa [partOf] using h.part
    refine .inr ?_
    unfold Nodes.Called
    rw [hcall.2.1, (envelopes_collectiveFn d).1]
    intro q hq
    rw [h.before_all hp]
    exact (hsent q (part_of_isAll rfl hq)).count_lt (fun j x hx => hx.isCollectiveOn)
      (fun s hs => part_of_isAll hs hq) (places_all hs)

end Arriving

/-! ## §3 What an act does -/

section Acts

variable {A A' : Node α} {r : Nat} {rest : List (Instr α)}

theorem spent_le {op : OpId} {x : Started α} : spent A op x ≤ 4 := by
  unfold spent
  split <;> split <;> split <;> decide

theorem host_call {c : AsyncCall} {call : MpiCall} {pack unpack : Heap α → Heap α}
    (hp : A.program = .call c :: rest)
    (hs : Starts c A.posted.length A.nextAlloc call pack unpack) :
    ∃ req a, A.host = .returns { A with
        program   := rest
        heap      := pack A.heap
        nextAlloc := a
        posted    := A.posted ++ [{ call := call, req := req, read := none, stored := false }] } ∧
      req.request_ = some A.posted.length ∧ A.nextAlloc ≤ a ∧ ∀ h, req.complete h = unpack h := by
  obtain ⟨req, host, hrun, hcalls, hreq, ha, htrace, hcomplete⟩ := hs
  refine ⟨req, host.nextAlloc, ?_, hreq, ha, hcomplete⟩
  simp only [Node.host, hp, hrun, Outcome.returns_bind, hcalls, htrace]

theorem host_wait {op : OpId} {x : Started α} (hp : A.program = .wait op :: rest)
    (hx : A.posted[op]? = some x) (hreq : x.req.request_ = some op) :
    A.host = if A.lib.status op = .inFlight then .blocks else .returns { A with
        program := rest
        heap    := x.req.complete A.heap
        lib     := A.lib.settle [some op] [some op]
        posted  := A.posted.set op { x with req := { request_ := none, callbacks_ := [] } } } := by
  simp only [Node.host, hp, hx, Request.wait, mpiWait, hreq, Library.done]
  by_cases hst : A.lib.status op = .inFlight
  · simp [hst]
  · simp only [bne_iff_ne, ne_eq, hst, not_false_eq_true, if_true, if_false]
    rfl

/-- Each operation is over, or the one that has been called. -/
theorem Calling.cases {past : List (Started α)} {x y : Started α} {op : OpId}
    (h : Calling W steps heaps p k s past x A) (hy : A.posted[op]? = some y) :
    op < past.length ∧ Over p y ∨ op = past.length ∧ y = x := by
  rw [h.posted] at hy
  by_cases hlt : op < past.length
  · rw [List.getElem?_append_left hlt] at hy
    exact .inl ⟨hlt, h.settled y (List.mem_of_getElem? hy)⟩
  · rw [List.getElem?_append_right (Nat.not_lt.mp hlt)] at hy
    obtain ⟨hzero, hget⟩ := List.getElem?_eq_some_iff.mp hy
    simp only [List.length_singleton] at hzero
    exact .inr ⟨Nat.le_antisymm (Nat.sub_eq_zero_iff_le.mp (Nat.lt_one_iff.mp hzero))
      (Nat.not_lt.mp hlt), by simpa using hget.symm⟩

theorem Calling.get {past : List (Started α)} {x : Started α}
    (h : Calling W steps heaps p k s past x A) : A.posted[past.length]? = some x := by
  simp [h.posted]

theorem Calling.set {past : List (Started α)} {x y : Started α}
    (h : Calling W steps heaps p k s past x A) :
    A.posted.set past.length y = past ++ [y] := by
  simp [h.posted]

theorem Calling.shares_succ {past : List (Started α)} {x : Started α}
    (h : Calling W steps heaps p k s past x A) :
    shares W steps p (k + 1) = shares W steps p k ++ [k] := by
  rw [Parallel.shares_succ, if_pos (by rw [calls_eq h.step, h.part])]

/-- The wait ends, and the step is done. -/
theorem Calling.waited {past : List (Started α)} {x : Started α}
    (h : Calling W steps heaps p k s past x A) (hst : A.lib.status past.length ≠ .inFlight) :
    Resting W steps heaps p (k + 1) { A with
      program := programAt W steps p (k + 1)
      heap    := x.req.complete A.heap
      lib     := A.lib.settle [some past.length] [some past.length]
      posted  := A.posted.set past.length
        { x with req := { request_ := none, callbacks_ := [] } } } := by
  have hover := h.done hst
  refine ⟨(List.getElem?_eq_some_iff.mp h.step).1, rfl, fun c hlt => ?_, h.alloc, ?_, ?_,
    fun op => ?_⟩
  · cases hstored : x.stored with
    | true => exact (h.stored hstored).2 c hlt
    | false =>
      have hrests : x.call.fn.writes p = false := by
        cases hw : x.call.fn.writes p with
        | true => exact absurd (hover.2 hw) (by simp [hstored])
        | false => rfl
      rw [memoryAt_succ h.step]
      exact (h.waiting hstored).rests hrests c hlt
  · rw [h.set, h.shares_succ]
    exact List.rel_append h.kept (.cons h.made .nil)
  · intro y hy
    rw [h.set, List.mem_append, List.mem_singleton] at hy
    rcases hy with hy | rfl
    · exact h.settled y hy
    · exact hover
  · rw [h.set, List.length_append, List.length_singleton]
    by_cases hop : op = past.length
    · subst hop
      simp [Library.settle]
    · simp only [Library.settle, List.mem_singleton, Option.some.injEq, if_neg hop]
      rw [h.status op hop]
      omega

/-- A process before a step of its own does the work, … -/
theorem Resting.work {κ : UserKernel α n} (h : Resting W steps heaps p k A)
    (hs : steps[k]? = some (.event (.work p κ))) :
    ∃ A', A.host = .returns A' ∧ Resting W steps heaps p (k + 1) A' := by
  have hprogram := h.program
  rw [programAt_eq hs, instrsOf_work] at hprogram
  have hcalls : calls W steps p k = false := by rw [calls_eq hs]; rfl
  have hreturns : A.host = .returns { A with
      program := programAt W steps p (k + 1)
      heap    := κ.toKernel.run A.heap } := by
    rw [Node.host, hprogram]
    rfl
  refine ⟨_, hreturns, (List.getElem?_eq_some_iff.mp hs).1, rfl, fun c hlt => ?_, h.alloc, ?_,
    h.settled, h.status⟩
  · rw [memoryAt_succ hs, ParallelStep.apply, Event.apply, Function.update_self]
    exact κ.agree h.heap hlt
  · rw [shares_succ, hcalls]
    simpa using h.made

/-- … or makes the call, of which nothing has been done then. -/
theorem Resting.call [∀ op, Std.Associative (ops op)] {c : AsyncCall}
    (hsteps : ∀ s ∈ steps, ProperStep W.size s) (h : Resting W steps heaps p k A)
    (hs : steps[k]? = some s) (hc : partOf W p s = some c) :
    ∃ A' x, A.host = .returns A' ∧ Calling W steps heaps p k s A.posted x A' ∧
      spent A' A.posted.length x = 1 := by
  obtain ⟨call, pack, unpack, hstarts, hcall, hdoing⟩ :=
    does_part (hsteps s (List.mem_of_getElem? hs)) hc A.posted.length h.alloc h.heap
  have hprogram := h.program
  rw [programAt_eq hs, instrsOf_call hc, h.made.length_eq] at hprogram
  obtain ⟨req, a, hreturns, hreq, ha, hcomplete⟩ := host_call hprogram hstarts
  obtain rfl : unpack = req.complete := funext fun h => (hcomplete h).symm
  have hfresh : A.lib.status A.posted.length = .inFlight := (h.status _).mpr le_rfl
  refine ⟨_, { call := call, req := req, read := none, stored := false }, hreturns, ?_, ?_⟩
  · exact {
      step    := hs
      part    := by rw [hc]; rfl
      program := rfl
      alloc   := Nat.le_trans h.alloc ha
      posted  := rfl
      kept    := h.made
      settled := h.settled
      made    := ⟨s, hs, hcall, .inl rfl⟩
      handle  := hreq
      waiting := fun _ => hdoing
      stored  := Bool.noConfusion
      status  := fun op hop => (h.status op).trans
        ⟨fun hle => Nat.lt_of_le_of_ne hle (Ne.symm hop), Nat.le_of_lt⟩
      done    := fun hst => absurd hfresh hst }
  · simp only [spent, Option.isSome_none, Bool.false_eq_true, if_false, hfresh, if_true]

/-- The next instruction of a process. -/
theorem At.host [∀ op, Std.Associative (ops op)] (hsteps : ∀ s ∈ steps, ProperStep W.size s)
    (h : At W steps heaps p r A) (hhost : A.host = .returns A') :
    ∃ r', r' < r ∧ At W steps heaps p r' A' := by
  cases h with
  | resting k h hr =>
    obtain ⟨k', hle, h, hend | ⟨s, hs, hpart⟩⟩ := h.next
    · rw [Node.host, h.program, hend, programAt_end (Nat.le_refl _)] at hhost
      cases hhost
    · have hlt : k' < steps.length := (List.getElem?_eq_some_iff.mp hs).1
      rcases hpart with ⟨κ, rfl⟩ | ⟨c, hc⟩
      · obtain ⟨A'', hreturns, hrest⟩ := h.work hs
        obtain rfl := Outcome.returns.inj (hreturns.symm.trans hhost)
        exact ⟨_, by omega, .resting (k' + 1) hrest rfl⟩
      · obtain ⟨A'', x, hreturns, hcalling, hspent⟩ := h.call hsteps hs hc
        obtain rfl := Outcome.returns.inj (hreturns.symm.trans hhost)
        exact ⟨5 * (steps.length - k') - 1, by omega, .calling k' s _ x hcalling (by omega)⟩
  | calling k s past x h hr =>
    rw [host_wait h.program h.get h.handle] at hhost
    split at hhost
    · cases hhost
    · rename_i hst
      cases hhost
      have hlt : k < steps.length := (List.getElem?_eq_some_iff.mp h.step).1
      have hspent : spent A past.length x ≤ 4 := spent_le
      exact ⟨_, by omega, .resting (k + 1) (h.waited hst) rfl⟩

/-- What MPI has not done yet, it has to do for the call that the process is in. -/
theorem At.calling_of_not_over {op : OpId} {x : Started α} (h : At W steps heaps p r A)
    (hx : A.posted[op]? = some x) (hnot : ¬ Over p x) :
    ∃ k s past, op = past.length ∧ Calling W steps heaps p k s past x A ∧
      A.lib.status op = .inFlight ∧ r + spent A op x = 5 * (steps.length - k) := by
  cases h with
  | resting k h hr => exact absurd (h.settled x (List.mem_of_getElem? hx)) hnot
  | calling k s past x' h hr =>
    obtain ⟨-, hover⟩ | ⟨rfl, rfl⟩ := h.cases hx
    · exact absurd hover hnot
    · refine ⟨k, s, past, rfl, h, ?_, hr⟩
      by_contra hst
      exact hnot (h.done hst)

/-- MPI reads a buffer, … -/
theorem At.read {op : OpId} {x : Started α} (h : At W steps heaps p r A)
    (hx : A.posted[op]? = some x) (hunread : x.read = none) (hreads : x.call.fn.reads p = true) :
    ∃ r', r' < r ∧ At W steps heaps p r' { A with
      posted := A.posted.set op
        { x with read := some (Memory.gather A.heap (x.call.sent W.size)) } } := by
  have hnot : ¬ Over p x := fun hover => by
    have := hover.1 hreads
    simp [hunread] at this
  obtain ⟨k, s, past, rfl, h, hst, hr⟩ := h.calling_of_not_over hx hnot
  have hstored : x.stored = false := by
    cases hs : x.stored with
    | true => simpa [hunread] using (h.stored hs).1 hreads
    | false => rfl
  have hdoing := h.waiting hstored
  have hlt : k < steps.length := (List.getElem?_eq_some_iff.mp h.step).1
  have hcalling : Calling W steps heaps p k s past
      { x with read := some (Memory.gather A.heap (x.call.sent W.size)) }
      { A with
        posted := A.posted.set past.length
          { x with read := some (Memory.gather A.heap (x.call.sent W.size)) } } :=
    { h with
      posted  := h.set
      made    := ⟨s, h.step, h.isCall, .inr ⟨hreads, congrArg some (hdoing.reads hreads)⟩⟩
      waiting := fun _ => hdoing
      stored  := fun hs => absurd hs (by simp [hstored])
      done    := fun hdone => absurd hst hdone }
  have hspent := @spent_le α A past.length x
  refine ⟨r - 1, by omega, .calling k s past _ hcalling ?_⟩
  simp only [spent, hunread, Option.isSome_none, Option.isSome_some, Bool.false_eq_true,
    if_false, if_true, hstored, hst] at hr hspent ⊢
  omega

/-- … stores what has been sent, … -/
theorem At.store {w : Nodes α} {op : OpId} {x : Started α} {xs : List α}
    (hsteps : ∀ s ∈ steps, ProperStep W.size s)
    (hall : ∀ q, ∃ k', List.Forall₂ (Made W steps heaps q) (shares W steps q k') (w q).posted)
    (h : At W steps heaps p r (w p)) (hx : (w p).posted[op]? = some x)
    (hunstored : x.stored = false) (hwrites : x.call.fn.writes p = true)
    (harr : Nodes.arriving W w p op x.call = some xs) :
    ∃ r', r' < r ∧ At W steps heaps p r' { w p with
      heap   := Memory.scatter (w p).heap (x.call.received W.size) xs
      posted := (w p).posted.set op { x with stored := true } } := by
  have hnot : ¬ Over p x := fun hover => by
    have := hover.2 hwrites
    simp [hunstored] at this
  obtain ⟨k, s, past, rfl, h, hst, hr⟩ := h.calling_of_not_over hx hnot
  obtain ⟨hread, m, rfl⟩ := h.arriving_eq hsteps hall hwrites harr
  have hdoing := h.waiting hunstored
  have hlt : k < steps.length := (List.getElem?_eq_some_iff.mp h.step).1
  have hcalling : Calling W steps heaps p k s past { x with stored := true }
      { w p with
        heap   := Memory.scatter (w p).heap (x.call.received W.size)
          (brought W (memoryAt W steps heaps k) m p x.call s)
        posted := (w p).posted.set past.length { x with stored := true } } :=
    { h with
      posted  := h.set
      waiting := Bool.noConfusion
      stored  := fun _ => ⟨hread, fun c hlt => by
        rw [memoryAt_succ h.step]
        exact hdoing.writes hwrites m c hlt⟩
      done    := fun hdone => absurd hst hdone }
  have hspent := @spent_le α (w p) past.length x
  refine ⟨r - 1, by omega, .calling k s past _ hcalling ?_⟩
  simp only [spent, hunstored, Bool.false_eq_true, if_false, if_true, hst] at hr hspent ⊢
  omega

/-- … or completes an operation. -/
theorem At.finish {op : OpId} {x : Started α} (h : At W steps heaps p r A)
    (hx : A.posted[op]? = some x) (hst : A.lib.status op = .inFlight) (hover : Over p x) :
    ∃ r', r' < r ∧ At W steps heaps p r' { A with lib := A.lib.finish op } := by
  have hlen : op < A.posted.length := (List.getElem?_eq_some_iff.mp hx).1
  cases h with
  | resting k h hr => exact absurd ((h.status op).mp hst) (Nat.not_le.mpr hlen)
  | calling k s past x' h hr =>
    obtain ⟨hlt, -⟩ | ⟨rfl, rfl⟩ := h.cases hx
    · exact absurd ((h.status op (Nat.ne_of_lt hlt)).mp hst) (Nat.lt_asymm hlt)
    · have hcalling : Calling W steps heaps p k s past x
          { A with lib := A.lib.finish past.length } :=
        { h with
          status := fun op hop => by
            rw [← h.status op hop]
            simp only [Library.finish, Function.update_of_ne hop]
          done   := fun _ => hover }
      have hlt : k < steps.length := (List.getElem?_eq_some_iff.mp h.step).1
      have hspent := @spent_le α A past.length x
      refine ⟨r - 1, by omega, .calling k s past _ hcalling ?_⟩
      simp only [spent, Library.finish, Function.update_self, reduceCtorEq, if_false, if_true,
        hst] at hr hspent ⊢
      omega

end Acts

/-! ## §4 Whole runs -/

section Steps

variable {w w' : Nodes α} {act : Act}

/-- All that can happen in a step. -/
theorem step_cases (h : Nodes.step W w act = some w') : ∃ p A', w' = Function.update w p A' ∧
    ((w p).host = .returns A' ∨ ∃ op x, (w p).posted[op]? = some x ∧
      (x.read = none ∧ x.call.fn.reads p = true ∧ A' = { w p with
          posted := (w p).posted.set op
            { x with read := some (Memory.gather (w p).heap (x.call.sent W.size)) } } ∨
        (∃ xs, x.stored = false ∧ x.call.fn.writes p = true ∧
          Nodes.arriving W w p op x.call = some xs ∧ A' = { w p with
            heap   := Memory.scatter (w p).heap (x.call.received W.size) xs
            posted := (w p).posted.set op { x with stored := true } }) ∨
        (w p).lib.status op = .inFlight ∧ Over p x ∧
          A' = { w p with lib := (w p).lib.finish op })) := by
  obtain ⟨u, hu, rfl⟩ : ∃ u, Nodes.perform W w act = .returns u ∧ u = w' := by
    rw [Nodes.step] at h
    cases hp : Nodes.perform W w act with
    | returns u =>
      rw [hp] at h
      exact ⟨u, rfl, Option.some.inj h⟩
    | _ =>
      rw [hp] at h
      cases h
  cases act with
  | host p =>
    obtain ⟨A', hA, hret⟩ := Outcome.bind_eq_returns.mp hu
    exact ⟨p, A', (Outcome.returns.inj hret).symm, .inl hA⟩
  | read p op =>
    rw [Nodes.perform] at hu
    split at hu
    · rename_i x hx
      split at hu
      · rename_i hcond
        exact ⟨p, _, (Outcome.returns.inj hu).symm, .inr ⟨op, x, hx, .inl
          ⟨Option.isNone_iff_eq_none.mp hcond.1, hcond.2, rfl⟩⟩⟩
      · cases hu
    · cases hu
  | store p op =>
    rw [Nodes.perform] at hu
    split at hu
    · rename_i x hx
      split at hu
      · rename_i hcond
        split at hu
        · rename_i xs hxs
          split at hu
          · exact ⟨p, _, (Outcome.returns.inj hu).symm, .inr ⟨op, x, hx, .inr (.inl
              ⟨xs, hcond.1, hcond.2, hxs, rfl⟩)⟩⟩
          · cases hu
        · cases hu
      · cases hu
    · cases hu
  | finish p op =>
    rw [Nodes.perform] at hu
    split at hu
    · rename_i x hx
      split at hu
      · rename_i hcond
        exact ⟨p, _, (Outcome.returns.inj hu).symm, .inr ⟨op, x, hx, .inr (.inr
          ⟨hcond.1, ⟨hcond.2.1, hcond.2.2.1⟩, rfl⟩)⟩⟩
      · cases hu
    · cases hu

end Steps

theorem At.made {A : Node α} {r : Nat} (h : At W steps heaps p r A) :
    ∃ k', List.Forall₂ (Made W steps heaps p) (shares W steps p k') A.posted := by
  cases h with
  | resting k h hr => exact ⟨k, h.made⟩
  | calling k s past x h hr =>
    refine ⟨k + 1, ?_⟩
    rw [h.posted, h.shares_succ]
    exact List.rel_append h.kept (.cons h.made .nil)

variable (W steps heaps) in
/-- All processes are somewhere, with at most `R` acts left. -/
def Within (w : Nodes α) (R : Nat) : Prop :=
  ∃ r : Nat → Nat, (∀ p, At W steps heaps p (r p) (w p)) ∧ (∀ p, W.size ≤ p → r p = 0) ∧
    R = ∑ p ∈ Finset.range W.size, r p

/-- Only the processes of the communicator have something to do. -/
theorem lt_size_of_part (hs : ProperStep W.size s)
    (hpart : (∃ κ, s = .event (.work p κ)) ∨ ∃ c, partOf W p s = some c) : p < W.size := by
  rcases hpart with ⟨κ, rfl⟩ | ⟨c, hc⟩
  · exact hs
  · cases s with
    | event e =>
      cases e with
      | work q κ => cases hc
      | transfer src dst sv rv =>
        rw [partOf] at hc
        by_cases hsrc : src = p
        · exact hsrc ▸ hs.1
        · by_cases hdst : dst = p
          · exact hdst ▸ hs.2.1
          · simp [hsrc, hdst] at hc
    | all d =>
      obtain ⟨hp, -⟩ : p < W.size ∧ _ := by simpa [partOf] using hc
      exact hp

theorem resting_start (p : Nat) : Resting W steps heaps p 0
    (.start (parallelPrograms W steps p) (heaps p) n) :=
  ⟨Nat.zero_le _, rfl, fun _ _ => rfl, Nat.le_refl n, .nil, fun _ hx => absurd hx List.not_mem_nil,
    fun _ => ⟨fun _ => Nat.zero_le _, fun _ => rfl⟩⟩

theorem within_start (hsteps : ∀ s ∈ steps, ProperStep W.size s) :
    Within W steps heaps (.start (parallelPrograms W steps) heaps n)
      (5 * W.size * steps.length) := by
  refine ⟨fun p => if p < W.size then 5 * steps.length else 0, fun p => ?_,
    fun p hp => if_neg (Nat.not_lt.mpr hp), ?_⟩
  · have hstart : Resting W steps heaps p 0 (.start (parallelPrograms W steps p) (heaps p) n) :=
      resting_start p
    show At W steps heaps p (if p < W.size then 5 * steps.length else 0) _
    by_cases hp : p < W.size
    · rw [if_pos hp]
      exact .resting 0 hstart rfl
    · rw [if_neg hp]
      obtain ⟨k', -, hrest, hend | ⟨s, hs, hpart⟩⟩ := hstart.next
      · exact .resting k' hrest (by rw [hend, Nat.sub_self])
      · exact absurd (lt_size_of_part (hsteps s (List.mem_of_getElem? hs)) hpart) hp
  · rw [Finset.sum_const_nat fun p hp => if_pos (Finset.mem_range.mp hp), Finset.card_range,
      Nat.mul_assoc, Nat.mul_left_comm]

/-- Each step brings a process closer to its end. -/
theorem Within.step [∀ op, Std.Associative (ops op)] {w w' : Nodes α} {R : Nat} {act : Act}
    (hsteps : ∀ s ∈ steps, ProperStep W.size s) (h : Within W steps heaps w R)
    (hstep : Nodes.step W w act = some w') : ∃ R', R' < R ∧ Within W steps heaps w' R' := by
  obtain ⟨r, hat, hsize, rfl⟩ := h
  obtain ⟨p, A', rfl, hcases⟩ := step_cases hstep
  obtain ⟨r', hlt, hat'⟩ : ∃ r', r' < r p ∧ At W steps heaps p r' A' := by
    rcases hcases with hhost | ⟨op, x, hx, ⟨hread, hreads, rfl⟩ |
      ⟨xs, hstored, hwrites, harr, rfl⟩ | ⟨hst, hover, rfl⟩⟩
    · exact (hat p).host hsteps hhost
    · exact (hat p).read hx hread hreads
    · exact (hat p).store hsteps (fun q => (hat q).made) hx hstored hwrites harr
    · exact (hat p).finish hx hst hover
  have hp : p < W.size := by
    by_contra hp
    rw [hsize p (Nat.not_lt.mp hp)] at hlt
    exact Nat.not_lt_zero _ hlt
  refine ⟨_, ?_, Function.update r p r', fun q => ?_, fun q hq => ?_, rfl⟩
  · refine Finset.sum_lt_sum (fun q _ => ?_) ⟨p, Finset.mem_range.mpr hp, by simpa using hlt⟩
    by_cases hq : q = p
    · subst hq
      simpa using Nat.le_of_lt hlt
    · rw [Function.update_of_ne hq]
  · by_cases hq : q = p
    · subst hq
      simpa using hat'
    · rw [Function.update_of_ne hq, Function.update_of_ne hq]
      exact hat q
  · rw [Function.update_of_ne (by rintro rfl; omega)]
    exact hsize q hq


end Runs

end KokkosComm.Mpi.Parallel
