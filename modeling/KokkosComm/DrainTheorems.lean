/-
KokkosComm.DrainTheorems — `wait_any` does not remember what it returned.

NCCL: a completed request keeps its event, the event keeps answering
`cudaSuccess`, and `wait_any` has no case for "all requests visited": on a
span that is not empty it never returns `nullopt`.

MPI: `MPI_Waitany` nulls the handle in the local copy only. The requests
keep all their handles, so some handle is passed in every call, and
`MPI_UNDEFINED` does not come (or comes in the first call, when the size
of the span converts to 0).

So the loop that drains a span visits every request once exactly when
there is none (`drainsOnce_iff`).
-/
import KokkosComm.Drain

namespace KokkosComm

/-! ## NCCL -/

namespace Nccl

variable {κ : Type}

theorem waitAnyPass_length {r : Nat} {requests : List (Request κ)} {c : Cuda κ}
    {out : Option Int × List (Request κ) × Cuda κ}
    (h : waitAnyPass r requests c = .returns out) : out.2.1.length = requests.length := by
  induction requests generalizing r c out with
  | nil =>
    cases h
    rfl
  | cons req rest ih =>
    simp only [waitAnyPass] at h
    split at h
    · cases h
      rfl
    · obtain ⟨p, hp, h⟩ := Outcome.bind_eq_returns.mp h
      cases h
      simp [ih hp]
    · obtain ⟨-, -, h⟩ := Outcome.bind_eq_returns.mp h
      obtain ⟨p, hp, h⟩ := Outcome.bind_eq_returns.mp h
      cases h
      simp [ih hp]

/-- The polling loop is left with an index only. -/
theorem waitAnyLoop_returns {passes : Nat} {requests : List (Request κ)} {c : Cuda κ}
    {out : Option Int × List (Request κ) × Cuda κ}
    (h : waitAnyLoop passes requests c = .returns out) :
    out.1 ≠ none ∧ out.2.1.length = requests.length := by
  induction passes generalizing requests c with
  | zero => cases h
  | succ passes ih =>
    obtain ⟨⟨found, reqs, c'⟩, hpass, h⟩ := Outcome.bind_eq_returns.mp h
    have hlen := waitAnyPass_length hpass
    cases found with
    | some i =>
      cases h
      exact ⟨nofun, hlen⟩
    | none =>
      obtain ⟨hne, hlen'⟩ := ih h
      exact ⟨hne, hlen'.trans hlen⟩

/-- On a span with a request, `wait_any` never returns `nullopt`. -/
theorem drainCall_returns {passes : Nat} {s : List (Request κ) × Cuda κ}
    {out : Option Int × List κ × (List (Request κ) × Cuda κ)} (hs : s.1 ≠ [])
    (h : drainCall passes s = .returns out) : out.1 ≠ none ∧ out.2.2.1 ≠ [] := by
  obtain ⟨p, hp, h⟩ := Outcome.bind_eq_returns.mp h
  unfold waitAny at hp
  rw [if_neg (by simpa using hs)] at hp
  obtain ⟨hne, hlen⟩ := waitAnyLoop_returns hp
  cases h
  refine ⟨hne, fun hnil => hs (List.eq_nil_of_length_eq_zero ?_)⟩
  rw [← hlen, show p.2.1 = [] from hnil]
  rfl

theorem not_drainsOnce {s : CapturedSpan κ} (hs : s.requests ≠ []) (k : EventId → Nat) :
    ¬ DrainsOnce s k := by
  rintro ⟨passes, fuel, log, h, -⟩
  exact drain_ne_returns (P := fun s => s.1 ≠ [])
    (fun _ _ hne hcall => drainCall_returns hne hcall) fuel hs log h

theorem drainsOnce_of_nil {s : CapturedSpan κ} (hs : s.requests = []) (k : EventId → Nat) :
    DrainsOnce s k := by
  refine ⟨0, 1, [(none, [])], ?_, ?_⟩
  · simp [drain, drainCall, waitAny, hs, Cuda.scheduled]
  · exact ⟨by simp [hs], by simp, by simp, by simp⟩

end Nccl

/-! ## MPI -/

namespace Mpi

variable {κ : Type}

/-- The handles `handles` are still those of the requests. -/
def HoldsHandles (handles : List MpiRequest) (s : Nat × List (Request κ) × Library) : Prop :=
  s.2.1.map Request.request_ = handles

theorem waitAny_keeps_handles {requests : List (Request κ)} {pick : Nat} {m : Library}
    {out : Option Int × List κ × List (Request κ) × Library}
    (h : waitAny requests pick m = .returns out) :
    out.2.2.1.map Request.request_ = requests.map Request.request_ := by
  rcases waitAny_eq_returns h with ⟨-, rfl⟩ | ⟨op, req, -, -, hreq, -, rfl⟩
  · rfl
  · rw [List.map_set]
    refine List.ext_getElem? fun i => ?_
    by_cases hi : pick = i
    · subst hi
      obtain ⟨hlt, heq⟩ := List.getElem?_eq_some_iff.mp hreq
      simp [hlt, heq]
    · rw [List.getElem?_set_ne hi]

/-- With a handle to pass, `wait_any` returns an index and leaves all
handles where they are. -/
theorem drainCall_returns {policy : StalePolicy} {schedule : Nat → List OpId × Nat}
    {handles : List MpiRequest} (hpass : ∃ q ∈ handles.take (CInt.ofSize handles.length).toNat,
      q ≠ none) {s : Nat × List (Request κ) × Library}
    {out : Option Int × List κ × (Nat × List (Request κ) × Library)}
    (hs : HoldsHandles handles s) (h : drainCall policy schedule s = .returns out) :
    out.1 ≠ none ∧ HoldsHandles handles out.2.2 := by
  obtain ⟨k, requests, m⟩ := s
  obtain ⟨⟨i, ran, reqs, m'⟩, hcall, h⟩ := Outcome.bind_eq_returns.mp h
  have hkeep := waitAny_keeps_handles hcall
  dsimp only at h hkeep
  split at h
  · cases h
  · cases h
    refine ⟨?_, hkeep.trans hs⟩
    rcases waitAny_eq_returns hcall with ⟨hnull, hout⟩ | ⟨op, req, -, -, -, -, hout⟩
    · obtain ⟨q, hq, hne⟩ := hpass
      have hhandles : passedHandles requests = handles.take (CInt.ofSize handles.length).toNat := by
        rw [← show requests.map Request.request_ = handles from hs]
        simp [passedHandles]
      rw [hhandles] at hnull
      have := List.all_eq_true.mp hnull q hq
      rw [Option.isNone_iff_eq_none] at this
      exact absurd this hne
    · cases hout
      simp

theorem not_drainsOnce {s : ActiveSpan κ} (hs : s.requests ≠ []) (policy : StalePolicy)
    (schedule : Nat → List OpId × Nat) : ¬ DrainsOnce policy s schedule := by
  rintro ⟨fuel, log, h, hvisits⟩
  have hlen : s.ops.length = s.requests.length := by
    simpa using (congrArg List.length s.active).symm
  by_cases hcount : 0 < CInt.ofSize s.requests.length
  · -- some handle is passed in every call
    refine drain_ne_returns (P := HoldsHandles (s.requests.map Request.request_))
      (fun _ _ hP hcall => drainCall_returns ?_ hP hcall) fuel
      (s := (0, s.requests, Library.active)) rfl log h
    obtain ⟨op, ops, hops⟩ := List.exists_cons_of_ne_nil
      (List.ne_nil_of_length_pos (by rw [hlen]; exact List.length_pos_of_ne_nil hs))
    obtain ⟨c, hc⟩ : ∃ c, (CInt.ofSize s.requests.length).toNat = c + 1 :=
      ⟨_, (Nat.succ_pred_eq_of_pos (by omega)).symm⟩
    refine ⟨some op, ?_, nofun⟩
    rw [List.length_map, hc, s.active, hops]
    simp
  · -- MPI rejects the count, or looks at no handle at all
    cases fuel with
    | zero => cases h
    | succ fuel =>
      obtain ⟨⟨i, ran, s'⟩, hone, h⟩ := Outcome.bind_eq_returns.mp h
      obtain ⟨⟨i', ran', reqs, m'⟩, hcall, hone⟩ := Outcome.bind_eq_returns.mp hone
      have hpassed : passedHandles s.requests = [] := by
        rw [passedHandles, show (CInt.ofSize s.requests.length).toNat = 0 by omega]
        rfl
      rcases waitAny_eq_returns hcall with ⟨-, hout⟩ | ⟨op, req, hpick, -⟩
      · cases hout
        dsimp only at hone
        split at hone
        · cases hone
        · cases hone
          cases h
          have hcalls := hvisits.calls
          simp at hcalls
          exact hs hcalls
      · rw [hpassed] at hpick
        cases hpick

theorem drainsOnce_of_nil {s : ActiveSpan κ} (hs : s.requests = []) (policy : StalePolicy)
    (schedule : Nat → List OpId × Nat) : DrainsOnce policy s schedule := by
  refine ⟨1, [(none, [])], ?_, ?_⟩
  · simp [drain, drainCall, waitAny, hs, Library.completed, Library.active]
  · exact ⟨by simp [hs], by simp, by simp, by simp⟩

end Mpi

/-- **Draining**: for both request types, and whatever the order of
completion, the loop over `wait_any` visits each request of a span once
and ends exactly when the span is empty. -/
theorem drainsOnce_iff (κ : Type) :
    (∀ (s : Nccl.CapturedSpan κ) (k : Nccl.EventId → Nat),
      Nccl.DrainsOnce s k ↔ s.requests = []) ∧
    (∀ (policy : Mpi.StalePolicy) (s : Mpi.ActiveSpan κ) (schedule : Nat → List Mpi.OpId × Nat),
      Mpi.DrainsOnce policy s schedule ↔ s.requests = []) := by
  constructor
  · intro s k
    refine ⟨fun h => ?_, fun h => Nccl.drainsOnce_of_nil h k⟩
    by_contra hs
    exact Nccl.not_drainsOnce hs k h
  · intro policy s schedule
    refine ⟨fun h => ?_, fun h => Mpi.drainsOnce_of_nil h policy schedule⟩
    by_contra hs
    exact Mpi.not_drainsOnce hs policy schedule h

/-- One request whose operation completes before the first call: neither
implementation ever tells the loop to stop. -/
theorem single_request_never_drained :
    (¬ ∀ (s : Nccl.CapturedSpan Nat) (k : Nccl.EventId → Nat), Nccl.DrainsOnce s k) ∧
    (¬ ∀ (s : Mpi.ActiveSpan Nat) (schedule : Nat → List Mpi.OpId × Nat),
      Mpi.DrainsOnce .reportedAgain s schedule) := by
  constructor
  · intro h
    exact Nccl.not_drainsOnce (by simp) _ (h
      { requests := [⟨some 0, [10]⟩], events := [0], captured := rfl, distinct := by decide }
      fun _ => 0)
  · intro h
    exact Mpi.not_drainsOnce (by simp) _ _ (h
      { requests := [⟨some 0, [10]⟩], ops := [0], active := rfl, distinct := by decide }
      fun _ => ([0], 0))

end KokkosComm
