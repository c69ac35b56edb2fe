/-
KokkosComm.Mpi.RequestTheorems — what a completion call that returns has
done, one theorem for each member and free function of `mpi/request.hpp`.

`passedHandles` are the handles a span operation hands to MPI: the size of
the span is converted to an `int`, and MPI looks at as many handles as that
count says. `wait_all` runs the callbacks of ALL requests of the span.
-/
import Mathlib.Data.List.ReduceOption
import KokkosComm.Mpi.Request

namespace KokkosComm.Mpi

variable {κ : Type} {m : Library}

/-! ## The library -/

theorem Library.done_iff {op : OpId} : m.done (some op) = true ↔ m.status op ≠ .inFlight := by
  simp [Library.done]

@[simp] theorem Library.settle_nil : m.settle [] [] = m := by
  simp [Library.settle]

theorem Library.settle_status_of_mem {passed reported : List MpiRequest} {op : OpId}
    (h : some op ∈ reported) : (m.settle passed reported).status op = .released := if_pos h

theorem Library.settle_status_of_not_mem {passed reported : List MpiRequest} {op : OpId}
    (h : some op ∉ reported) : (m.settle passed reported).status op = m.status op := if_neg h

theorem Library.settle_status_released {passed reported : List MpiRequest} {op : OpId}
    (h : m.status op = .released) : (m.settle passed reported).status op = .released := by
  by_cases hr : some op ∈ reported
  · exact settle_status_of_mem hr
  · rwa [settle_status_of_not_mem hr]

/-- A completion call never puts an operation back in flight. -/
theorem Library.settle_status_ne_inFlight {passed reported : List MpiRequest} {op : OpId}
    (h : m.status op ≠ .inFlight) : (m.settle passed reported).status op ≠ .inFlight := by
  by_cases hr : some op ∈ reported
  · rw [settle_status_of_mem hr]
    nofun
  · rwa [settle_status_of_not_mem hr]

/-- What is in flight after the call was in flight before. -/
theorem Library.inFlight_of_settle {passed reported : List MpiRequest} {op : OpId}
    (h : (m.settle passed reported).status op = .inFlight) :
    m.status op = .inFlight ∧ some op ∉ reported := by
  by_cases hr : some op ∈ reported
  · rw [settle_status_of_mem hr] at h
    cases h
  · rw [settle_status_of_not_mem hr] at h
    exact ⟨h, hr⟩

@[simp] theorem Library.finish_stale (op : OpId) : (m.finish op).stale = m.stale := rfl

@[simp] theorem Library.finish_status_self (op : OpId) : (m.finish op).status op = .complete :=
  Function.update_self ..

theorem Library.finish_status_of_ne {op op' : OpId} (h : op' ≠ op) :
    (m.finish op).status op' = m.status op' := Function.update_of_ne h ..

/-- What is released after an operation completed was released before. -/
theorem Library.released_of_finish {op op' : OpId} (h : (m.finish op).status op' = .released) :
    m.status op' = .released := by
  by_cases heq : op' = op
  · subst heq
    simp at h
  · rwa [finish_status_of_ne heq] at h

/-! ## One request -/

theorem Request.wait_eq_returns {r : Request κ} {out : List κ × Request κ × Library}
    (h : r.wait m = .returns out) :
    m.done r.request_ = true ∧ out = (r.callbacks_, { request_ := none, callbacks_ := [] },
      m.settle [r.request_] [r.request_]) := by
  unfold Request.wait mpiWait at h
  cases hd : m.done r.request_ with
  | false => simp [hd] at h
  | true =>
    rw [hd] at h
    cases h
    exact ⟨rfl, rfl⟩

theorem Request.test_eq_returns {r : Request κ} {out : Bool × List κ × Request κ × Library}
    (h : r.test m = .returns out) :
    (m.done r.request_ = true ∧ out = (true, r.callbacks_,
        { request_ := none, callbacks_ := [] }, m.settle [r.request_] [r.request_])) ∨
      (m.done r.request_ = false ∧ out = (false, [], r, m.settle [r.request_] [])) := by
  unfold Request.test mpiTest at h
  cases hd : m.done r.request_ with
  | false =>
    rw [hd] at h
    cases h
    exact .inr ⟨rfl, rfl⟩
  | true =>
    rw [hd] at h
    cases h
    exact .inl ⟨rfl, rfl⟩

/-! ## Spans -/

/-- The elements of a span, when there is one at each place. -/
theorem filterMap_getElem? {α β : Type} {f : α → Option β} {l : List α}
    (h : ∀ a ∈ l, (f a).isSome) (i : Nat) : (l.filterMap f)[i]? = l[i]?.bind f := by
  induction l generalizing i with
  | nil => simp
  | cons a l ih =>
    obtain ⟨b, hb⟩ := Option.isSome_iff_exists.mp (h a (by simp))
    rw [List.filterMap_cons_some hb]
    cases i with
    | zero => simp [hb]
    | succ i => simpa using ih (fun c hc => h c (by simp [hc])) i

theorem length_filterMap_of_isSome {α β : Type} {f : α → Option β} {l : List α}
    (h : ∀ a ∈ l, (f a).isSome) : (l.filterMap f).length = l.length := by
  induction l with
  | nil => rfl
  | cons a l ih =>
    obtain ⟨b, hb⟩ := Option.isSome_iff_exists.mp (h a (by simp))
    rw [List.filterMap_cons_some hb, List.length_cons, List.length_cons,
      ih fun c hc => h c (by simp [hc])]

/-- The handles of a span that MPI looks at. -/
def passedHandles (requests : List (Request κ)) : List MpiRequest :=
  (requests.map Request.request_).take (CInt.ofSize requests.length).toNat

theorem waitAll_eq_returns {requests : List (Request κ)}
    {out : List κ × List (Request κ) × Library} (h : waitAll requests m = .returns out) :
    0 ≤ CInt.ofSize requests.length ∧ (passedHandles requests).all m.done = true ∧
      out = (requests.flatMap Request.callbacks_,
        requests.map fun r => { r with callbacks_ := [] },
        m.settle (passedHandles requests) (passedHandles requests)) := by
  unfold waitAll at h
  by_cases hnil : requests = []
  · subst hnil
    cases h
    simp [passedHandles]
  · rw [if_neg (by simpa using hnil)] at h
    obtain ⟨⟨err, arr, lib⟩, hmpi, h⟩ := Outcome.bind_eq_returns.mp h
    unfold mpiWaitall at hmpi
    rw [List.length_map] at hmpi
    split at hmpi
    · cases hmpi
      cases (show Outcome.aborts = .returns out from h)
    · rename_i hcount
      dsimp only at hmpi
      split at hmpi
      · rename_i hall
        cases hmpi
        simp only [bne_self_eq_false, failIf_false, Outcome.returns_bind,
          Outcome.returns.injEq] at h
        refine ⟨Int.not_lt.mp hcount, hall, ?_⟩
        rw [← h, List.flatMap_map, List.map_map]
        rfl
      · cases hmpi

/-- `wait_all` returns once the operations MPI looks at are over. -/
theorem waitAll_returns {requests : List (Request κ)} (hcount : 0 ≤ CInt.ofSize requests.length)
    (hall : (passedHandles requests).all m.done = true) :
    ∃ out, waitAll requests m = .returns out := by
  unfold waitAll mpiWaitall
  unfold passedHandles at hall
  split
  · exact ⟨_, rfl⟩
  · dsimp only
    rw [List.length_map, if_neg (Int.not_lt.mpr hcount), if_pos hall]
    exact ⟨_, rfl⟩

/-- `wait_any` finds only null handles, or completes the one it returns. -/
theorem waitAny_eq_returns {requests : List (Request κ)} {pick : Nat}
    {out : Option Int × List κ × List (Request κ) × Library}
    (h : waitAny requests pick m = .returns out) :
    ((passedHandles requests).all Option.isNone = true ∧ out = (none, [], requests, m)) ∨
      ∃ op req, (passedHandles requests)[pick]? = some (some op) ∧ m.done (some op) = true ∧
        requests[pick]? = some req ∧ req.request_ = some op ∧
        out = (some (pick : Int), req.callbacks_,
          requests.set pick { req with callbacks_ := [] },
          m.settle (passedHandles requests) [some op]) := by
  unfold waitAny at h
  by_cases hnil : requests = []
  · subst hnil
    cases h
    simp [passedHandles]
  · rw [if_neg (by simpa using hnil)] at h
    obtain ⟨⟨err, idx, arr, lib⟩, hmpi, h⟩ := Outcome.bind_eq_returns.mp h
    unfold mpiWaitany at hmpi
    rw [List.length_map] at hmpi
    split at hmpi
    · cases hmpi
      cases (show Outcome.aborts = .returns out from h)
    dsimp only at hmpi
    split at hmpi
    · rename_i hall
      cases hmpi
      simp only [bne_self_eq_false, failIf_false, Outcome.returns_bind,
        Outcome.returns.injEq] at h
      exact .inl ⟨hall, h.symm⟩
    split at hmpi
    · rename_i op hpick
      split at hmpi
      · rename_i hdone
        cases hmpi
        simp only [bne_self_eq_false, failIf_false, Outcome.returns_bind] at h
        split at h
        · cases h
        · rename_i req hreq
          have hop : req.request_ = some op := by
            rw [List.getElem?_take] at hpick
            split at hpick
            · simpa [hreq] using hpick
            · cases hpick
          simp only [Request.executeAllCallbacks, Outcome.returns.injEq] at h
          exact .inr ⟨op, req, hpick, hdone, hreq, hop, h.symm⟩
      · cases hmpi
    · cases hmpi

end KokkosComm.Mpi
