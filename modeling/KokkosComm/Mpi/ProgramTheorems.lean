/-
KokkosComm.Mpi.ProgramTheorems — what each call does to a program state.

§1 the requests of a span, by position.
§2 `execute`, the common effect of the completing calls: a new library
   state, and the callbacks of some objects run and cleared.
§3 one inversion theorem for each call. Everything later sections prove of
   runs they prove from these, never from `perform`.
-/
import KokkosComm.Mpi.Program
import KokkosComm.Mpi.RequestTheorems
import KokkosComm.Mpi.RoutinesTheorems

namespace KokkosComm.Mpi

namespace Program

variable {w w' : Program} {ret : Ret}

theorem step_eq_some {a : Op} : w.step a = some w' ↔ ∃ ret, w.perform a = .returns (ret, w') := by
  simp [step, Option.map_eq_some_iff]

theorem start_objs_eq_some {n : Nat} {r : ObjId} {o : Object}
    (h : (start n).objs r = some o) : r < n ∧ o = .wrap r (some r) := by
  simp only [start] at h
  split at h
  · rename_i hr
    cases h
    exact ⟨hr, rfl⟩
  · cases h

@[simp] theorem set_objs_self (w : Program) (r : ObjId) (v : Option Object) :
    (w.set r v).objs r = v := Function.update_self ..

theorem set_objs_of_ne {r r' : ObjId} (h : r' ≠ r) (v : Option Object) :
    (w.set r v).objs r' = w.objs r' := Function.update_of_ne h ..

/-! ## §1 Spans -/

/-- The handles of a span that MPI looks at. -/
def passed (w : Program) (span : List ObjId) : List MpiRequest := passedHandles (w.requests span)

theorem IsSpan.requests_getElem? {span : List ObjId} (h : w.IsSpan span) (i : Nat) :
    (w.requests span)[i]? = span[i]?.bind fun r => (w.objs r).map Object.req := by
  rw [requests, List.getElem?_map, filterMap_getElem? h.2]
  cases span[i]? <;> rfl

@[simp] theorem IsSpan.length_requests {span : List ObjId} (h : w.IsSpan span) :
    (w.requests span).length = span.length := by
  rw [requests, List.length_map, length_filterMap_of_isSome h.2]

theorem IsSpan.of_requests_getElem? {span : List ObjId} (h : w.IsSpan span) {i : Nat}
    {req : Request Entry} (hi : (w.requests span)[i]? = some req) :
    ∃ r o, span[i]? = some r ∧ w.objs r = some o ∧ o.req = req := by
  rw [h.requests_getElem?] at hi
  obtain ⟨r, hr, ho⟩ := Option.bind_eq_some_iff.mp hi
  obtain ⟨o, hobj, rfl⟩ := Option.map_eq_some_iff.mp ho
  exact ⟨r, o, hr, hobj, rfl⟩

/-- A handle that is passed belongs to an object of the span. -/
theorem IsSpan.mem_passed {span : List ObjId} (h : w.IsSpan span) {q : MpiRequest}
    (hq : q ∈ w.passed span) : ∃ r ∈ span, ∃ o, w.objs r = some o ∧ o.req.request_ = q := by
  obtain ⟨req, hreq, rfl⟩ := List.mem_map.mp (List.mem_of_mem_take hq)
  obtain ⟨i, hi⟩ := List.mem_iff_getElem?.mp hreq
  obtain ⟨r, o, hr, ho, rfl⟩ := h.of_requests_getElem? hi
  exact ⟨r, List.mem_of_getElem? hr, o, ho, rfl⟩

/-- The objects of a span that MPI does not look at: those from the
position on that the size of the span, as an `int`, gives. -/
def beyond (span : List ObjId) : List ObjId := span.drop (CInt.ofSize span.length).toNat

/-- Every other object's handle is passed. -/
theorem IsSpan.request_mem_passed {span : List ObjId} (h : w.IsSpan span) {r : ObjId}
    {o : Object} (hr : r ∈ span) (hnot : r ∉ beyond span) (ho : w.objs r = some o) :
    o.req.request_ ∈ w.passed span := by
  rw [← List.take_append_drop (CInt.ofSize span.length).toNat span, List.mem_append] at hr
  obtain ⟨i, hi⟩ := List.mem_iff_getElem?.mp (hr.resolve_right hnot)
  rw [List.getElem?_take] at hi
  split at hi
  · rename_i hlt
    refine List.mem_iff_getElem?.mpr ⟨i, ?_⟩
    rw [passed, passedHandles, h.length_requests, List.getElem?_take, if_pos hlt,
      List.getElem?_map, h.requests_getElem?, hi]
    simp [ho]
  · cases hi

/-! ## §2 Running the callbacks of some objects -/

/-- The callbacks pending on an object. -/
def callbacksAt (w : Program) (r : ObjId) : List Entry :=
  match w.objs r with
  | some o => o.req.callbacks_
  | none => []

/-- The objects of `cleared` run their callbacks, one object after the
other, and `lib` is the library afterwards. -/
def execute (w : Program) (lib : Library) (cleared : List ObjId) (null : Bool) : Program :=
  { w with
    lib := lib
    objs := fun r => if r ∈ cleared then (w.objs r).map fun o => o.executed null else w.objs r
    ran := w.ran ++ cleared.flatMap w.callbacksAt }

section Execute

variable {lib : Library} {cleared : List ObjId} {null : Bool}

@[simp] theorem execute_lib : (w.execute lib cleared null).lib = lib := rfl
@[simp] theorem execute_ran :
    (w.execute lib cleared null).ran = w.ran ++ cleared.flatMap w.callbacksAt := rfl
@[simp] theorem execute_registered : (w.execute lib cleared null).registered = w.registered := rfl
@[simp] theorem execute_nextRid : (w.execute lib cleared null).nextRid = w.nextRid := rfl
@[simp] theorem execute_nextOp : (w.execute lib cleared null).nextOp = w.nextOp := rfl
@[simp] theorem execute_userRefs : (w.execute lib cleared null).userRefs = w.userRefs := rfl
@[simp] theorem execute_buffers : (w.execute lib cleared null).buffers = w.buffers := rfl
@[simp] theorem execute_abandoned : (w.execute lib cleared null).abandoned = w.abandoned := rfl
@[simp] theorem execute_targets : (w.execute lib cleared null).targets = w.targets := rfl

theorem execute_objs_of_mem {r : ObjId} (h : r ∈ cleared) :
    (w.execute lib cleared null).objs r = (w.objs r).map fun o => o.executed null := if_pos h

theorem execute_objs_of_not_mem {r : ObjId} (h : r ∉ cleared) :
    (w.execute lib cleared null).objs r = w.objs r := if_neg h

/-- An object after the call comes from one before, either unchanged or
with its callbacks run. -/
theorem execute_objs_eq_some {r : ObjId} {o' : Object}
    (h : (w.execute lib cleared null).objs r = some o') :
    ∃ o, w.objs r = some o ∧
      ((r ∈ cleared ∧ o' = o.executed null) ∨ (r ∉ cleared ∧ o' = o)) := by
  by_cases hr : r ∈ cleared
  · rw [execute_objs_of_mem hr, Option.map_eq_some_iff] at h
    obtain ⟨o, ho, rfl⟩ := h
    exact ⟨o, ho, .inl ⟨hr, rfl⟩⟩
  · rw [execute_objs_of_not_mem hr] at h
    exact ⟨o', h, .inr ⟨hr, rfl⟩⟩

end Execute

theorem callbacksAt_eq {r : ObjId} {o : Object} (h : w.objs r = some o) :
    w.callbacksAt r = o.req.callbacks_ := by
  simp [callbacksAt, h]

/-- A call on one object. -/
theorem set_eq_execute {r : ObjId} {o : Object} (ho : w.objs r = some o) (lib : Library)
    (null : Bool) :
    { w.set r (some (o.executed null)) with lib := lib, ran := w.ran ++ o.req.callbacks_ }
      = w.execute lib [r] null := by
  simp only [execute, set, List.flatMap_cons, List.flatMap_nil, List.append_nil,
    callbacksAt_eq ho, Program.mk.injEq, true_and, and_true]
  funext r'
  by_cases h : r' = r
  · subst h; simp [ho]
  · simp [h]

theorem IsSpan.flatMap_callbacks {span : List ObjId} (h : w.IsSpan span) :
    (w.requests span).flatMap Request.callbacks_ = span.flatMap w.callbacksAt := by
  have hall : ∀ l : List ObjId, (∀ r ∈ l, (w.objs r).isSome) →
      ((l.filterMap w.objs).map Object.req).flatMap Request.callbacks_
        = l.flatMap w.callbacksAt := by
    intro l hl
    induction l with
    | nil => rfl
    | cons r l ih =>
      obtain ⟨o, ho⟩ := Option.isSome_iff_exists.mp (hl r (by simp))
      rw [List.filterMap_cons_some ho, List.map_cons, List.flatMap_cons, List.flatMap_cons,
        ih fun r' hr' => hl r' (by simp [hr']), callbacksAt_eq ho]
  exact hall span h.2

/-- A span operation that leaves `reqs` in its elements, in closed form. -/
theorem store_objs {span : List ObjId} {reqs : List (Request Entry)}
    (hlen : reqs.length = span.length) (r : ObjId) :
    (w.store span reqs).objs r =
      if r ∈ span then
        reqs[span.idxOf r]?.bind fun req => (w.objs r).map fun o => { o with req := req }
      else w.objs r := by
  by_cases hr : r ∈ span
  · have hlt := List.idxOf_lt_length_of_mem hr
    obtain ⟨req, hreq⟩ : ∃ req, reqs[span.idxOf r]? = some req :=
      ⟨_, List.getElem?_eq_getElem (by omega)⟩
    simp [store, hr, hreq]
  · have hnone : reqs[span.idxOf r]? = none :=
      List.getElem?_eq_none (by rw [List.idxOf_eq_length hr]; omega)
    simp only [store, hnone, hr, if_false]

theorem store_eq_execute {span : List ObjId} {reqs : List (Request Entry)} {lib : Library}
    {cleared : List ObjId} {null : Bool}
    (hobjs : ∀ r, (w.store span reqs).objs r = (w.execute lib cleared null).objs r) :
    { w.store span reqs with lib := lib, ran := w.ran ++ cleared.flatMap w.callbacksAt }
      = w.execute lib cleared null := by
  have hfun := funext hobjs
  simp only [store, execute] at hfun ⊢
  rw [hfun]

/-- The request of a span at the position of one of its objects. -/
theorem IsSpan.requests_idxOf {span : List ObjId} (h : w.IsSpan span) {r : ObjId}
    (hr : r ∈ span) : (w.requests span)[span.idxOf r]? = (w.objs r).map Object.req := by
  rw [h.requests_getElem?, List.getElem?_eq_getElem (List.idxOf_lt_length_of_mem hr),
    List.getElem_idxOf]
  rfl

/-! ## §3 One theorem for each call -/

theorem perform_construct {r : ObjId} (h : w.perform (.construct r) = .returns (ret, w')) :
    w.objs r = none ∧
      w' = { w.set r (some (.wrap w.nextRid none)) with nextRid := w.nextRid + 1 } := by
  simp only [perform] at h
  split at h
  · rename_i hr
    cases h
    exact ⟨Option.isNone_iff_eq_none.mp hr, rfl⟩
  · cases h

/-- A routine returns a request that wraps the next operation. -/
theorem perform_launch {r : ObjId} {call : AsyncCall}
    (h : w.perform (.launch r call) = .returns (ret, w')) :
    w.objs r = none ∧ ∃ c cbs host, Launched (Host.start w.nextOp w.nextAlloc) host
        { request_ := some w.nextOp, callbacks_ := cbs } c ∧
      w' = { w.set r (some { Object.wrap w.nextRid (some w.nextOp) with
              req := { request_ := some w.nextOp,
                       callbacks_ := w.entries w.nextRid (some w.nextOp) cbs } }) with
        nextOp := w.nextOp + 1
        nextAlloc := host.nextAlloc
        nextRid := w.nextRid + 1
        buffers := w.buffers ++ c.buffers.map fun v => (w.nextOp, v)
        targets := w.targets ++ (cbs.flatMap Callback.targets).map fun v => (w.nextOp, v)
        registered := w.registered ++ w.entries w.nextRid (some w.nextOp) cbs } := by
  simp only [perform, launch] at h
  split at h
  swap
  · cases h
  rename_i hok
  obtain ⟨⟨⟨request, cbs⟩, host⟩, hrun, h⟩ := Outcome.bind_eq_returns.mp h
  obtain ⟨c, hl⟩ := AsyncCall.run_spec hrun
  obtain rfl : request = some w.nextOp := hl.handle
  refine ⟨Option.isNone_iff_eq_none.mp hok.1, c, cbs, host, hl, ?_⟩
  cases h
  have hop : host.nextOp = w.nextOp + 1 := hl.nextOp
  have hcalls : mpiCalls host.trace = [(w.nextOp, c)] := hl.calls
  simp [hop, hcalls]

theorem perform_addCallback {r : ObjId} {cb : Callback}
    (h : w.perform (.addCallback r cb) = .returns (ret, w')) :
    ∃ o, w.objs r = some o ∧
      w' = { w.set r (some { o with req :=
                { o.req with callbacks_ := o.req.callbacks_ ++ w.entries o.rid o.op [cb] } }) with
        registered := w.registered ++ w.entries o.rid o.op [cb] } := by
  simp only [perform, addCallback] at h
  split at h
  · rename_i o ho
    cases h
    exact ⟨o, ho, rfl⟩
  · cases h

theorem perform_moveConstruct {dst src : ObjId}
    (h : w.perform (.moveConstruct dst src) = .returns (ret, w')) :
    ∃ s, w.objs dst = none ∧ w.objs src = some s ∧
      w' = (w.set src (some (s.leftBehind { s.req with callbacks_ := [] }))).set dst (some s) := by
  simp only [perform, moveConstruct] at h
  split at h
  · rename_i s hd hs
    cases h
    exact ⟨s, hd, hs, rfl⟩
  · cases h

theorem perform_moveAssign {dst src : ObjId}
    (h : w.perform (.moveAssign dst src) = .returns (ret, w')) :
    ∃ d s, w.objs dst = some d ∧ w.objs src = some s ∧
      ((dst = src ∧
          w' = (w.abandon d).set src (some (s.leftBehind { s.req with callbacks_ := [] }))) ∨
        (dst ≠ src ∧ w' = ((w.abandon d).set src
          (some (s.leftBehind { s.req with callbacks_ := [] }))).set dst (some s))) := by
  simp only [perform, moveAssign] at h
  split at h
  · rename_i d s hd hs
    refine ⟨d, s, hd, hs, ?_⟩
    split at h
    · rename_i heq
      cases h
      exact .inl ⟨heq, rfl⟩
    · rename_i hne
      cases h
      exact .inr ⟨hne, rfl⟩
  · cases h

theorem perform_destroy {r : ObjId} (h : w.perform (.destroy r) = .returns (ret, w')) :
    ∃ o, w.objs r = some o ∧ w' = (w.abandon o).set r none := by
  simp only [perform] at h
  split at h
  · rename_i o ho
    cases h
    exact ⟨o, ho, rfl⟩
  · cases h

theorem perform_complete {op : OpId} (h : w.perform (.complete op) = .returns (ret, w')) :
    op < w.nextOp ∧ w.lib.status op = .inFlight ∧ w' = { w with lib := w.lib.finish op } := by
  simp only [perform] at h
  split at h
  · rename_i hop
    cases h
    exact ⟨hop.1, hop.2, rfl⟩
  · cases h

theorem perform_userAllocate (h : w.perform .userAllocate = .returns (ret, w')) :
    w' = { w with nextAlloc := w.nextAlloc + 1, userRefs := w.nextAlloc :: w.userRefs } := by
  cases h
  rfl

theorem perform_userCopy {a : AllocId} (h : w.perform (.userCopy a) = .returns (ret, w')) :
    w' = { w with userRefs := a :: w.userRefs } := by
  simp only [perform] at h
  split at h
  · cases h
    rfl
  · cases h

theorem perform_userDrop {a : AllocId} (h : w.perform (.userDrop a) = .returns (ret, w')) :
    w' = { w with userRefs := w.userRefs.erase a } := by
  simp only [perform] at h
  split at h
  · cases h
    rfl
  · cases h

theorem perform_wait {r : ObjId} (h : w.perform (.wait r) = .returns (ret, w')) :
    ∃ o, w.objs r = some o ∧ w.lib.done o.req.request_ = true ∧
      w' = w.execute (w.lib.settle [o.req.request_] [o.req.request_]) [r] true := by
  simp only [perform] at h
  cases ho : w.objs r with
  | none => simp [ho] at h
  | some o =>
    simp only [ho] at h
    obtain ⟨out, hwait, h⟩ := Outcome.bind_eq_returns.mp h
    obtain ⟨hd, rfl⟩ := Request.wait_eq_returns hwait
    cases h
    exact ⟨o, rfl, hd, set_eq_execute ho _ true⟩

/-- `test` either finds the operation over and behaves like `wait`, or
returns false and leaves the request alone. -/
theorem perform_test {r : ObjId} (h : w.perform (.test r) = .returns (ret, w')) :
    ∃ o, w.objs r = some o ∧
      ((w.lib.done o.req.request_ = true ∧ ret = .tested true ∧
          w' = w.execute (w.lib.settle [o.req.request_] [o.req.request_]) [r] true) ∨
        (w.lib.done o.req.request_ = false ∧ ret = .tested false ∧
          w' = { w with lib := w.lib.settle [o.req.request_] [] })) := by
  simp only [perform] at h
  cases ho : w.objs r with
  | none => simp [ho] at h
  | some o =>
    simp only [ho] at h
    obtain ⟨out, htest, h⟩ := Outcome.bind_eq_returns.mp h
    rcases Request.test_eq_returns htest with ⟨hd, rfl⟩ | ⟨hd, rfl⟩
    · cases h
      exact ⟨o, rfl, .inl ⟨hd, rfl, set_eq_execute ho _ true⟩⟩
    · cases h
      refine ⟨o, rfl, .inr ⟨hd, rfl, ?_⟩⟩
      have hsame : Function.update w.objs r (some { o with req := o.req }) = w.objs := by
        rw [show some { o with req := o.req } = w.objs r from ho.symm, Function.update_eq_self]
      simp [set, hsame]

/-- `wait_all` runs the callbacks of the WHOLE span, once the operations
of the handles it passed are over. -/
theorem perform_waitAll {span : List ObjId} (h : w.perform (.waitAll span) = .returns (ret, w')) :
    w.IsSpan span ∧ 0 ≤ CInt.ofSize span.length ∧ (w.passed span).all w.lib.done = true ∧
      w' = w.execute (w.lib.settle (w.passed span) (w.passed span)) span false := by
  simp only [perform] at h
  split at h
  swap
  · cases h
  rename_i hspan
  obtain ⟨out, hcall, h⟩ := Outcome.bind_eq_returns.mp h
  obtain ⟨hcount, hall, rfl⟩ := waitAll_eq_returns hcall
  rw [hspan.length_requests] at hcount
  cases h
  refine ⟨hspan, hcount, hall, ?_⟩
  rw [hspan.flatMap_callbacks]
  refine store_eq_execute fun r => ?_
  rw [store_objs (by simp [hspan.length_requests])]
  by_cases hr : r ∈ span
  · rw [if_pos hr, execute_objs_of_mem hr, List.getElem?_map, hspan.requests_idxOf hr]
    cases w.objs r <;> rfl
  · rw [if_neg hr, execute_objs_of_not_mem hr]

theorem perform_waitAll_returns {span : List ObjId} (hspan : w.IsSpan span)
    (hcount : 0 ≤ CInt.ofSize span.length) (hall : (w.passed span).all w.lib.done = true) :
    ∃ w', w.perform (.waitAll span) = .returns (.unit, w') := by
  obtain ⟨out, hout⟩ := waitAll_returns (by rwa [hspan.length_requests]) hall
  simp only [perform, if_pos hspan, hout]
  exact ⟨_, rfl⟩

/-- `wait_any` finds only null handles, or runs the callbacks of the one
object whose operation it reports, and of no other. -/
theorem perform_waitAny {span : List ObjId} {pick : Nat}
    (h : w.perform (.waitAny span pick) = .returns (ret, w')) :
    w.IsSpan span ∧
      (((w.passed span).all Option.isNone = true ∧ ret = .index none ∧ w' = w) ∨
        ∃ r o op, span[pick]? = some r ∧ w.objs r = some o ∧ o.req.request_ = some op ∧
          some op ∈ w.passed span ∧ w.lib.done (some op) = true ∧
          ret = .index (some (pick : Int)) ∧
          w' = w.execute (w.lib.settle (w.passed span) [some op]) [r] false) := by
  simp only [perform] at h
  split at h
  swap
  · cases h
  rename_i hspan
  refine ⟨hspan, ?_⟩
  obtain ⟨out, hcall, h⟩ := Outcome.bind_eq_returns.mp h
  rcases waitAny_eq_returns hcall with ⟨hnull, rfl⟩ | ⟨op, req, hpick, hd, hreq, hop, rfl⟩
  · cases h
    refine .inl ⟨hnull, rfl, ?_⟩
    have hobjs : (w.store span (w.requests span)).objs = w.objs := by
      funext r
      rw [store_objs hspan.length_requests]
      split
      · rename_i hr
        rw [hspan.requests_idxOf hr]
        cases w.objs r <;> rfl
      · rfl
    cases w
    simp only [List.append_nil, store] at hobjs ⊢
    rw [hobjs]
  · cases h
    obtain ⟨r, o, hr, ho, rfl⟩ := hspan.of_requests_getElem? hreq
    refine .inr ⟨r, o, op, hr, ho, hop, List.mem_of_getElem? hpick, hd, rfl, ?_⟩
    have hcleared : [r].flatMap w.callbacksAt = o.req.callbacks_ := by simp [callbacksAt_eq ho]
    rw [← hcleared]
    refine store_eq_execute fun r' => ?_
    rw [store_objs (by simp [hspan.length_requests])]
    have hidx : span.idxOf r = pick := by
      obtain ⟨hlt, rfl⟩ := List.getElem?_eq_some_iff.mp hr
      exact hspan.1.idxOf_getElem pick hlt
    by_cases hr' : r' = r
    · subst hr'
      rw [if_pos (List.mem_of_getElem? hr), hidx, List.getElem?_set_self (by
        obtain ⟨hlt, _⟩ := List.getElem?_eq_some_iff.mp hreq
        exact hlt), execute_objs_of_mem (by simp), ho]
      rfl
    · rw [execute_objs_of_not_mem (by simpa using hr')]
      split
      · rename_i hmem
        have hne : pick ≠ span.idxOf r' := by
          intro heq
          have h1 := List.getElem_idxOf (List.idxOf_lt_length_of_mem hmem)
          have h2 := (List.getElem?_eq_some_iff.mp hr).2
          simp only [heq] at h2
          exact hr' (h1.symm.trans h2)
        rw [List.getElem?_set_ne hne, hspan.requests_idxOf hmem]
        cases w.objs r' <;> rfl
      · rfl

end Program

end KokkosComm.Mpi
