/-
KokkosComm.Mpi.HandleTheorems — whether a request still holds the handle
of an operation that is over.

`wait` and `test` hand MPI the request's own handle, and MPI sets it to
null when it releases the operation. `wait_all` and `wait_any` collect
COPIES of the handles in a local vector; MPI nulls the copies, and the
requests keep the released handles. So the requests of a run hold no
released handle, and none is passed to MPI, exactly when every span
operation of the run finds nothing but null handles
(`handlesNull_iff`). A `wait` after a `wait_all` passes a released
handle (`released_handle_passed_again`).
-/
import KokkosComm.Mpi.ProgramTheorems

namespace KokkosComm.Mpi

/-- The completion calls, and the completions they wait for. -/
inductive CompletionCall where
  | wait (r : ObjId)
  | test (r : ObjId)
  | waitAll (requests : List ObjId)
  | waitAny (requests : List ObjId) (pick : Nat)
  | complete (op : OpId)
  deriving DecidableEq, Repr

namespace CompletionCall

def toOp : CompletionCall → Op
  | wait r => .wait r
  | test r => .test r
  | waitAll span => .waitAll span
  | waitAny span pick => .waitAny span pick
  | complete op => .complete op

def step (w : Program) (a : CompletionCall) : Option Program := w.step a.toOp

end CompletionCall

/-- A request whose operation has been released holds the null handle, and
no released handle has been passed to MPI. -/
def HandlesNull (w : Program) : Prop :=
  (∀ r o op, w.objs r = some o → o.op = some op → w.lib.status op = .released →
    o.req.request_ = none) ∧ w.lib.stale = []

/-- The call is no span operation, or one that hands MPI null handles only. -/
def FindsNullOnly (w : Program) (a : CompletionCall) (_ : Program) : Prop :=
  match a with
  | .waitAll span => ∀ q ∈ w.passed span, q = none
  | .waitAny span _ => ∀ q ∈ w.passed span, q = none
  | _ => True

/-- Every request wraps an operation of its own, and holds its handle until
the operation is released. -/
structure Wrapping (w : Program) : Prop where
  null : HandlesNull w
  handle : ∀ r o op, w.objs r = some o → o.req.request_ = some op → o.op = some op
  unique : ∀ r r' o o' op, w.objs r = some o → w.objs r' = some o' → o.op = some op →
    o'.op = some op → r = r'

theorem wrapping_start (n : Nat) : Wrapping (Program.start n) where
  null := ⟨fun _ _ _ _ _ h => (by cases h), rfl⟩
  handle := by
    intro r o op ho hop
    obtain ⟨-, rfl⟩ := Program.start_objs_eq_some ho
    exact hop
  unique := by
    intro r r' o o' op ho ho' hop hop'
    obtain ⟨-, rfl⟩ := Program.start_objs_eq_some ho
    obtain ⟨-, rfl⟩ := Program.start_objs_eq_some ho'
    exact Option.some.inj (hop.trans hop'.symm)

section Steps

variable {w w' : Program}

/-- An operation that is not released is not a stale handle. -/
theorem settle_stale {lib : Library} {passed reported : List MpiRequest}
    (h : ∀ op, some op ∈ passed → lib.status op ≠ .released) :
    (lib.settle passed reported).stale = lib.stale := by
  have hnil : (passed.reduceOption.filter fun op => lib.status op == .released) = [] := by
    refine List.filter_eq_nil_iff.mpr fun op hop => ?_
    simpa using h op (List.reduceOption_mem_iff.mp hop)
  simp only [Library.settle, hnil, List.append_nil]

theorem settle_of_null {lib : Library} {passed : List MpiRequest} (h : ∀ q ∈ passed, q = none) :
    lib.settle passed passed = lib := by
  have hnot : ∀ op, some op ∉ passed := fun op hop => by cases h _ hop
  have hstale : (lib.settle passed passed).stale = lib.stale :=
    settle_stale fun op hop => absurd hop (hnot op)
  cases lib
  simp only [Library.settle, Library.mk.injEq] at hstale ⊢
  exact ⟨funext fun op => if_neg (hnot op), hstale⟩

/-- A handle a wrapping request holds has not been released. -/
theorem Wrapping.not_released (hw : Wrapping w) {r : ObjId} {o : Object} {op : OpId}
    (ho : w.objs r = some o) (hop : o.req.request_ = some op) :
    w.lib.status op ≠ .released := by
  intro hrel
  have := hw.null.1 r o op ho (hw.handle r o op ho hop) hrel
  rw [hop] at this
  cases this

/-- Executing callbacks changes no wrapped operation, so only the null
handles are left to show. -/
theorem Wrapping.execute (hw : Wrapping w) {lib : Library} {cleared : List ObjId} {null : Bool}
    (hnull : HandlesNull (w.execute lib cleared null)) :
    Wrapping (w.execute lib cleared null) where
  null := hnull
  handle := by
    intro r o' op hr hreq
    obtain ⟨o, ho, ⟨-, rfl⟩ | ⟨-, rfl⟩⟩ := Program.execute_objs_eq_some hr
    · cases null with
      | true => cases hreq
      | false => exact hw.handle r o op ho hreq
    · exact hw.handle r o' op ho hreq
  unique := by
    intro r₁ r₂ o₁ o₂ op h₁ h₂ hop₁ hop₂
    obtain ⟨p₁, hp₁, heq₁⟩ := Program.execute_objs_eq_some h₁
    obtain ⟨p₂, hp₂, heq₂⟩ := Program.execute_objs_eq_some h₂
    refine hw.unique r₁ r₂ p₁ p₂ op hp₁ hp₂ ?_ ?_
    · rcases heq₁ with ⟨-, rfl⟩ | ⟨-, rfl⟩ <;> exact hop₁
    · rcases heq₂ with ⟨-, rfl⟩ | ⟨-, rfl⟩ <;> exact hop₂

/-- `wait`, and `test` when it returns true, release the operation of one
request and null its handle. -/
theorem Wrapping.execute_one (hw : Wrapping w) {r : ObjId} {o : Object} (ho : w.objs r = some o) :
    Wrapping (w.execute (w.lib.settle [o.req.request_] [o.req.request_]) [r] true) := by
  refine hw.execute ⟨fun r' o' op hr' hop hrel => ?_, ?_⟩
  · obtain ⟨p, hp, ⟨hmem, rfl⟩ | ⟨hmem, rfl⟩⟩ := Program.execute_objs_eq_some hr'
    · rfl
    · by_cases hsame : some op ∈ [o.req.request_]
      · -- another request does not wrap the operation of `r`
        have hreq : o.req.request_ = some op := (List.mem_singleton.mp hsame).symm
        have := hw.unique r r' o o' op ho hp (hw.handle r o op ho hreq) hop
        simp [this] at hmem
      · rw [Program.execute_lib, Library.settle_status_of_not_mem hsame] at hrel
        exact hw.null.1 r' o' op hp hop hrel
  · rw [Program.execute_lib, settle_stale, hw.null.2]
    intro op hop
    exact hw.not_released ho (List.mem_singleton.mp hop).symm

/-- A span operation over null handles leaves handles and library alone. -/
theorem Wrapping.execute_span (hw : Wrapping w) (cleared : List ObjId) :
    Wrapping (w.execute w.lib cleared false) := by
  refine hw.execute ⟨fun r o op hr hop hrel => ?_, hw.null.2⟩
  obtain ⟨p, hp, ⟨-, rfl⟩ | ⟨-, rfl⟩⟩ := Program.execute_objs_eq_some hr
  · exact hw.null.1 r p op hp hop hrel
  · exact hw.null.1 r o op hp hop hrel

/-- The library alone changes, and releases nothing new. -/
theorem Wrapping.of_lib (hw : Wrapping w) {lib : Library} (hstale : lib.stale = w.lib.stale)
    (hrel : ∀ op, lib.status op = .released → w.lib.status op = .released) :
    Wrapping { w with lib := lib } where
  null := ⟨fun r o op hr hop h => hw.null.1 r o op hr hop (hrel op h), hstale.trans hw.null.2⟩
  handle := hw.handle
  unique := hw.unique

theorem Wrapping.step (hw : Wrapping w) {a : CompletionCall} (h : a.step w = some w')
    (hok : FindsNullOnly w a w') : Wrapping w' := by
  obtain ⟨ret, h⟩ := Program.step_eq_some.mp h
  cases a with
  | wait r =>
    obtain ⟨o, ho, -, rfl⟩ := Program.perform_wait h
    exact hw.execute_one ho
  | test r =>
    obtain ⟨o, ho, ⟨-, -, rfl⟩ | ⟨hd, -, rfl⟩⟩ := Program.perform_test h
    · exact hw.execute_one ho
    · refine hw.of_lib (settle_stale fun op hop => ?_) fun op hop => ?_
      · exact hw.not_released ho (List.mem_singleton.mp hop).symm
      · rwa [Library.settle_status_of_not_mem (by simp)] at hop
  | waitAll span =>
    obtain ⟨-, -, -, rfl⟩ := Program.perform_waitAll h
    rw [settle_of_null hok]
    exact hw.execute_span span
  | waitAny span pick =>
    obtain ⟨-, ⟨-, -, rfl⟩ | ⟨r, o, op, -, -, -, hmem, -⟩⟩ := Program.perform_waitAny h
    · exact hw
    · cases hok _ hmem
  | complete op =>
    obtain ⟨-, -, rfl⟩ := Program.perform_complete h
    exact hw.of_lib rfl fun op' => Library.released_of_finish

/-- A span operation that releases an operation leaves its handle behind. -/
theorem handle_left_behind (hw : Wrapping w) {a : CompletionCall} (h : a.step w = some w')
    (hbad : ¬ FindsNullOnly w a w') : ¬ HandlesNull w' := by
  obtain ⟨ret, h⟩ := Program.step_eq_some.mp h
  intro hnull
  cases a with
  | wait r => exact hbad trivial
  | test r => exact hbad trivial
  | complete op => exact hbad trivial
  | waitAll span =>
    obtain ⟨hspan, -, -, rfl⟩ := Program.perform_waitAll h
    refine hbad fun q hq => ?_
    cases q with
    | none => rfl
    | some op =>
      obtain ⟨r, hr, o, ho, hreq⟩ := hspan.mem_passed hq
      have := hnull.1 r (o.executed false) op (by rw [Program.execute_objs_of_mem hr, ho]; rfl)
        (hw.handle r o op ho hreq) (Library.settle_status_of_mem hq)
      exact hreq.symm.trans this
  | waitAny span pick =>
    obtain ⟨hspan, ⟨hall, -, rfl⟩ | ⟨r, o, op, hr, ho, hreq, -, -, -, rfl⟩⟩ :=
      Program.perform_waitAny h
    · refine hbad fun q hq => ?_
      simpa using List.all_eq_true.mp hall q hq
    · have := hnull.1 r (o.executed false) op
        (by rw [Program.execute_objs_of_mem (by simp), ho]; rfl)
        (hw.handle r o op ho hreq) (Library.settle_status_of_mem (by simp))
      rw [show (o.executed false).req.request_ = o.req.request_ from rfl, hreq] at this
      cases this

end Steps

/-- **No released handle**: in a run of completion calls over any set of
requests that wrap distinct active operations, the requests of released
operations are null throughout, and no released handle is passed to MPI,
exactly when every `wait_all` and `wait_any` of the run finds nothing but
null handles, that is, completes no operation. -/
theorem handlesNull_iff (n : Nat) (calls : List CompletionCall) :
    Lts.AllStates CompletionCall.step HandlesNull (Program.start n) calls ↔
      Lts.AllSteps CompletionCall.step FindsNullOnly (Program.start n) calls :=
  Lts.allStates_iff (fun _ _ _ hw h hok => hw.step h hok) (fun _ hw => hw.null)
    (fun _ _ _ hw h hbad => handle_left_behind hw h hbad) (wrapping_start n)

/-- One request: `wait_all` completes its operation, and the `wait` after
it passes the released handle. -/
theorem released_handle_passed_again :
    ¬ ∀ (n : Nat) (calls : List CompletionCall),
      Lts.AllStates CompletionCall.step HandlesNull (Program.start n) calls := by
  intro h
  have hstale : (Lts.exec CompletionCall.step (Program.start 1)
      [.complete 0, .waitAll [0], .wait 0]).map (fun w => w.lib.stale) = some [0] := by
    decide +kernel
  obtain ⟨w, hw, hlog⟩ := Option.map_eq_some_iff.mp hstale
  have hnull := ((h 1 _).exec hw).2
  rw [hlog] at hnull
  cases hnull

end KokkosComm.Mpi
