/-
KokkosComm.Reentrancy — requests whose callbacks throw, or use the request
they are registered on.

Both specialisations of `Request` have the same `execute_all_callbacks`:

    for (auto& cb : callbacks_) { cb(); }
    callbacks_.clear();

Elsewhere in this development a callback runs and returns. Here it is a
`Body`: it may end with an exception, and it may call `add_callback`,
`wait` and `test` on its own request, and go on according to the answer.
What it does may depend on the callbacks invoked so far (the log). Each
registration gives the callback a TOKEN of its own, so that running a
callback twice is a token twice in the log.

`push_back` and `clear` invalidate the iterators of a loop over the vector
(the end iterator in any case). A loop that goes on after the vector has
changed is undefined; one that an exception leaves is not.

A call inside a callback executes the list again, from its first entry.
`fuel` bounds the depth of such nested executions; out of fuel, a call has
not returned.
-/
import KokkosComm.Foundation.Lts
import KokkosComm.Mpi.Request
import KokkosComm.Nccl.Request

namespace KokkosComm.Reentrancy

/-! ## Callbacks -/

abbrev Token := Nat

/-- How a call ends: it returns, or an exception leaves it. -/
inductive Exit where
  | returned
  | threw
  deriving DecidableEq, Repr

/-- What a callback learns from calling `test`. -/
inductive TestReply where
  | pending
  | completed
  | threw
  deriving DecidableEq, Repr

/-- What a callback does with its request. It can catch the exceptions of
its own calls. -/
inductive Body where
  | done
  | throws
  | addCallback (rest : Body)
  | wait (rest : Exit → Body)
  | test (rest : TestReply → Body)

/-! ## The completion query

`wait` and `test` of the two backends differ in how they ask for the
completion of the operation, and in nothing else. -/

/-- What a request asks for its completion, on a state `θ`. An operation
that was found completed stays so. -/
structure CompletionQuery (θ : Type) where
  wait : θ → Outcome θ
  test : θ → Outcome (Bool × θ)
  complete : θ → θ
  Completed : θ → Prop
  completed_of_wait : ∀ q q', wait q = .returns q' → Completed q'
  completed_of_test : ∀ q q', test q = .returns (true, q') → Completed q'
  wait_of_completed : ∀ q, Completed q → ∃ q', wait q = .returns q'
  test_of_completed : ∀ q, Completed q → ∃ q', test q = .returns (true, q')

/-! ## The request -/

/-- A request, and what a run has left behind: `changes` counts the
modifications of the vector, `next` is the next token, `log` has the tokens
of the callbacks invoked so far. -/
structure State (θ : Type) where
  query : θ
  callbacks : List Token
  changes : Nat
  next : Token
  log : List Token

/-- A request without callbacks. -/
def State.start {θ : Type} (q : θ) : State θ :=
  { query := q, callbacks := [], changes := 0, next := 0, log := [] }

variable {θ : Type}

namespace State

/-- `add_callback`: `callbacks_.push_back(cb)`. -/
def addCallback (s : State θ) : State θ :=
  { s with callbacks := s.callbacks ++ [s.next], changes := s.changes + 1, next := s.next + 1 }

/-- `callbacks_.clear()`. -/
def clear (s : State θ) : State θ := { s with callbacks := [], changes := s.changes + 1 }

/-- `cb()` begins. -/
def invoke (s : State θ) (t : Token) : State θ := { s with log := s.log ++ [t] }

end State

/-- The loop of `execute_all_callbacks`, from an entry on, and the `clear`
behind it. -/
def loop (call : Token → State θ → Outcome (Exit × State θ)) :
    List Token → State θ → Outcome (Exit × State θ)
  | [], s => .returns (.returned, s.clear)
  | t :: rest, s => do
    let (exit, s') ← call t (s.invoke t)
    match exit with
    | .threw => .returns (.threw, s')
    | .returned => if s'.changes = s.changes then loop call rest s' else .undefined

section Calls

variable (cq : CompletionQuery θ) (execute : State θ → Outcome (Exit × State θ))

/-- `Request::wait`, where `execute` is `execute_all_callbacks`. -/
def waitWith (s : State θ) : Outcome (Exit × State θ) := do
  let q ← cq.wait s.query
  execute { s with query := q }

/-- `Request::test`. -/
def testWith (s : State θ) : Outcome (TestReply × State θ) := do
  let (completed, q) ← cq.test s.query
  if completed then do
    let (exit, s) ← execute { s with query := q }
    match exit with
    | .returned => .returns (.completed, s)
    | .threw => .returns (.threw, s)
  else .returns (.pending, { s with query := q })

/-- A callback runs. -/
def runBody : Body → State θ → Outcome (Exit × State θ)
  | .done, s => .returns (.returned, s)
  | .throws, s => .returns (.threw, s)
  | .addCallback rest, s => runBody rest s.addCallback
  | .wait rest, s => do
    let (exit, s) ← waitWith cq execute s
    runBody (rest exit) s
  | .test rest, s => do
    let (reply, s) ← testWith cq execute s
    runBody (rest reply) s

end Calls

section Program

variable (cq : CompletionQuery θ) (body : Token → List Token → Body)

/-- `execute_all_callbacks`. -/
def executeAllCallbacks : Nat → State θ → Outcome (Exit × State θ)
  | 0, _ => .blocks
  | fuel + 1, s =>
    loop (fun t s => runBody cq (executeAllCallbacks fuel) (body t s.log) s) s.callbacks s

/-- `Request::wait`. -/
def wait (fuel : Nat) (s : State θ) : Outcome (Exit × State θ) :=
  waitWith cq (executeAllCallbacks cq body fuel) s

/-- `Request::test`. -/
def test (fuel : Nat) (s : State θ) : Outcome (TestReply × State θ) :=
  testWith cq (executeAllCallbacks cq body fuel) s

/-! ## Programs -/

/-- What the program does with the request; it catches exceptions. The
operation completes at some time. -/
inductive Action where
  | addCallback
  | complete
  | wait (fuel : Nat)
  | test (fuel : Nat)
  deriving DecidableEq, Repr

def step (s : State θ) : Action → Option (State θ)
  | .addCallback => some s.addCallback
  | .complete => some { s with query := cq.complete s.query }
  | .wait fuel => do
    let (_, s) ← (wait cq body fuel s).toOption
    return s
  | .test fuel => do
    let (_, s) ← (test cq body fuel s).toOption
    return s

/-- How a body ends that calls neither `wait` nor `test`. -/
def Body.settles : Body → Option Exit
  | .done => some .returned
  | .throws => some .threw
  | .addCallback rest => rest.settles
  | _ => none

/-- The callbacks of a list, the first one invoked after those of the log,
do nothing with the request, up to one that throws, if any; it may add
callbacks before. -/
def Behave : List Token → List Token → Prop
  | [], _ => True
  | t :: rest, log => let log := log ++ [t]
    (body t log = .done ∧ Behave rest log) ∨ (body t log).settles = some .threw

/-- The list has not been executed before, and its callbacks behave. -/
def State.Behaved (s : State θ) : Prop :=
  (∀ t ∈ s.callbacks.head?, t ∉ s.log) ∧ Behave body s.callbacks s.log

/-- A completion call on a completed operation finds such a list. -/
def Action.Behaves (s : State θ) : Action → Prop
  | .wait _ => ∀ q, cq.wait s.query = .returns q → s.Behaved body
  | .test _ => ∀ q, cq.test s.query = .returns (true, q) → s.Behaved body
  | _ => True

end Program

/-! ## The two backends -/

/-- `MPI_Wait` and `MPI_Test`, on the handle of the request. -/
def mpiQuery : CompletionQuery (Mpi.MpiRequest × Mpi.Library) where
  wait := fun (request, m) => do
    let (err, request, m) ← Mpi.mpiWait m request
    failIf (err != .success) "KokkosComm::Request::wait: request completion failed"
    return (request, m)
  test := fun (request, m) => do
    let (err, hasCompleted, request, m) ← Mpi.mpiTest m request
    failIf (err != .success) "KokkosComm::Request::test: request query failed"
    return (hasCompleted, request, m)
  complete := fun (request, m) =>
    match request with
    | some op => (request, m.finish op)
    | none => (request, m)
  Completed := fun (request, m) => m.done request = true
  completed_of_wait := by
    rintro ⟨request, m⟩ q' h
    unfold Mpi.mpiWait at h
    cases hd : m.done request <;> simp [hd] at h
    rw [← h]
    rfl
  completed_of_test := by
    rintro ⟨request, m⟩ q' h
    unfold Mpi.mpiTest at h
    cases hd : m.done request <;> simp [hd] at h
    rw [← h]
    rfl
  wait_of_completed := by
    rintro ⟨request, m⟩ (hd : m.done request = true)
    exact ⟨(none, m.settle [request] [request]), by simp [Mpi.mpiWait, hd]⟩
  test_of_completed := by
    rintro ⟨request, m⟩ (hd : m.done request = true)
    exact ⟨(none, m.settle [request] [request]), by simp [Mpi.mpiTest, hd]⟩

/-- `cudaEventSynchronize` and `cudaEventQuery`, on the event of the
request. -/
def ncclQuery : CompletionQuery (Option Nccl.EventId × Nccl.Cuda Token) where
  wait := fun (event, c) => do
    let (err, c) := Nccl.cudaEventSynchronize c event
    failIf (err != .cudaSuccess) "KokkosComm::Request::wait: request completion failed"
    return (event, c)
  test := fun (event, c) =>
    match Nccl.cudaEventQuery c event with
    | (.cudaSuccess, c) => .returns (true, event, c)
    | (.cudaErrorNotReady, c) => .returns (false, event, c)
    | (err, c) => do
      failIf (err != .cudaSuccess) "KokkosComm::Request::wait: request completion failed"
      return (false, event, c)
  complete := fun (event, c) =>
    match event with
    | some e => (event, { c with pending := Function.update c.pending e 0 })
    | none => (event, c)
  Completed := fun (event, c) => ∃ e, event = some e ∧ c.pending e = 0
  completed_of_wait := by
    rintro ⟨event, c⟩ q' h
    cases event with
    | none => cases h
    | some e =>
      cases h
      exact ⟨e, rfl, Function.update_self ..⟩
  completed_of_test := by
    rintro ⟨event, c⟩ q' h
    cases event with
    | none => cases h
    | some e =>
      by_cases h0 : c.pending e = 0
      · simp only [Nccl.cudaEventQuery, h0, if_true] at h
        cases h
        exact ⟨e, rfl, h0⟩
      · simp only [Nccl.cudaEventQuery, h0, if_false] at h
        cases h
  wait_of_completed := by
    rintro ⟨event, c⟩ ⟨e, rfl, -⟩
    exact ⟨_, rfl⟩
  test_of_completed := by
    rintro ⟨event, c⟩ ⟨e, rfl, h0⟩
    exact ⟨_, by simp only [Nccl.cudaEventQuery, h0, if_true]; rfl⟩

section Runs

variable (cq : CompletionQuery θ) (body : Token → List Token → Body) (q : θ)
  (actions : List Action)

/-- Every completion call on a completed operation finds a list that was not
executed before and behaves. -/
def Behaves : Prop :=
  Lts.AllAttempts (step cq body) (fun s a => a.Behaves cq body s) (.start q) actions

end Runs

end KokkosComm.Reentrancy
