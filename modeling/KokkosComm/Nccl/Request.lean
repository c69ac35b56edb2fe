/-
KokkosComm.Nccl.Request — `Request<NcclSpace>` and its free functions
(`nccl/request.hpp`), over a model of the CUDA event queries they make.

A request holds a `cudaEvent_t` (`none` is the null event of a default
constructed request) and a list of callbacks. A callback is an opaque
value of a type `κ`; running it appends it to the log `ran` of the
device state, so a statement about which callbacks ran, how often and in
which order is a statement about that log.

`cudaEventQuery` answers `cudaErrorNotReady` as long as the event has
queries left in `pending`, and `cudaSuccess` from then on. Every schedule
in which each event completes after finitely many unsuccessful queries is
one function `pending`, since only the number of unsuccessful queries of
each event can be observed. `reported` logs the events a query has
reported complete.

The polling loops `wait_all` and `wait_any` take the number of passes they
may make as fuel. A loop out of fuel has not returned (`Outcome.blocks`).
-/
import Mathlib.Logic.Function.Basic
import KokkosComm.Foundation.CInt
import KokkosComm.ErrorHandling

namespace KokkosComm.Nccl

abbrev EventId := Nat

/-- The `cudaError_t` values an event query can answer. -/
inductive CudaError where
  | cudaSuccess
  | cudaErrorNotReady
  | cudaErrorInvalidResourceHandle
  deriving DecidableEq, Repr

/-- What the event calls see of the device, and what they leave behind. -/
structure Cuda (κ : Type) where
  pending : EventId → Nat
  reported : List EventId
  ran : List κ

/-- A device on which nothing has been observed yet. -/
def Cuda.scheduled {κ : Type} (pending : EventId → Nat) : Cuda κ :=
  { pending := pending, reported := [], ran := [] }

variable {κ : Type}

/-- `cudaEventQuery(event)`. The null event is not a valid handle. -/
def cudaEventQuery (c : Cuda κ) : Option EventId → CudaError × Cuda κ
  | none => (.cudaErrorInvalidResourceHandle, c)
  | some e =>
    if c.pending e = 0 then (.cudaSuccess, { c with reported := c.reported ++ [e] })
    else (.cudaErrorNotReady,
      { c with pending := Function.update c.pending e (c.pending e - 1) })

/-- `cudaEventSynchronize(event)` blocks the host until the event is
complete, whatever the schedule. -/
def cudaEventSynchronize (c : Cuda κ) : Option EventId → CudaError × Cuda κ
  | none => (.cudaErrorInvalidResourceHandle, c)
  | some e =>
    (.cudaSuccess,
      { c with pending := Function.update c.pending e 0, reported := c.reported ++ [e] })

/-- `Request<NcclSpace>`: `request_` and `callbacks_`. -/
structure Request (κ : Type) where
  request_ : Option EventId
  callbacks_ : List κ
  deriving DecidableEq, Repr

namespace Request

/-- `Request()`. -/
def new : Request κ := { request_ := none, callbacks_ := [] }

/-- `add_callback`. -/
def addCallback (r : Request κ) (cb : κ) : Request κ :=
  { r with callbacks_ := r.callbacks_ ++ [cb] }

/-- `execute_all_callbacks`: the callbacks run in list order, then the
list is cleared. -/
def executeAllCallbacks (r : Request κ) (c : Cuda κ) : Request κ × Cuda κ :=
  ({ r with callbacks_ := [] }, { c with ran := c.ran ++ r.callbacks_ })

/-- `Request::wait`. -/
def wait (r : Request κ) (c : Cuda κ) : Outcome (Request κ × Cuda κ) := do
  let (err, c) := cudaEventSynchronize c r.request_
  failIf (err != .cudaSuccess) "KokkosComm::Request::wait: request completion failed"
  .returns (r.executeAllCallbacks c)

/-- `Request::test`. -/
def test (r : Request κ) (c : Cuda κ) : Outcome (Bool × Request κ × Cuda κ) :=
  match cudaEventQuery c r.request_ with
  | (.cudaSuccess, c) => .returns (true, r.executeAllCallbacks c)
  | (.cudaErrorNotReady, c) => .returns (false, r, c)
  | (err, c) => do
    failIf (err != .cudaSuccess) "KokkosComm::Request::wait: request completion failed"
    .returns (false, r, c)

end Request

/-! ## `wait_all` -/

/-- One pass of the polling loop: `for (auto& req : requests) { … }`. -/
def waitAllPass : List (Request κ) → Cuda κ → Int →
    Outcome (List (Request κ) × Cuda κ × Int)
  | [], c, remaining => .returns ([], c, remaining)
  | req :: rest, c, remaining =>
    match cudaEventQuery c req.request_ with
    | (.cudaSuccess, c) => do
      let (req, c) := req.executeAllCallbacks c
      let remaining ← CInt.pred remaining
      let (rest, c, remaining) ← waitAllPass rest c remaining
      .returns (req :: rest, c, remaining)
    | (.cudaErrorNotReady, c) => do
      let (rest, c, remaining) ← waitAllPass rest c remaining
      .returns (req :: rest, c, remaining)
    | (err, c) => do
      failIf (err != .cudaSuccess)
        "KokkosComm::Request::wait_all: request completions failed"
      let (rest, c, remaining) ← waitAllPass rest c remaining
      .returns (req :: rest, c, remaining)

/-- `while (remaining > 0) { … }`. -/
def waitAllLoop : Nat → List (Request κ) → Cuda κ → Int →
    Outcome (List (Request κ) × Cuda κ)
  | 0, requests, c, remaining =>
    if remaining > 0 then .blocks else .returns (requests, c)
  | fuel + 1, requests, c, remaining =>
    if remaining > 0 then do
      let (requests, c, remaining) ← waitAllPass requests c remaining
      waitAllLoop fuel requests c remaining
    else .returns (requests, c)

/-- `wait_all(std::span<Request<NcclSpace>> requests)`. -/
def waitAll (fuel : Nat) (requests : List (Request κ)) (c : Cuda κ) :
    Outcome (List (Request κ) × Cuda κ) :=
  if requests.isEmpty then .returns (requests, c)
  else
    -- int remaining = requests.size();
    let remaining := CInt.ofSize requests.length
    waitAllLoop fuel requests c remaining

/-! ## `wait_any` -/

/-- One pass over the span from index `r` on: the index of the first
request found complete, if there is one. -/
def waitAnyPass : Nat → List (Request κ) → Cuda κ →
    Outcome (Option Int × List (Request κ) × Cuda κ)
  | _, [], c => .returns (none, [], c)
  | r, req :: rest, c =>
    match cudaEventQuery c req.request_ with
    | (.cudaSuccess, c) =>
      let (req, c) := req.executeAllCallbacks c
      .returns (some (CInt.ofSize r), req :: rest, c)
    | (.cudaErrorNotReady, c) => do
      let (found, rest, c) ← waitAnyPass (r + 1) rest c
      .returns (found, req :: rest, c)
    | (err, c) => do
      failIf (err != .cudaSuccess)
        "KokkosComm::Request::wait_any: request completion failed"
      let (found, rest, c) ← waitAnyPass (r + 1) rest c
      .returns (found, req :: rest, c)

/-- `while (true) { … }`, left by `return` only. -/
def waitAnyLoop : Nat → List (Request κ) → Cuda κ →
    Outcome (Option Int × List (Request κ) × Cuda κ)
  | 0, _, _ => .blocks
  | fuel + 1, requests, c => do
    let (found, requests, c) ← waitAnyPass 0 requests c
    match found with
    | some r => .returns (some r, requests, c)
    | none => waitAnyLoop fuel requests c

/-- `wait_any(std::span<Request<NcclSpace>> requests)`. -/
def waitAny (fuel : Nat) (requests : List (Request κ)) (c : Cuda κ) :
    Outcome (Option Int × List (Request κ) × Cuda κ) :=
  if requests.isEmpty then .returns (none, requests, c)
  else waitAnyLoop fuel requests c

end KokkosComm.Nccl
