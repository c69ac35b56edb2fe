/-
KokkosComm.Nccl.WaitAllTheorems — what `wait_all` on NCCL requests has
done when it returns.

The loop keeps ONE counter, decremented every time a query answers
`cudaSuccess`, but re-scans ALL requests on every pass. A request found
complete in an early pass is found complete, and counted, again in every
later pass. So the counter runs out after the first pass `p` with
`found (p + 1) ≥ n`, where `Polling.found` counts with repetition, and
not after the pass in which the last event completes.

§1 gives one pass in closed form (`waitAllPass_eq`), §2 the state after
`p` passes (`AfterPasses`) and what a returning loop has reached
(`waitAllLoop_returns`), §3 the exact condition under which everything is
complete then (`waitAll_completes_iff`).

The counter is an `int` initialised from a `size_t`. Beyond `INT_MAX`
requests it starts negative, or too small, or is decremented below
`INT_MIN`; none of these spans is completed either.
-/
import Mathlib.Data.List.Basic
import KokkosComm.Foundation.Polling
import KokkosComm.Nccl.Request

namespace KokkosComm.Nccl

variable {κ : Type}

/-- A span of requests that have each captured an event of their own. -/
structure CapturedSpan (κ : Type) where
  requests : List (Request κ)
  events : List EventId
  captured : requests.map Request.request_ = events.map some
  distinct : events.Nodup

/-! ## §1 One pass -/

/-- The request's event answers `cudaSuccess` to a query. -/
def ready (k : EventId → Nat) (r : Request κ) : Bool :=
  match r.request_ with
  | some e => k e == 0
  | none => false

/-- What a pass makes of one request. -/
def passRequest (k : EventId → Nat) (r : Request κ) : Request κ :=
  if ready k r then { r with callbacks_ := [] } else r

/-- What a pass makes of the device. -/
def passCuda (requests : List (Request κ)) (events : List EventId) (c : Cuda κ) : Cuda κ where
  pending e := if e ∈ events then c.pending e - 1 else c.pending e
  reported := c.reported ++ events.filter fun e => c.pending e == 0
  ran := c.ran ++ (requests.filter (ready c.pending)).flatMap Request.callbacks_

theorem Cuda.ext' {c d : Cuda κ} (hp : ∀ e, c.pending e = d.pending e)
    (hr : c.reported = d.reported) (hran : c.ran = d.ran) : c = d := by
  cases c; cases d
  simp only [Cuda.mk.injEq]
  exact ⟨funext hp, hr, hran⟩

theorem ready_congr {k k' : EventId → Nat} {r : Request κ}
    (h : ∀ e, r.request_ = some e → k' e = k e) : ready k' r = ready k r := by
  unfold ready
  cases hr : r.request_ with
  | none => rfl
  | some e => simp [h e hr]

/-- The requests of a captured span carry events of the list. -/
theorem mem_events {reqs : List (Request κ)} {events : List EventId}
    (hcap : reqs.map Request.request_ = events.map some) {r : Request κ} (hr : r ∈ reqs)
    {e : EventId} (he : r.request_ = some e) : e ∈ events := by
  have h : some e ∈ reqs.map Request.request_ := List.mem_map.mpr ⟨r, hr, he⟩
  rw [hcap] at h
  simpa using h

/-- A query of the event `e` does not change what other requests will see. -/
theorem ready_update {c : Cuda κ} {rest : List (Request κ)} {es : List EventId}
    (hrest : rest.map Request.request_ = es.map some) {e : EventId} (hne : e ∉ es) (v : Nat)
    {r : Request κ} (hr : r ∈ rest) :
    ready (Function.update c.pending e v) r = ready c.pending r := by
  refine ready_congr fun e' he' => Function.update_of_ne ?_ _ _
  rintro rfl
  exact hne (mem_events hrest hr he')

theorem countP_update {k : EventId → Nat} {e : EventId} {es : List EventId} (hne : e ∉ es)
    (v : Nat) : (es.countP fun e' => Function.update k e v e' == 0)
      = es.countP fun e' => k e' == 0 := by
  refine List.countP_congr fun e' he' => ?_
  rw [Function.update_of_ne (ne_of_mem_of_not_mem he' hne)]

/-- The device after a pass whose first request was found complete. -/
theorem passCuda_ready {c : Cuda κ} {req : Request κ} {rest : List (Request κ)}
    {e : EventId} {es : List EventId} (h0 : c.pending e = 0)
    (hready : ready c.pending req = true) :
    passCuda rest es { c with reported := c.reported ++ [e], ran := c.ran ++ req.callbacks_ }
      = passCuda (req :: rest) (e :: es) c := by
  refine Cuda.ext' (fun e' => ?_) ?_ ?_
  · by_cases he' : e' = e
    · subst he'; simp [passCuda, h0]
    · simp [passCuda, he']
  · simp [passCuda, h0]
  · simp [passCuda, hready]

/-- The device after a pass whose first request was not yet complete. -/
theorem passCuda_notReady {c : Cuda κ} {req : Request κ} {rest : List (Request κ)}
    {e : EventId} {es : List EventId} (hrest : rest.map Request.request_ = es.map some)
    (hne : e ∉ es) (h0 : c.pending e ≠ 0) (hready : ready c.pending req = false) :
    passCuda rest es { c with pending := Function.update c.pending e (c.pending e - 1) }
      = passCuda (req :: rest) (e :: es) c := by
  refine Cuda.ext' (fun e' => ?_) ?_ ?_
  · by_cases he' : e' = e
    · subst he'; simp [passCuda, hne]
    · simp [passCuda, he']
  · simp only [passCuda, List.filter_cons, beq_iff_eq, h0, if_false]
    congr 1
    refine List.filter_congr fun e' he' => ?_
    rw [Function.update_of_ne (ne_of_mem_of_not_mem he' hne)]
  · simp only [passCuda, List.filter_cons, hready, Bool.false_eq_true, if_false]
    congr 2
    exact List.filter_congr fun r hr => ready_update hrest hne _ hr

/-- One pass in closed form. The counter loses one for each request found
complete, and leaves the range of `int` when there are too many. -/
theorem waitAllPass_eq (reqs : List (Request κ)) (events : List EventId)
    (hcap : reqs.map Request.request_ = events.map some) (hnd : events.Nodup)
    (c : Cuda κ) (remaining : Int) (hmin : CInt.intMin ≤ remaining) :
    waitAllPass reqs c remaining =
      if remaining - (events.countP fun e => c.pending e == 0) < CInt.intMin then .undefined
      else .returns (reqs.map (passRequest c.pending), passCuda reqs events c,
        remaining - (events.countP fun e => c.pending e == 0)) := by
  induction reqs generalizing events c remaining with
  | nil =>
    obtain rfl : events = [] := by simpa using hcap.symm
    have : ¬ remaining < CInt.intMin := by omega
    simp [waitAllPass, passCuda, this]
  | cons req rest ih =>
    cases events with
    | nil => simp at hcap
    | cons e es =>
      simp only [List.map_cons, List.cons.injEq] at hcap
      obtain ⟨hreq, hrest⟩ := hcap
      obtain ⟨hne, hnd⟩ := List.nodup_cons.mp hnd
      by_cases h0 : c.pending e = 0
      · have hready : ready c.pending req = true := by simp [ready, hreq, h0]
        have hpass : passRequest c.pending req = { request_ := some e, callbacks_ := [] } := by
          simp [passRequest, hready, hreq]
        simp only [waitAllPass, cudaEventQuery, hreq, h0, if_true, Request.executeAllCallbacks,
          List.countP_cons, beq_self_eq_true]
        by_cases hlow : remaining ≤ CInt.intMin
        · rw [CInt.pred_of_le hlow, if_pos (by omega)]
          rfl
        · rw [CInt.pred_of_lt (by omega), Outcome.returns_bind, ih es hrest hnd _ _ (by omega),
            passCuda_ready h0 hready, List.map_cons, hpass]
          have harith : ∀ x : Nat,
              remaining - 1 - (x : Int) = remaining - ((x + 1 : Nat) : Int) := by
            intro x; omega
          rw [harith]
          split <;> rfl
      · have hready : ready c.pending req = false := by simp [ready, hreq, h0]
        have hpass : passRequest c.pending req = req := if_neg (by simp [hready])
        have hmap : rest.map (passRequest (Function.update c.pending e (c.pending e - 1)))
            = rest.map (passRequest c.pending) :=
          List.map_congr_left fun r hr => by simp only [passRequest, ready_update hrest hne _ hr]
        simp only [waitAllPass, cudaEventQuery, hreq, h0, if_false, List.countP_cons, beq_iff_eq,
          Nat.add_zero]
        rw [ih es hrest hnd _ _ hmin, passCuda_notReady hrest hne h0 hready, List.map_cons, hpass,
          hmap, countP_update hne]
        split <;> rfl

/-! ## §2 The loop -/

/-- The state after `p` passes over a span on the schedule `k`: events due
before pass `p` have been reported, their requests' callbacks have run and
are gone, and the counter has lost one per successful query. -/
structure AfterPasses (s : CapturedSpan κ) (k : EventId → Nat) (p : Nat)
    (requests : List (Request κ)) (c : Cuda κ) (remaining : Int) : Prop where
  captured : requests.map Request.request_ = s.events.map some
  pending : ∀ e ∈ s.events, c.pending e = k e - p
  reported : ∀ e ∈ s.events, e ∈ c.reported ↔ k e < p
  cleared : ∀ r ∈ requests, ∀ e, r.request_ = some e → k e < p → r.callbacks_ = []
  ran : (c.ran ++ requests.flatMap Request.callbacks_).Perm
    (s.requests.flatMap Request.callbacks_)
  counter : remaining = CInt.ofSize s.requests.length - Polling.found k s.events p
  bound : CInt.intMin ≤ remaining

theorem CapturedSpan.length_events (s : CapturedSpan κ) :
    s.events.length = s.requests.length := by
  have := congrArg List.length s.captured
  simpa using this.symm

theorem CapturedSpan.events_ne_nil (s : CapturedSpan κ) (h : s.requests ≠ []) :
    s.events ≠ [] := by
  intro hev
  have := s.length_events
  rw [hev] at this
  exact h (List.eq_nil_of_length_eq_zero this.symm)

theorem afterPasses_zero (s : CapturedSpan κ) (k : EventId → Nat)
    (h : 0 ≤ CInt.ofSize s.requests.length) :
    AfterPasses s k 0 s.requests (Cuda.scheduled k) (CInt.ofSize s.requests.length) where
  captured := s.captured
  pending := fun e _ => by simp [Cuda.scheduled]
  reported := fun e _ => by simp [Cuda.scheduled]
  cleared := fun _ _ _ _ hlt => absurd hlt (Nat.not_lt_zero _)
  ran := by simp [Cuda.scheduled]
  counter := by simp
  bound := by unfold CInt.intMin; omega

/-- Running the callbacks of the ready requests and clearing them moves
them from the requests to the log. -/
theorem flatMap_passRequest_perm (k : EventId → Nat) (requests : List (Request κ)) :
    ((requests.filter (ready k)).flatMap Request.callbacks_
      ++ (requests.map (passRequest k)).flatMap Request.callbacks_).Perm
      (requests.flatMap Request.callbacks_) := by
  induction requests with
  | nil => simp
  | cons r rest ih =>
    by_cases h : ready k r = true
    · simp only [List.filter_cons, h, if_true, List.flatMap_cons, List.map_cons, passRequest,
        List.nil_append, List.append_assoc]
      exact ih.append_left _
    · simp only [List.filter_cons, h, if_false, List.flatMap_cons, List.map_cons, passRequest,
        Bool.false_eq_true]
      rw [← List.append_assoc]
      refine (List.perm_append_comm.append_right _).trans ?_
      rw [List.append_assoc]
      exact ih.append_left _

theorem passRequest_request (k : EventId → Nat) (r : Request κ) :
    (passRequest k r).request_ = r.request_ := by
  unfold passRequest
  split <;> rfl

/-- One more pass, when the counter stays in range. -/
theorem AfterPasses.pass {s : CapturedSpan κ} {k : EventId → Nat} {p : Nat}
    {requests : List (Request κ)} {c : Cuda κ} {remaining : Int}
    (h : AfterPasses s k p requests c remaining)
    (hlow : CInt.intMin ≤ remaining - (s.events.countP fun e => c.pending e == 0)) :
    AfterPasses s k (p + 1) (requests.map (passRequest c.pending))
      (passCuda requests s.events c)
      (remaining - (s.events.countP fun e => c.pending e == 0)) where
  captured := by
    rw [← h.captured, List.map_map]
    exact List.map_congr_left fun r _ => passRequest_request _ r
  pending := fun e he => by
    simp only [passCuda, if_pos he, h.pending e he]
    omega
  reported := fun e he => by
    have hp := h.pending e he
    simp only [passCuda, List.mem_append, h.reported e he, List.mem_filter, he, true_and,
      beq_iff_eq, hp]
    omega
  cleared := by
    intro r' hr' e he hlt
    obtain ⟨r, hr, rfl⟩ := List.mem_map.mp hr'
    rw [passRequest_request] at he
    have hev : e ∈ s.events := mem_events h.captured hr he
    have hp := h.pending e hev
    by_cases hk : k e < p
    · have := h.cleared r hr e he hk
      unfold passRequest
      split
      · rfl
      · exact this
    · have : ready c.pending r = true := by
        simp only [ready, he, beq_iff_eq]
        omega
      simp [passRequest, this]
  ran := by
    simp only [passCuda, List.append_assoc]
    exact ((flatMap_passRequest_perm c.pending requests).append_left _).trans h.ran
  counter := by
    have hcount : (s.events.countP fun e => c.pending e == 0)
        = s.events.countP fun e => k e ≤ p := by
      refine List.countP_congr fun e he => ?_
      simp only [h.pending e he, beq_iff_eq, decide_eq_true_eq]
      omega
    rw [hcount, h.counter, Polling.found_succ]
    omega
  bound := hlow

/-- Where a loop that returns has got to: the first pass after which the
queries answered `cudaSuccess`, counted with repetition, exhaust the
counter. -/
theorem waitAllLoop_returns {s : CapturedSpan κ} {k : EventId → Nat} (fuel : Nat) {p : Nat}
    {requests : List (Request κ)} {c : Cuda κ} {remaining : Int}
    (h : AfterPasses s k p requests c remaining)
    (hbefore : ∀ q < p, (Polling.found k s.events q : Int) < CInt.ofSize s.requests.length)
    {out : List (Request κ) × Cuda κ}
    (hout : waitAllLoop fuel requests c remaining = .returns out) :
    ∃ p' remaining', AfterPasses s k p' out.1 out.2 remaining' ∧ remaining' ≤ 0 ∧
      ∀ q < p', (Polling.found k s.events q : Int) < CInt.ofSize s.requests.length := by
  induction fuel generalizing p requests c remaining with
  | zero =>
    simp only [waitAllLoop] at hout
    split at hout
    · cases hout
    · cases hout
      exact ⟨p, remaining, h, by omega, hbefore⟩
  | succ fuel ih =>
    simp only [waitAllLoop] at hout
    split at hout
    · rename_i hpos
      rw [waitAllPass_eq _ _ h.captured s.distinct _ _ h.bound] at hout
      split at hout
      · cases hout
      · rename_i hlow
        refine ih (h.pass (by omega)) ?_ hout
        intro q hq
        rcases Nat.lt_succ_iff_lt_or_eq.mp hq with hq | rfl
        · exact hbefore q hq
        · have := h.counter
          omega
    · cases hout
      exact ⟨p, remaining, h, by omega, hbefore⟩

/-- With fuel for the passes up to `p'` the loop is over. It cannot abort:
every request of the span has an event to query. -/
theorem waitAllLoop_ends {s : CapturedSpan κ} {k : EventId → Nat} (fuel : Nat) {p p' : Nat}
    (hp : p' ≤ p + fuel)
    (hp' : CInt.ofSize s.requests.length ≤ Polling.found k s.events p')
    {requests : List (Request κ)} {c : Cuda κ} {remaining : Int}
    (h : AfterPasses s k p requests c remaining) :
    waitAllLoop fuel requests c remaining = .undefined ∨
      ∃ out, waitAllLoop fuel requests c remaining = .returns out := by
  induction fuel generalizing p requests c remaining with
  | zero =>
    have hmono := Polling.found_mono k s.events (show p' ≤ p by omega)
    have := h.counter
    simp only [waitAllLoop]
    rw [if_neg (by omega)]
    exact .inr ⟨_, rfl⟩
  | succ fuel ih =>
    simp only [waitAllLoop]
    split
    · rw [waitAllPass_eq _ _ h.captured s.distinct _ _ h.bound]
      split
      · exact .inl rfl
      · rename_i hlow
        exact ih (by omega) (h.pass (by omega))
    · exact .inr ⟨_, rfl⟩

/-- In spans of at most `INT_MAX` requests the counter stays in range. -/
theorem waitAllLoop_defined {s : CapturedSpan κ} {k : EventId → Nat} (fuel : Nat)
    (hlt : s.requests.length < 2147483648) {p : Nat} {requests : List (Request κ)} {c : Cuda κ}
    {remaining : Int} (h : AfterPasses s k p requests c remaining) :
    waitAllLoop fuel requests c remaining ≠ .undefined := by
  induction fuel generalizing p requests c remaining with
  | zero =>
    simp only [waitAllLoop]
    split <;> simp
  | succ fuel ih =>
    simp only [waitAllLoop]
    split
    · rename_i hpos
      have hle := List.countP_le_length (l := s.events) (p := fun e => c.pending e == 0)
      have hlen := s.length_events
      have hlow : CInt.intMin ≤ remaining - (s.events.countP fun e => c.pending e == 0) := by
        unfold CInt.intMin
        omega
      rw [waitAllPass_eq _ _ h.captured s.distinct _ _ h.bound, if_neg (by omega)]
      exact ih (h.pass hlow)
    · simp

/-! ## §3 When everything is complete on return -/

/-- What `wait_all` promises: every event has been reported complete, and
the callbacks of every request have run exactly once and are cleared. -/
def AllCompleted (s : CapturedSpan κ) (out : List (Request κ) × Cuda κ) : Prop :=
  (∀ e ∈ s.events, e ∈ out.2.reported) ∧
  out.2.ran.Perm (s.requests.flatMap Request.callbacks_) ∧
  ∀ r ∈ out.1, r.callbacks_ = []

theorem AfterPasses.allCompleted {s : CapturedSpan κ} {k : EventId → Nat} {p : Nat}
    {requests : List (Request κ)} {c : Cuda κ} {remaining : Int}
    (h : AfterPasses s k p requests c remaining) (hall : ∀ e ∈ s.events, k e < p) :
    AllCompleted s (requests, c) := by
  have hcleared : ∀ r ∈ requests, r.callbacks_ = [] := by
    intro r hr
    have hmem : r.request_ ∈ requests.map Request.request_ := List.mem_map.mpr ⟨r, hr, rfl⟩
    rw [h.captured] at hmem
    obtain ⟨e, he, hre⟩ := List.mem_map.mp hmem
    exact h.cleared r hr e hre.symm (hall e he)
  refine ⟨fun e he => (h.reported e he).mpr (hall e he), ?_, hcleared⟩
  have hnil : requests.flatMap Request.callbacks_ = [] := List.flatMap_eq_nil_iff.mpr hcleared
  have := h.ran
  rwa [hnil, List.append_nil] at this

theorem waitAll_eq_loop {s : CapturedSpan κ} (hnil : s.requests ≠ []) (k : EventId → Nat)
    (fuel : Nat) : waitAll fuel s.requests (Cuda.scheduled k) =
      waitAllLoop fuel s.requests (Cuda.scheduled k) (CInt.ofSize s.requests.length) := by
  unfold waitAll
  rw [if_neg (by simp [hnil])]

/-- A counter that starts at or below zero lets the loop return at once. -/
theorem ofSize_pos_of_meets {s : CapturedSpan κ} {k : EventId → Nat} (hnil : s.requests ≠ [])
    (h : (waitAll 0 s.requests (Cuda.scheduled k)).Meets (AllCompleted s)) :
    0 < CInt.ofSize s.requests.length := by
  by_contra hle
  rw [waitAll_eq_loop hnil, waitAllLoop, if_neg hle, Outcome.meets_returns] at h
  obtain ⟨e, he⟩ := List.exists_mem_of_ne_nil _ (s.events_ne_nil hnil)
  simpa [Cuda.scheduled] using h.1 e he

/-- If the loop has found everything complete when it ends, the counter was
positive until the last event was, and exact. -/
theorem found_lt_of_meets {s : CapturedSpan κ} {k : EventId → Nat} (hnil : s.requests ≠ [])
    (h : ∀ fuel, (waitAll fuel s.requests (Cuda.scheduled k)).Meets (AllCompleted s)) :
    s.requests.length < 2147483648 ∧
      Polling.found k s.events (Polling.last k s.events) < s.requests.length := by
  have hne := s.events_ne_nil hnil
  have hpos := ofSize_pos_of_meets hnil (h 0)
  obtain ⟨p', hp'⟩ := Polling.exists_le_found k hne s.requests.length
  have hsize := CInt.ofSize_le s.requests.length
  have hinit := afterPasses_zero s k (by omega)
  have hout := h p'
  rw [waitAll_eq_loop hnil] at hout
  rcases waitAllLoop_ends p' (Nat.le_add_left _ _) (by omega) hinit with hu | ⟨out, hr⟩
  · rw [hu] at hout
    exact hout.elim
  rw [hr, Outcome.meets_returns] at hout
  obtain ⟨q, remaining, hq, hend, hbefore⟩ :=
    waitAllLoop_returns p' hinit (fun _ h => absurd h (Nat.not_lt_zero _)) hr
  have hdue : ∀ e ∈ s.events, k e < q := fun e he => (hq.reported e he).mp (hout.1 e he)
  have hlast := Polling.last_lt k hne hdue
  -- the last pass found all requests, and the counter was positive before it
  obtain ⟨q, rfl⟩ : ∃ m, q = m + 1 := ⟨q - 1, by omega⟩
  have hfound := hbefore q (Nat.lt_succ_self q)
  have hall := Polling.countP_of_all_ready k fun e he => Nat.lt_succ_iff.mp (hdue e he)
  have hsucc := Polling.found_succ k s.events q
  have hmono := Polling.found_mono k s.events (Nat.lt_succ_iff.mp hlast)
  have hcounter := hq.counter
  have hbound := hq.bound
  have hmax := CInt.ofSize_le_intMax s.requests.length
  have hlen := s.length_events
  unfold CInt.intMin at hbound
  unfold CInt.intMax at hmax
  have hexact := CInt.ofSize_of_nonneg (n := s.requests.length) (by omega) (by omega)
  exact ⟨(CInt.ofSize_eq_self_iff _).mp hexact, by omega⟩

/-- An exact counter that outlasts the last event. -/
theorem meets_of_found_lt {s : CapturedSpan κ} {k : EventId → Nat} (hnil : s.requests ≠ [])
    (hlt : s.requests.length < 2147483648)
    (hlast : Polling.found k s.events (Polling.last k s.events) < s.requests.length)
    (fuel : Nat) : (waitAll fuel s.requests (Cuda.scheduled k)).Meets (AllCompleted s) := by
  have hexact := CInt.ofSize_of_lt hlt
  have hinit := afterPasses_zero s k (by omega)
  rw [waitAll_eq_loop hnil]
  cases hout : waitAllLoop fuel s.requests (Cuda.scheduled k)
      (CInt.ofSize s.requests.length) with
  | blocks => trivial
  | aborts => trivial
  | undefined => exact (waitAllLoop_defined fuel hlt hinit hout).elim
  | returns out =>
    obtain ⟨q, remaining, hq, hend, hbefore⟩ :=
      waitAllLoop_returns fuel hinit (fun _ h => absurd h (Nat.not_lt_zero _)) hout
    refine hq.allCompleted fun e he => ?_
    by_contra hnot
    have hmono := Polling.found_mono k s.events
      (Nat.le_trans (Nat.not_lt.mp hnot) (Polling.le_last k he))
    have := hq.counter
    omega

/-- **`wait_all` completes everything exactly when** the span is empty, or
has at most `INT_MAX` requests whose events, found complete again and
again by the passes before the last one, do not exhaust the counter: the
number of passes by which they precede the last event, summed over the
span, stays below the number of requests. -/
theorem waitAll_completes_iff (s : CapturedSpan κ) (k : EventId → Nat) :
    (∀ fuel, (waitAll fuel s.requests (Cuda.scheduled k)).Meets (AllCompleted s)) ↔
      s.requests = [] ∨ (s.requests.length < 2147483648 ∧
        (s.events.map fun e => Polling.last k s.events - k e).sum < s.requests.length) := by
  rw [← Polling.found]
  by_cases hnil : s.requests = []
  · have hev : s.events = [] := List.eq_nil_of_length_eq_zero (by simp [s.length_events, hnil])
    simp [hnil, waitAll, AllCompleted, hev, Cuda.scheduled]
  · simp only [hnil, false_or]
    exact ⟨found_lt_of_meets hnil, fun h => meets_of_found_lt hnil h.1 h.2⟩

instance [DecidableEq κ] (s : CapturedSpan κ) : DecidablePred (AllCompleted s) :=
  fun _ => inferInstanceAs (Decidable (_ ∧ _ ∧ _))

/-- Two requests, the second due two passes after the first: the first one
is counted in both passes, and the second is left behind. -/
theorem waitAll_leaves_request_behind :
    ¬ ∀ (s : CapturedSpan Nat) (k : EventId → Nat) (fuel : Nat),
      (waitAll fuel s.requests (Cuda.scheduled k)).Meets (AllCompleted s) := by
  intro h
  have hcount := h
    { requests := [⟨some 0, [10]⟩, ⟨some 1, [11]⟩], events := [0, 1],
      captured := rfl, distinct := by decide }
    (fun e => if e = 1 then 2 else 0) 2
  revert hcount
  decide +kernel

/-- The loop ends on every schedule, complete or not. -/
theorem waitAll_terminates (s : CapturedSpan κ) (k : EventId → Nat)
    (hlt : s.requests.length < 2147483648) :
    ∃ fuel out, waitAll fuel s.requests (Cuda.scheduled k) = .returns out := by
  by_cases hnil : s.requests = []
  · exact ⟨0, _, if_pos (by simp [hnil])⟩
  have hne := s.events_ne_nil hnil
  obtain ⟨p', hp'⟩ := Polling.exists_le_found k hne s.requests.length
  have hexact := CInt.ofSize_of_lt hlt
  have hinit := afterPasses_zero s k (by omega)
  refine ⟨p', ?_⟩
  rw [waitAll_eq_loop hnil]
  rcases waitAllLoop_ends p' (Nat.le_add_left _ _) (by omega) hinit with hu | hr
  · exact (waitAllLoop_defined p' hlt hinit hu).elim
  · exact hr

/-! ## §4 One request of the span

What follows of `wait_all` without a word on the schedule: each request is
as it was, or its event was reported and its callbacks have run. -/

/-- What polling some requests may have done. -/
structure Polled (requests : List (Request κ)) (c : Cuda κ) (requests' : List (Request κ))
    (c' : Cuda κ) : Prop where
  length : requests'.length = requests.length
  reported : c.reported ⊆ c'.reported
  ran : c.ran ⊆ c'.ran
  request : ∀ (i : Nat) r, requests[i]? = some r → requests'[i]? = some r ∨
    ∃ e, r.request_ = some e ∧ e ∈ c'.reported ∧ r.callbacks_ ⊆ c'.ran ∧
      requests'[i]? = some { r with callbacks_ := [] }
  origin : ∀ cb ∈ c'.ran, cb ∈ c.ran ∨ ∃ (i : Nat) (r : Request κ) (e : EventId),
    requests[i]? = some r ∧ cb ∈ r.callbacks_ ∧ r.request_ = some e ∧ e ∈ c'.reported

namespace Polled

variable {requests requests' requests'' : List (Request κ)} {c c' c'' : Cuda κ}

theorem refl (requests : List (Request κ)) (c : Cuda κ) : Polled requests c requests c :=
  ⟨rfl, List.Subset.refl _, List.Subset.refl _, fun _ _ h => .inl h, fun _ h => .inl h⟩

theorem trans (h : Polled requests c requests' c') (h' : Polled requests' c' requests'' c'') :
    Polled requests c requests'' c'' where
  length := h'.length.trans h.length
  reported := List.Subset.trans h.reported h'.reported
  ran := List.Subset.trans h.ran h'.ran
  request := by
    intro i r hr
    rcases h.request i r hr with hr' | ⟨e, he, hmem, hsub, hr'⟩
    · exact h'.request i r hr'
    · rcases h'.request i _ hr' with hr'' | ⟨e', -, -, -, hr''⟩
      · exact .inr ⟨e, he, h'.reported hmem, List.Subset.trans hsub h'.ran, hr''⟩
      · exact .inr ⟨e, he, h'.reported hmem, List.Subset.trans hsub h'.ran, hr''⟩
  origin := by
    intro cb hcb
    rcases h'.origin cb hcb with hcb | ⟨i, r', e, hr', hcb, he, hmem⟩
    · rcases h.origin cb hcb with hcb | ⟨i, r, e, hr, hcb, he, hmem⟩
      · exact .inl hcb
      · exact .inr ⟨i, r, e, hr, hcb, he, h'.reported hmem⟩
    · have hlt : i < requests.length := by
        rw [← h.length]
        exact (List.getElem?_eq_some_iff.mp hr').1
      have hr : requests[i]? = some requests[i] := List.getElem?_eq_getElem hlt
      -- a request that was cleared has nothing left to run
      rcases h.request i _ hr with hsame | ⟨e', -, -, -, hclear⟩
      · cases hr'.symm.trans hsame
        exact .inr ⟨i, _, e, hr, hcb, he, hmem⟩
      · cases hr'.symm.trans hclear
        cases hcb

end Polled

/-- A pass that finds its first request complete. -/
theorem Polled.cons_ready {req : Request κ} {rest rest' : List (Request κ)} {c c' : Cuda κ}
    {e : EventId} (he : req.request_ = some e)
    (h : Polled rest { c with reported := c.reported ++ [e], ran := c.ran ++ req.callbacks_ }
      rest' c') :
    Polled (req :: rest) c ({ req with callbacks_ := [] } :: rest') c' where
  length := congrArg Nat.succ h.length
  reported := List.Subset.trans (List.subset_append_left _ _) h.reported
  ran := List.Subset.trans (List.subset_append_left _ _) h.ran
  request := by
    intro i r hr
    cases i with
    | zero =>
      cases hr
      exact .inr ⟨e, he, h.reported (List.mem_append_right _ (.head _)),
        List.Subset.trans (List.subset_append_right _ _) h.ran, rfl⟩
    | succ i => exact h.request i r hr
  origin := by
    intro cb hcb
    rcases h.origin cb hcb with hcb | ⟨i, r, e', hr, hcb, he', hmem⟩
    · rcases List.mem_append.mp hcb with hcb | hcb
      · exact .inl hcb
      · exact .inr ⟨0, req, e, rfl, hcb, he, h.reported (List.mem_append_right _ (.head _))⟩
    · exact .inr ⟨i + 1, r, e', hr, hcb, he', hmem⟩

/-- A pass that does not. -/
theorem Polled.cons_notReady {req : Request κ} {rest rest' : List (Request κ)} {c c₁ c' : Cuda κ}
    (h : Polled rest c₁ rest' c') (hreported : c₁.reported = c.reported) (hran : c₁.ran = c.ran) :
    Polled (req :: rest) c (req :: rest') c' where
  length := congrArg Nat.succ h.length
  reported := by
    rw [← hreported]
    exact h.reported
  ran := by
    rw [← hran]
    exact h.ran
  request := by
    intro i r hr
    cases i with
    | zero => exact .inl hr
    | succ i => exact h.request i r hr
  origin := by
    intro cb hcb
    rcases h.origin cb hcb with hcb | ⟨i, r, e', hr, hcb, he', hmem⟩
    · rw [hran] at hcb
      exact .inl hcb
    · exact .inr ⟨i + 1, r, e', hr, hcb, he', hmem⟩

theorem waitAllPass_polled {requests requests' : List (Request κ)} {c c' : Cuda κ}
    {remaining remaining' : Int}
    (h : waitAllPass requests c remaining = .returns (requests', c', remaining')) :
    Polled requests c requests' c' := by
  induction requests generalizing c remaining requests' with
  | nil =>
    cases h
    exact .refl _ _
  | cons req rest ih =>
    unfold waitAllPass cudaEventQuery at h
    cases hreq : req.request_ with
    | none =>
      rw [hreq] at h
      cases h
    | some e =>
      rw [hreq] at h
      by_cases h0 : c.pending e = 0
      · simp only [h0, if_true] at h
        obtain ⟨remaining₁, -, h⟩ := Outcome.bind_eq_returns.mp h
        obtain ⟨⟨rest', c₁, remaining₂⟩, hrest, h⟩ := Outcome.bind_eq_returns.mp h
        cases h
        exact (ih hrest).cons_ready hreq
      · simp only [h0, if_false] at h
        obtain ⟨⟨rest', c₁, remaining₂⟩, hrest, h⟩ := Outcome.bind_eq_returns.mp h
        cases h
        exact (ih hrest).cons_notReady rfl rfl

theorem waitAll_polled {fuel : Nat} {requests : List (Request κ)} {c : Cuda κ}
    {out : List (Request κ) × Cuda κ} (h : waitAll fuel requests c = .returns out) :
    Polled requests c out.1 out.2 := by
  have hloop : ∀ fuel (requests : List (Request κ)) (c : Cuda κ) remaining,
      waitAllLoop fuel requests c remaining = .returns out → Polled requests c out.1 out.2 := by
    intro fuel
    induction fuel with
    | zero =>
      intro requests c remaining h
      simp only [waitAllLoop] at h
      split at h
      · cases h
      · cases h
        exact .refl _ _
    | succ fuel ih =>
      intro requests c remaining h
      simp only [waitAllLoop] at h
      split at h
      · obtain ⟨⟨requests₁, c₁, remaining₁⟩, hpass, h⟩ := Outcome.bind_eq_returns.mp h
        exact (waitAllPass_polled hpass).trans (ih requests₁ c₁ remaining₁ h)
      · cases h
        exact .refl _ _
  unfold waitAll at h
  split at h
  · cases h
    exact .refl _ _
  · exact hloop fuel requests c _ h

section Returned

variable {s : CapturedSpan κ} {k : EventId → Nat} {fuel : Nat}
  {out : List (Request κ) × Cuda κ}

/-- A negative counter lets the loop return at once; any other one is used
up. -/
theorem waitAll_passes (hnil : s.requests ≠ [])
    (h : waitAll fuel s.requests (Cuda.scheduled k) = .returns out) :
    (CInt.ofSize s.requests.length < 0 ∧ out.2.reported = []) ∨
      ∃ p remaining, AfterPasses s k p out.1 out.2 remaining ∧ remaining ≤ 0 ∧
        ∀ q < p, (Polling.found k s.events q : Int) < CInt.ofSize s.requests.length := by
  rw [waitAll_eq_loop hnil] at h
  by_cases hpos : 0 ≤ CInt.ofSize s.requests.length
  · exact .inr (waitAllLoop_returns fuel (afterPasses_zero s k hpos)
      (fun _ h => absurd h (Nat.not_lt_zero _)) h)
  · refine .inl ⟨by omega, ?_⟩
    cases fuel with
    | zero =>
      rw [waitAllLoop, if_neg (by omega)] at h
      cases h
      rfl
    | succ fuel =>
      rw [waitAllLoop, if_neg (by omega)] at h
      cases h
      rfl

variable {e : EventId}

theorem CapturedSpan.ne_nil_of_mem (he : e ∈ s.events) : s.requests ≠ [] := by
  intro hnil
  have := s.length_events
  rw [hnil] at this
  rw [List.eq_nil_of_length_eq_zero this] at he
  cases he

/-- An event has been reported on return exactly when the passes by which
the other events precede it do not exhaust the counter. -/
theorem waitAll_reported_iff (h : waitAll fuel s.requests (Cuda.scheduled k) = .returns out)
    (he : e ∈ s.events) : e ∈ out.2.reported ↔
      (Polling.found k s.events (k e) : Int) < CInt.ofSize s.requests.length := by
  rcases waitAll_passes (CapturedSpan.ne_nil_of_mem he) h with
    ⟨hneg, hnone⟩ | ⟨p, remaining, hp, hend, hbefore⟩
  · rw [hnone]
    exact ⟨nofun, fun hlt => by omega⟩
  · rw [hp.reported e he]
    refine ⟨hbefore (k e), fun hlt => ?_⟩
    by_contra hnot
    have hmono := Polling.found_mono k s.events (Nat.not_lt.mp hnot)
    have := hp.counter
    omega

/-- The request of a reported event has no callbacks left. -/
theorem waitAll_cleared (h : waitAll fuel s.requests (Cuda.scheduled k) = .returns out)
    (he : e ∈ s.events) (hmem : e ∈ out.2.reported) {r : Request κ} (hr : r ∈ out.1)
    (hre : r.request_ = some e) : r.callbacks_ = [] := by
  rcases waitAll_passes (CapturedSpan.ne_nil_of_mem he) h with
    ⟨-, hnone⟩ | ⟨p, remaining, hp, -, -⟩
  · rw [hnone] at hmem
    cases hmem
  · exact hp.cleared r hr e hre ((hp.reported e he).mp hmem)

end Returned

end KokkosComm.Nccl
