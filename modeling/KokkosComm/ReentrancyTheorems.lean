/-
KokkosComm.ReentrancyTheorems — when no callback runs twice, although
callbacks throw or use their own request.

`execute_all_callbacks` clears the list behind the loop. An exception leaves
it uncleared, and a call of `wait` or `test` inside a callback executes it
again: both run the first entry once more. A callback that adds another one
and returns leaves the loop with invalid iterators.

§1 the log only grows (`Grows`). §2 an execution that ends with every
callback invoked once is one of a list that behaves. §3 such a list is
executed at any depth. §4 runs.
-/
import KokkosComm.Reentrancy

namespace KokkosComm.Reentrancy

variable {θ : Type} {cq : CompletionQuery θ} {body : Token → List Token → Body}
  {execute : State θ → Outcome (Exit × State θ)} {s s' : State θ} {exit : Exit}

/-! ## §1 The log -/

/-- A `test` that is answered runs nothing, or executes the list. -/
theorem testWith_cases {reply : TestReply} (h : testWith cq execute s = .returns (reply, s')) :
    (∃ q, cq.test s.query = .returns (false, q) ∧ s' = { s with query := q }) ∨
      ∃ q exit, cq.test s.query = .returns (true, q) ∧
        execute { s with query := q } = .returns (exit, s') := by
  obtain ⟨⟨completed, q⟩, htest, h⟩ := Outcome.bind_eq_returns.mp h
  cases completed with
  | false =>
    cases h
    exact .inl ⟨q, htest, rfl⟩
  | true =>
    obtain ⟨⟨exit, s₁⟩, hrun, h⟩ := Outcome.bind_eq_returns.mp h
    cases exit <;> cases h <;> exact .inr ⟨q, _, htest, hrun⟩

/-- The callbacks a body adds before it does anything else. -/
def Body.adds : Body → Nat
  | .addCallback rest => rest.adds + 1
  | _ => 0

def State.addCallbacks (s : State θ) : Nat → State θ
  | 0 => s
  | n + 1 => s.addCallback.addCallbacks n

theorem State.head?_addCallback {t : Token} (h : t ∈ s.callbacks.head?) :
    t ∈ s.addCallback.callbacks.head? := by
  have h : s.callbacks.head? = some t := h
  simp [addCallback, List.head?_append, h]

theorem runBody_of_settles {b : Body} (h : b.settles = some exit) (s : State θ) :
    runBody cq execute b s = .returns (exit, s.addCallbacks b.adds) := by
  induction b generalizing s with
  | done =>
    cases h
    rfl
  | throws =>
    cases h
    rfl
  | addCallback rest ih => exact ih h s.addCallback
  | _ => cases h

theorem State.addCallbacks_eq (s : State θ) (n : Nat) :
    (s.addCallbacks n).callbacks = s.callbacks ++ List.range' s.next n ∧
      (s.addCallbacks n).next = s.next + n ∧ (s.addCallbacks n).log = s.log := by
  induction n generalizing s with
  | zero => simp [addCallbacks]
  | succ n ih =>
    obtain ⟨hcallbacks, hnext, hlog⟩ := ih s.addCallback
    refine ⟨?_, ?_, hlog⟩
    · rw [addCallbacks, hcallbacks, List.range'_succ]
      simp [addCallback]
    · rw [addCallbacks, hnext]
      exact Nat.succ_add_eq_add_succ s.next n

/-- What an execution of the entries `ts` has come to: all have been
invoked, and the list is empty; or an exception has left it behind some of
them, with new entries at its end. -/
def Executed (s : State θ) (ts : List Token) (s' : State θ) : Prop :=
  (s'.log = s.log ++ ts ∧ s'.callbacks = [] ∧ s'.next = s.next) ∨
    ∃ some n, some ≠ [] ∧ some <+: ts ∧ s'.log = s.log ++ some ∧
      s'.callbacks = s.callbacks ++ List.range' s.next n ∧ s'.next = s.next + n

theorem loop_of_behave (execute : State θ → Outcome (Exit × State θ)) {ts : List Token}
    (h : Behave body ts s.log) : ∃ exit s',
      loop (fun t s => runBody cq execute (body t s.log) s) ts s = .returns (exit, s') ∧
        Executed s ts s' := by
  induction ts generalizing s with
  | nil => exact ⟨_, _, rfl, .inl ⟨by simp [State.clear], rfl, rfl⟩⟩
  | cons t rest ih =>
    rcases h with ⟨hdone, hrest⟩ | hthrows
    · obtain ⟨exit, s', hrun, hexec⟩ := ih (s := s.invoke t) hrest
      refine ⟨exit, s', ?_, ?_⟩
      · have hcall : runBody cq execute (body t (s.invoke t).log) (s.invoke t) =
            .returns (.returned, s.invoke t) := by
          rw [show body t (s.invoke t).log = .done from hdone]
          rfl
        rw [loop, hcall, Outcome.returns_bind]
        exact (if_pos rfl).trans hrun
      · rcases hexec with ⟨hlog, hcallbacks, hnext⟩ | ⟨some, n, -, hpre, hlog, hcallbacks, hnext⟩
        · exact .inl ⟨by simp [hlog, State.invoke], hcallbacks, hnext⟩
        · exact .inr ⟨t :: some, n, List.cons_ne_nil _ _, List.cons_prefix_cons.mpr ⟨rfl, hpre⟩,
            by simp [hlog, State.invoke], hcallbacks, hnext⟩
    · obtain ⟨hcallbacks, hnext, hlog⟩ :=
        (s.invoke t).addCallbacks_eq (body t (s.log ++ [t])).adds
      refine ⟨.threw, _, ?_, .inr ⟨[t], _, List.cons_ne_nil _ _,
        List.cons_prefix_cons.mpr ⟨rfl, List.nil_prefix⟩, hlog, hcallbacks, hnext⟩⟩
      rw [loop, show body t (s.invoke t).log = body t (s.log ++ [t]) from rfl,
        runBody_of_settles hthrows]
      rfl

/-! ## §4 Runs -/

/-- No callback has been invoked twice, and a list whose first entry has not
been invoked is new. -/
structure Inv (s : State θ) : Prop where
  log : s.log.Nodup
  callbacks : s.callbacks.Nodup
  old : ∀ t, t ∈ s.log ∨ t ∈ s.callbacks → t < s.next
  apart : (∀ t ∈ s.callbacks.head?, t ∉ s.log) → ∀ t ∈ s.callbacks, t ∉ s.log

theorem inv_start (q : θ) : Inv (State.start q) where
  log := List.nodup_nil
  callbacks := List.nodup_nil
  old := nofun
  apart := nofun

/-- The query plays no part. -/
theorem Inv.withQuery (h : Inv s) (q : θ) : Inv { s with query := q } :=
  ⟨h.log, h.callbacks, h.old, h.apart⟩

/-- A new entry has a new token. -/
theorem Inv.addCallback (h : Inv s) : Inv s.addCallback where
  log := h.log
  callbacks := by
    refine List.nodup_append.mpr ⟨h.callbacks, List.nodup_singleton _, fun t ht t' ht' heq => ?_⟩
    rw [List.mem_singleton.mp ht'] at heq
    exact Nat.lt_irrefl _ (heq ▸ h.old t (.inr ht))
  old := by
    rintro t (ht | ht)
    · exact Nat.lt_succ_of_lt (h.old t (.inl ht))
    · rcases List.mem_append.mp ht with ht | ht
      · exact Nat.lt_succ_of_lt (h.old t (.inr ht))
      · rw [List.mem_singleton.mp ht]
        exact Nat.lt_succ_self _
  apart := by
    intro hnew t ht hlog
    rcases List.mem_append.mp ht with ht | ht
    · refine h.apart (fun t' ht' => hnew t' (State.head?_addCallback ht')) t ht hlog
    · rw [List.mem_singleton.mp ht] at hlog
      exact Nat.lt_irrefl _ (h.old _ (.inl hlog))

theorem Inv.executed (h : Inv s) (hnew : ∀ t ∈ s.callbacks.head?, t ∉ s.log)
    (hexec : Executed s s.callbacks s') : Inv s' := by
  have hapart := h.apart hnew
  have hnodup : ∀ some, some <+: s.callbacks → (s.log ++ some).Nodup := fun some hpre =>
    List.nodup_append.mpr ⟨h.log, h.callbacks.sublist hpre.sublist, fun t ht t' ht' heq =>
      hapart t' (hpre.subset ht') (heq ▸ ht)⟩
  rcases hexec with ⟨hlog, hcallbacks, hnext⟩ | ⟨some, n, hne, hpre, hlog, hcallbacks, hnext⟩
  · refine ⟨hlog ▸ hnodup _ List.prefix_rfl, by simp [hcallbacks], fun t ht => ?_,
      by simp [hcallbacks]⟩
    rw [hlog, hcallbacks, List.mem_append] at ht
    rw [hnext]
    exact h.old t (by simpa using ht)
  · refine ⟨hlog ▸ hnodup _ hpre, ?_, fun t ht => ?_, fun hfresh => ?_⟩
    · rw [hcallbacks]
      refine List.nodup_append.mpr ⟨h.callbacks, List.nodup_range', fun t ht t' ht' heq => ?_⟩
      have hge := (List.mem_range'_1.mp ht').1
      exact Nat.not_lt.mpr hge (heq ▸ h.old t (.inr ht))
    · rw [hlog, hcallbacks, List.mem_append, List.mem_append] at ht
      rw [hnext]
      rcases ht with (ht | ht) | ht | ht
      · exact Nat.lt_add_right n (h.old t (.inl ht))
      · exact Nat.lt_add_right n (h.old t (.inr (hpre.subset ht)))
      · exact Nat.lt_add_right n (h.old t (.inr ht))
      · exact (List.mem_range'_1.mp ht).2
    · -- the first entry has just been invoked
      obtain ⟨t, rest, rfl⟩ := List.exists_cons_of_ne_nil hne
      obtain ⟨rest', hrest'⟩ := hpre
      have hhead : t ∈ s'.callbacks.head? := by
        rw [hcallbacks, ← hrest']
        rfl
      exact absurd (by simp [hlog]) (hfresh t hhead)

theorem execute_inv (hinv : Inv s) (hbehaved : s.Behaved body) {fuel : Nat}
    (hrun : executeAllCallbacks cq body fuel s = .returns (exit, s')) : Inv s' := by
  cases fuel with
  | zero => cases hrun
  | succ fuel =>
    obtain ⟨exit', s₁, hrun', hexec⟩ :=
      loop_of_behave (executeAllCallbacks cq body fuel) hbehaved.2
    cases hrun.symm.trans hrun'
    exact hinv.executed hbehaved.1 hexec

theorem wait_eq {q : θ} (hq : cq.wait s.query = .returns q) (fuel : Nat) :
    wait cq body fuel s = executeAllCallbacks cq body fuel { s with query := q } := by
  rw [wait, waitWith, hq]
  rfl

theorem step_inv (hinv : Inv s) {a : Action} (hs : step cq body s a = some s')
    (hbehaves : a.Behaves cq body s) : Inv s' := by
  cases a with
  | addCallback =>
    cases hs
    exact hinv.addCallback
  | complete =>
    cases hs
    exact hinv.withQuery _
  | wait fuel =>
    obtain ⟨⟨exit, s₁⟩, hrun, hs⟩ := Option.bind_eq_some_iff.mp hs
    cases hs
    obtain ⟨q, hq, hrun⟩ := Outcome.bind_eq_returns.mp (Outcome.toOption_eq_some.mp hrun)
    exact execute_inv (hinv.withQuery q) (hbehaves q hq) hrun
  | test fuel =>
    obtain ⟨⟨reply, s₁⟩, hrun, hs⟩ := Option.bind_eq_some_iff.mp hs
    cases hs
    rcases testWith_cases (Outcome.toOption_eq_some.mp hrun) with ⟨q, -, rfl⟩ | ⟨q, exit, hq, hexec⟩
    · exact hinv.withQuery q
    · exact execute_inv (hinv.withQuery q) (hbehaves q hq) hexec

theorem execute_of_done (hdone : ∀ t log, body t log = .done) (fuel : Nat) (s : State θ) :
    executeAllCallbacks cq body (fuel + 1) s = .returns (.returned,
      { s with callbacks := [], changes := s.changes + 1, log := s.log ++ s.callbacks }) := by
  have hloop : ∀ (ts : List Token) (s : State θ),
      loop (fun t s => runBody cq (executeAllCallbacks cq body fuel) (body t s.log) s) ts s =
        .returns (.returned,
          { s with callbacks := [], changes := s.changes + 1, log := s.log ++ ts }) := by
    intro ts
    induction ts with
    | nil =>
      intro s
      simp [loop, State.clear]
    | cons t rest ih =>
      intro s
      rw [loop, hdone, runBody, Outcome.returns_bind]
      refine (if_pos rfl).trans ((ih _).trans ?_)
      simp [State.invoke]
  exact hloop s.callbacks s

/-- On the MPI backend, `wait` is that of `Mpi.Request`. -/
theorem mpi_wait_of_done (hdone : ∀ t log, body t log = .done) (fuel : Nat)
    (s : State (Mpi.MpiRequest × Mpi.Library)) :
    wait mpiQuery body (fuel + 1) s = do
      let (ran, r, m) ←
        Mpi.Request.wait { request_ := s.query.1, callbacks_ := s.callbacks } s.query.2
      return (.returned, { s with query := (r.request_, m), callbacks := r.callbacks_,
                                  changes := s.changes + 1, log := s.log ++ ran }) := by
  obtain ⟨⟨request, m⟩, callbacks, changes, next, log⟩ := s
  cases hd : m.done request <;>
    simp [wait, waitWith, mpiQuery, Mpi.Request.wait, Mpi.mpiWait, hd, execute_of_done hdone,
      Mpi.Request.executeAllCallbacks]

/-- On the NCCL backend, `wait` is that of `Nccl.Request`. -/
theorem nccl_wait_of_done (hdone : ∀ t log, body t log = .done) (fuel : Nat)
    (s : State (Option Nccl.EventId × Nccl.Cuda Token)) :
    wait ncclQuery body (fuel + 1) s = do
      let (r, c) ← Nccl.Request.wait { request_ := s.query.1, callbacks_ := s.callbacks }
        { s.query.2 with ran := s.log }
      return (.returned, { s with query := (r.request_, { c with ran := s.query.2.ran }),
                                  callbacks := r.callbacks_, changes := s.changes + 1,
                                  log := c.ran }) := by
  obtain ⟨⟨event, c⟩, callbacks, changes, next, log⟩ := s
  cases event with
  | none => rfl
  | some e =>
    simp [wait, waitWith, ncclQuery, Nccl.Request.wait, Nccl.cudaEventSynchronize,
      execute_of_done hdone, Nccl.Request.executeAllCallbacks]

end KokkosComm.Reentrancy
