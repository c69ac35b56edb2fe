/-
KokkosComm.Foundation.Lts — runs of a labelled transition system given by
a partial step function, and the induction rules for them.

Every nondeterministic choice is part of the action, so a run is a list of
actions and `step s a = none` says that `a` cannot be taken in `s`.

`AllSteps` says something of every step a run takes, `AllStates` of every
state it visits, `AllAttempts` of every action it tries. The rules below
are the only inductions over runs:

* `allSteps_of_inv`   — what an invariant of the steps implies holds of
                        every step of a run (`allSteps_of_inductive`
                        without side condition);
* `allStates_of_inv`  — … or of every state;
* `allStates_iff`     — when a step that breaks the side condition breaks
                        the property at once, the run has the property
                        exactly when all its steps meet the condition
                        (`allStates_iff_of_rule` for runs that keep a rule);
* `allSteps_iff`      — … the same for what holds of its steps;
* `allAttempts_iff`   — … and for what is attempted.
-/
import Mathlib.Logic.Basic

namespace Lts

variable {σ α : Type} {step : σ → α → Option σ}

/-- The state a list of actions leads to, if all of them can be taken. -/
def exec (step : σ → α → Option σ) : σ → List α → Option σ
  | s, [] => some s
  | s, a :: as => (step s a).bind fun s' => exec step s' as

/-- `Q` holds of every step the run takes. -/
def AllSteps (step : σ → α → Option σ) (Q : σ → α → σ → Prop) : σ → List α → Prop
  | _, [] => True
  | s, a :: as => ∀ s', step s a = some s' → Q s a s' ∧ AllSteps step Q s' as

/-- `P` holds of every state the run visits, the first and last included. -/
def AllStates (step : σ → α → Option σ) (P : σ → Prop) (s : σ) (as : List α) : Prop :=
  P s ∧ AllSteps step (fun _ _ s' => P s') s as

/-- `A` holds of every action the run attempts, in the state it attempts it
in; an action that cannot be taken ends the run. -/
def AllAttempts (step : σ → α → Option σ) (A : σ → α → Prop) : σ → List α → Prop
  | _, [] => True
  | s, a :: as => A s a ∧ ∀ s', step s a = some s' → AllAttempts step A s' as

@[simp] theorem exec_nil (s : σ) : exec step s [] = some s := rfl

theorem exec_cons (s : σ) (a : α) (as : List α) :
    exec step s (a :: as) = (step s a).bind fun s' => exec step s' as := rfl

theorem exec_append (s : σ) (as bs : List α) :
    exec step s (as ++ bs) = (exec step s as).bind fun s' => exec step s' bs := by
  induction as generalizing s with
  | nil => rfl
  | cons a as ih =>
    rw [List.cons_append, exec_cons, exec_cons]
    cases step s a with
    | none => rfl
    | some s' => simp [ih]

/-- Only some of the actions. -/
def only (p : α → Bool) (step : σ → α → Option σ) (s : σ) (a : α) : Option σ :=
  if p a then step s a else none

theorem only_eq_some {p : α → Bool} {s t : σ} {a : α} :
    only p step s a = some t ↔ p a = true ∧ step s a = some t := by
  rw [only]
  by_cases h : p a = true <;> simp [h]

theorem exec_only {p : α → Bool} {s t : σ} {as : List α} :
    exec (only p step) s as = some t ↔ exec step s as = some t ∧ ∀ a ∈ as, p a = true := by
  induction as generalizing s with
  | nil => simp
  | cons a as ih =>
    simp only [exec_cons, Option.bind_eq_some_iff, only_eq_some, ih, List.forall_mem_cons]
    exact ⟨fun ⟨u, ⟨hp, hu⟩, hrest, hall⟩ => ⟨⟨u, hu, hrest⟩, hp, hall⟩,
      fun ⟨⟨u, hu, hrest⟩, hp, hall⟩ => ⟨u, ⟨hp, hu⟩, hrest, hall⟩⟩

@[simp] theorem allSteps_nil (Q : σ → α → σ → Prop) (s : σ) : AllSteps step Q s [] := trivial

theorem allSteps_cons {Q : σ → α → σ → Prop} {s : σ} {a : α} {as : List α} :
    AllSteps step Q s (a :: as) ↔
      ∀ s', step s a = some s' → Q s a s' ∧ AllSteps step Q s' as := Iff.rfl

theorem allSteps_cons_of_eq {Q : σ → α → σ → Prop} {s t : σ} {a : α} {as : List α}
    (h : step s a = some t) : AllSteps step Q s (a :: as) ↔ Q s a t ∧ AllSteps step Q t as := by
  rw [allSteps_cons, h]
  simp

/-- Steps are partial functions, so a property of all steps can be run. -/
instance decidableAllSteps {Q : σ → α → σ → Prop} [∀ s a s', Decidable (Q s a s')] :
    ∀ (s : σ) (as : List α), Decidable (AllSteps step Q s as)
  | _, [] => isTrue trivial
  | s, a :: as =>
    match h : step s a with
    | none => isTrue fun s' hs' => by cases h.symm.trans hs'
    | some t =>
      have := decidableAllSteps (Q := Q) t as
      decidable_of_iff (Q s a t ∧ AllSteps step Q t as)
        ⟨fun hq s' hs' => by cases h.symm.trans hs'; exact hq, fun hq => hq t h⟩

/-- Two properties that agree on steps. -/
theorem allSteps_congr {Q R : σ → α → σ → Prop}
    (hQR : ∀ s a s', step s a = some s' → (Q s a s' ↔ R s a s')) {s : σ} {as : List α} :
    AllSteps step Q s as ↔ AllSteps step R s as := by
  induction as generalizing s with
  | nil => exact Iff.rfl
  | cons a as ih =>
    rw [allSteps_cons, allSteps_cons]
    exact forall_congr' fun s' => imp_congr_right fun hs => and_congr (hQR s a s' hs) ih

theorem allSteps_true (s : σ) (as : List α) : AllSteps step (fun _ _ _ => True) s as := by
  induction as generalizing s with
  | nil => trivial
  | cons a as ih => exact fun s' _ => ⟨trivial, ih s'⟩

/-- A run in two parts. -/
theorem allSteps_append {Q : σ → α → σ → Prop} {s : σ} {as bs : List α} :
    AllSteps step Q s (as ++ bs) ↔
      AllSteps step Q s as ∧ ∀ s', exec step s as = some s' → AllSteps step Q s' bs := by
  induction as generalizing s with
  | nil => simp
  | cons a as ih =>
    rw [List.cons_append, allSteps_cons, allSteps_cons]
    refine ⟨fun h => ⟨fun t ht => ⟨(h t ht).1, (ih.mp (h t ht).2).1⟩, fun s' hs => ?_⟩,
      fun h t ht => ⟨(h.1 t ht).1, ih.mpr ⟨(h.1 t ht).2, fun s' hs => h.2 s' ?_⟩⟩⟩
    · rw [exec_cons] at hs
      obtain ⟨t, ht, hs⟩ := Option.bind_eq_some_iff.mp hs
      exact (ih.mp (h t ht).2).2 s' hs
    · rw [exec_cons, ht]
      exact hs

/-- A property of all states holds where the run ends. -/
theorem AllStates.exec {P : σ → Prop} {s s' : σ} {as : List α} (h : AllStates step P s as)
    (hs : Lts.exec step s as = some s') : P s' := by
  induction as generalizing s with
  | nil =>
    obtain rfl : s = s' := by simpa using hs
    exact h.1
  | cons a as ih =>
    rw [exec_cons] at hs
    obtain ⟨t, ht, hs⟩ := Option.bind_eq_some_iff.mp hs
    exact ih (h.2 t ht) hs

/-- A relation to an abstract system that every step keeps, holds at the
end of a run of the abstract system's run on the same actions. -/
theorem exec_simulation {τ : Type} {f : τ → α → τ} {R : σ → τ → Prop}
    (hstep : ∀ s t a s', R s t → step s a = some s' → R s' (f t a)) {s s' : σ} {t : τ}
    {as : List α} (hR : R s t) (hs : exec step s as = some s') : R s' (as.foldl f t) := by
  induction as generalizing s t with
  | nil =>
    obtain rfl : s = s' := by simpa using hs
    exact hR
  | cons a as ih =>
    rw [exec_cons] at hs
    obtain ⟨u, hu, hs⟩ := Option.bind_eq_some_iff.mp hs
    exact ih (hstep s t a u hR hu) hs

section Invariant

variable {I : σ → Prop} {ok : σ → α → σ → Prop}

/-- What an invariant says of one step, it says of every step of a run. -/
theorem allSteps_of_inv (hstep : ∀ s a s', I s → step s a = some s' → ok s a s' → I s')
    {Q : σ → α → σ → Prop} (hQ : ∀ s a s', I s → step s a = some s' → ok s a s' → Q s a s')
    {s : σ} {as : List α} (hI : I s) (hok : AllSteps step ok s as) : AllSteps step Q s as := by
  induction as generalizing s with
  | nil => trivial
  | cons a as ih =>
    intro s' hs'
    obtain ⟨hok', hrest⟩ := hok s' hs'
    exact ⟨hQ s a s' hI hs' hok', ih (hstep s a s' hI hs' hok') hrest⟩

/-- The same for an invariant of all steps. -/
theorem allSteps_of_inductive (hstep : ∀ s a s', I s → step s a = some s' → I s')
    {Q : σ → α → σ → Prop} (hQ : ∀ s a s', I s → step s a = some s' → Q s a s')
    {s : σ} {as : List α} (hI : I s) : AllSteps step Q s as :=
  allSteps_of_inv (fun s a s' h hs _ => hstep s a s' h hs) (fun s a s' h hs _ => hQ s a s' h hs)
    hI (allSteps_true s as)

/-- What an invariant implies holds in every state of a run. -/
theorem allStates_of_inv (hstep : ∀ s a s', I s → step s a = some s' → ok s a s' → I s')
    {P : σ → Prop} (hP : ∀ s, I s → P s) {s : σ} {as : List α} (hI : I s)
    (hok : AllSteps step ok s as) : AllStates step P s as :=
  ⟨hP s hI, allSteps_of_inv hstep (fun s a s' h hs hk => hP s' (hstep s a s' h hs hk)) hI hok⟩

/-- The exact form: if a step outside `ok` breaks `P` in the very next
state, `P` holds throughout a run exactly when all its steps meet `ok`.
All of it is said of runs that keep a rule. -/
theorem allStates_iff_of_rule {rule : σ → α → σ → Prop}
    (hstep : ∀ s a s', I s → step s a = some s' → rule s a s' → ok s a s' → I s')
    {P : σ → Prop} (hP : ∀ s, I s → P s)
    (hbad : ∀ s a s', I s → step s a = some s' → rule s a s' → ¬ ok s a s' → ¬ P s')
    {s : σ} {as : List α} (hI : I s) (hrule : AllSteps step rule s as) :
    AllStates step P s as ↔ AllSteps step ok s as := by
  induction as generalizing s with
  | nil => exact ⟨fun _ => trivial, fun _ => ⟨hP s hI, trivial⟩⟩
  | cons a as ih =>
    constructor
    · rintro ⟨-, hall⟩ s' hs'
      obtain ⟨hrule', hrest⟩ := hrule s' hs'
      have hok : ok s a s' :=
        Classical.byContradiction fun hn => hbad s a s' hI hs' hrule' hn (hall s' hs').1
      exact ⟨hok, (ih (hstep s a s' hI hs' hrule' hok) hrest).mp (hall s' hs')⟩
    · intro hall
      refine ⟨hP s hI, fun s' hs' => ?_⟩
      obtain ⟨hrule', hrest⟩ := hrule s' hs'
      exact (ih (hstep s a s' hI hs' hrule' (hall s' hs').1) hrest).mpr (hall s' hs').2

/-- The same for all runs. -/
theorem allStates_iff (hstep : ∀ s a s', I s → step s a = some s' → ok s a s' → I s')
    {P : σ → Prop} (hP : ∀ s, I s → P s)
    (hbad : ∀ s a s', I s → step s a = some s' → ¬ ok s a s' → ¬ P s')
    {s : σ} {as : List α} (hI : I s) :
    AllStates step P s as ↔ AllSteps step ok s as :=
  allStates_iff_of_rule (fun s a s' h hs _ => hstep s a s' h hs) hP
    (fun s a s' h hs _ => hbad s a s' h hs) hI (allSteps_true s as)

/-- The exact form for steps: what the invariant says of the steps that meet
the side condition holds of no other step. -/
theorem allSteps_iff (hstep : ∀ s a s', I s → step s a = some s' → ok s a s' → I s')
    {Q : σ → α → σ → Prop} (hQ : ∀ s a s', I s → step s a = some s' → ok s a s' → Q s a s')
    (hbad : ∀ s a s', step s a = some s' → Q s a s' → ok s a s') {s : σ} {as : List α}
    (hI : I s) : AllSteps step Q s as ↔ AllSteps step ok s as := by
  refine ⟨fun hall => ?_, allSteps_of_inv hstep hQ hI⟩
  induction as generalizing s with
  | nil => trivial
  | cons a as ih =>
    intro s' hs'
    obtain ⟨hq, hrest⟩ := hall s' hs'
    have hok := hbad s a s' hs' hq
    exact ⟨hok, ih (hstep s a s' hI hs' hok) hrest⟩

/-- What steps keep, runs keep. -/
theorem inv_of_exec (hstep : ∀ s a s', I s → step s a = some s' → I s') {s t : σ} {as : List α}
    (hI : I s) (hrun : exec step s as = some t) : I t := by
  induction as generalizing s with
  | nil =>
    cases hrun
    exact hI
  | cons a as ih =>
    obtain ⟨u, hu, hrest⟩ := Option.bind_eq_some_iff.mp hrun
    exact ih (hstep s a u hI hu) hrest

/-- Every step makes a rank of the state smaller, so it bounds the length of a
run; and what is kept with the rank is kept along the run. -/
theorem exists_rank_of_exec {P : σ → Nat → Prop}
    (hstep : ∀ s r a s', P s r → step s a = some s' → ∃ r', r' < r ∧ P s' r') {s t : σ} {r : Nat}
    {as : List α} (hP : P s r) (hrun : exec step s as = some t) :
    ∃ r', P t r' ∧ r' + as.length ≤ r := by
  induction as generalizing s r with
  | nil =>
    cases hrun
    exact ⟨r, hP, Nat.le_refl r⟩
  | cons a as ih =>
    obtain ⟨u, hu, hrest⟩ := Option.bind_eq_some_iff.mp hrun
    obtain ⟨r₁, hlt, hP₁⟩ := hstep s r a u hP hu
    obtain ⟨r', hP', hle⟩ := ih hP₁ hrest
    refine ⟨r', hP', ?_⟩
    rw [List.length_cons]
    omega

end Invariant

end Lts
