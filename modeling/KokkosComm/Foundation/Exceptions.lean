/-
KokkosComm.Foundation.Exceptions — code that may throw.

A call of type `Throwing ε σ α` runs on a state `σ` and, if it ends at all,
returns an `α` or throws an `ε`. The state is kept either way: what was
done before a `throw` stays done.

`x.wp s Q E` says that `x`, called in the state `s`, ends in a state with
`Q` if it returns and with `E` if it throws. The `wp_…` lemmas compute it
from the code, statement by statement, so the two postconditions of a
routine follow from those of the routines it calls.
-/
import KokkosComm.Foundation.Outcome

/-- Code that may throw an exception `ε`. -/
abbrev Throwing (ε σ α : Type) := ExceptT ε (StateT σ Outcome) α

namespace Throwing

variable {ε σ α β : Type}

/-! ## Statements -/

/-- The call, with what it ended in. -/
def exit (x : Throwing ε σ α) (s : σ) : Outcome (Except ε α × σ) := x s

/-- `if (condition) throw what`. -/
def throwIf (condition : Bool) (what : ε) : Throwing ε σ Unit :=
  if condition then throw what else pure ()

/-- A statement that changes the state and does not throw. -/
def act (f : σ → σ) : Throwing ε σ Unit := fun s => .returns (.ok (), f s)

/-- A call of a function that does not throw, and may not return. -/
def call (x : Outcome α) : Throwing ε σ α := fun s => x >>= fun a => .returns (.ok a, s)

/-! ## Postconditions -/

/-- `Q` holds where the call returns, `E` where it throws. -/
def wp (x : Throwing ε σ α) (s : σ) (Q : α → σ → Prop) (E : ε → σ → Prop) : Prop :=
  ∀ r s', x.exit s = .returns (r, s') →
    match r with
    | .ok a => Q a s'
    | .error e => E e s'

variable {s : σ} {Q : α → σ → Prop} {E : ε → σ → Prop}

/-- Both postconditions hold of the state that the caller finds, if it
catches the exception. -/
theorem wp.exit {P : σ → Prop} {x : Throwing ε σ α} (h : x.wp s (fun _ => P) (fun _ => P))
    {r : Except ε α} {s' : σ} (hexit : x.exit s = .returns (r, s')) : P s' := by
  cases r with
  | ok a => exact h _ _ hexit
  | error e => exact h _ _ hexit

theorem wp_pure (a : α) : (pure a : Throwing ε σ α).wp s Q E ↔ Q a s := by
  constructor
  · intro h
    exact h _ _ rfl
  · rintro h _ _ ⟨⟩
    exact h

theorem wp_throw (e : ε) : (throw e : Throwing ε σ α).wp s Q E ↔ E e s := by
  constructor
  · intro h
    exact h _ _ rfl
  · rintro h _ _ ⟨⟩
    exact h

theorem exit_bind (x : Throwing ε σ β) (f : β → Throwing ε σ α) (s : σ) :
    (x >>= f).exit s = x.exit s >>= fun p =>
      match p.1 with
      | .ok b => (f b).exit p.2
      | .error e => .returns (.error e, p.2) := by
  show (x s >>= fun p => ExceptT.bindCont f p.1 p.2) = _
  refine congrArg (x s >>= ·) (funext fun p => ?_)
  rcases p with ⟨b | e, s'⟩ <;> rfl

/-- What follows is executed where the first call returns. -/
theorem wp_bind (x : Throwing ε σ β) (f : β → Throwing ε σ α) :
    (x >>= f).wp s Q E ↔ x.wp s (fun b s' => (f b).wp s' Q E) E := by
  constructor
  · intro h r s' hx
    cases r with
    | ok b =>
      intro r' s'' hf
      exact h r' s'' (by rw [exit_bind, hx]; exact hf)
    | error e => exact h (.error e) s' (by rw [exit_bind, hx]; rfl)
  · intro h r s'' hexit
    rw [exit_bind] at hexit
    obtain ⟨⟨r', s'⟩, hx, hrest⟩ := Outcome.bind_eq_returns.mp hexit
    cases r' with
    | ok b => exact h _ _ hx r s'' hrest
    | error e =>
      cases hrest
      exact h _ _ hx

theorem wp_act (f : σ → σ) {Q : Unit → σ → Prop} : (act f).wp s Q E ↔ Q () (f s) := by
  constructor
  · intro h
    exact h _ _ rfl
  · rintro h _ _ ⟨⟩
    exact h

theorem wp_throwIf (condition : Bool) (what : ε) {Q : Unit → σ → Prop} :
    (throwIf condition what).wp s Q E ↔ if condition then E what s else Q () s := by
  cases condition with
  | true => exact wp_throw what
  | false => exact wp_pure ()

theorem wp_call (x : Outcome α) : (call x).wp s Q E ↔ ∀ a, x = .returns a → Q a s := by
  constructor
  · intro h a hx
    exact h (.ok a) s (by rw [hx]; rfl)
  · intro h r s' hexit
    obtain ⟨a, hx, hrest⟩ := Outcome.bind_eq_returns.mp hexit
    cases hrest
    exact h a hx

/-- Weaker postconditions. -/
theorem wp.imp {Q' : α → σ → Prop} {E' : ε → σ → Prop} {x : Throwing ε σ α} (h : x.wp s Q E)
    (hQ : ∀ a s', Q a s' → Q' a s') (hE : ∀ e s', E e s' → E' e s') : x.wp s Q' E' := by
  intro r s' hexit
  cases r with
  | ok a => exact hQ a s' (h _ _ hexit)
  | error e => exact hE e s' (h _ _ hexit)

end Throwing
