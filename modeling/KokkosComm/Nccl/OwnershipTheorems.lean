/-
KokkosComm.Nccl.OwnershipTheorems — who destroys the event of an NCCL
request.

`= default` moves copy the event pointer and leave it in the source, and
the destructor destroys whatever event it finds. So a move of a request
that holds an event makes two owners, and a move assignment onto such a
request forgets its event. Programs in which neither happens keep the
ownership exclusive: every event is destroyed exactly once and never used
after that (`eventsOwned_of_movesNoEvent`). A single move of a request
with an event is enough to destroy the event twice
(`moved_event_destroyed_twice`).
-/
import KokkosComm.Nccl.Ownership

namespace KokkosComm.Nccl

open Program

variable {κ : Type}

/-- Object `r` is alive and its `request_` is the event `e`. -/
def Holds (w : Program κ) (r : ObjId) (e : Nat) : Prop :=
  ∃ q, w.objs r = some q ∧ q.request_ = some e

/-- Object `r`, if it is alive, has the null event. -/
def HoldsNothing (w : Program κ) (r : ObjId) : Prop :=
  ∀ q, w.objs r = some q → q.request_ = none

theorem holdsNothing_iff {w : Program κ} {r : ObjId} :
    HoldsNothing w r ↔ ∀ e, ¬ Holds w r e := by
  constructor
  · rintro h e ⟨q, hq, he⟩
    simp [h q hq] at he
  · intro h q hq
    cases hr : q.request_ with
    | none => rfl
    | some e => exact absurd ⟨q, hq, hr⟩ (h e)

instance (w : Program κ) (r : ObjId) : Decidable (HoldsNothing w r) :=
  decidable_of_iff ((w.objs r).bind Request.request_ = none) (by
    unfold HoldsNothing
    cases w.objs r <;> simp)

/-- What the library promises of the events of a program: no call on a
destroyed event, no second destruction, and all of them destroyed once no
object is left. -/
def EventsOwned (w : Program κ) : Prop :=
  w.events.misused = [] ∧ w.events.freed.Nodup ∧
    ((∀ r, w.objs r = none) → ∀ e < w.events.next, w.events.freed.count e = 1)

/-- The step does not move an event, nor drop one by assigning over it. -/
def MovesNoEvent (w : Program κ) (op : Op) (_ : Program κ) : Prop :=
  match op with
  | .moveConstruct _ src => HoldsNothing w src
  | .moveAssign dst src => dst = src ∨ (HoldsNothing w dst ∧ HoldsNothing w src)
  | .grow elements => ∀ x ∈ elements, HoldsNothing w x.2
  | _ => True

instance (w : Program κ) (w' : Program κ) : (op : Op) → Decidable (MovesNoEvent w op w')
  | .moveConstruct _ src => inferInstanceAs (Decidable (HoldsNothing w src))
  | .moveAssign dst src =>
    inferInstanceAs (Decidable (dst = src ∨ (HoldsNothing w dst ∧ HoldsNothing w src)))
  | .grow elements => inferInstanceAs (Decidable (∀ x ∈ elements, HoldsNothing w x.2))
  | .construct _ => isTrue trivial
  | .capture _ => isTrue trivial
  | .wait _ => isTrue trivial
  | .test _ _ => isTrue trivial
  | .destroy _ => isTrue trivial

/-! ## Steps that leave ownership alone -/

/-- Same events, same owners. -/
def SameOwners (w w' : Program κ) : Prop :=
  w'.events = w.events ∧ ∀ r e, Holds w' r e ↔ Holds w r e

theorem SameOwners.refl (w : Program κ) : SameOwners w w := ⟨rfl, fun _ _ => Iff.rfl⟩

theorem SameOwners.trans {w w' w'' : Program κ} (h : SameOwners w w') (h' : SameOwners w' w'') :
    SameOwners w w'' :=
  ⟨h'.1.trans h.1, fun r e => (h'.2 r e).trans (h.2 r e)⟩

theorem SameOwners.holdsNothing {w w' : Program κ} (h : SameOwners w w') {r : ObjId}
    (hr : HoldsNothing w r) : HoldsNothing w' r := by
  rw [holdsNothing_iff] at hr ⊢
  exact fun e he => hr e ((h.2 r e).mp he)

/-- Replacing an object by one with the same event changes no owner. -/
theorem sameOwners_set {w : Program κ} {r : ObjId} {v : Option (Request κ)}
    (hv : v.bind Request.request_ = (w.objs r).bind Request.request_) :
    SameOwners w (w.set r v) := by
  refine ⟨rfl, fun r' e => ?_⟩
  by_cases hr : r' = r
  · subst hr
    simp only [Holds, Program.set, Function.update_self]
    constructor
    · rintro ⟨q, rfl, he⟩
      simp only [Option.bind_some] at hv
      cases ho : w.objs r' with
      | none => simp [ho, he] at hv
      | some q' => exact ⟨q', rfl, by simpa [ho, he] using hv.symm⟩
    · rintro ⟨q, hq, he⟩
      cases v with
      | none => simp [hq, he] at hv
      | some q' => exact ⟨q', rfl, by simpa [hq, he] using hv⟩
  · simp [Holds, Program.set, Function.update_of_ne hr]

theorem set_objs_of_ne {w : Program κ} {r r' : ObjId} {v : Option (Request κ)} (h : r ≠ r') :
    (w.set r' v).objs r = w.objs r := Function.update_of_ne h _ _

theorem sameOwners_moveConstruct {w w' : Program κ} {dst src : ObjId}
    (h : w.moveConstruct dst src = some w') (hsrc : HoldsNothing w src) : SameOwners w w' := by
  unfold Program.moveConstruct at h
  split at h
  · rename_i s hd hs
    have hnull := hsrc s hs
    cases h
    have hne : dst ≠ src := by rintro rfl; simp [hd] at hs
    refine (sameOwners_set (by simp [hs])).trans (sameOwners_set ?_)
    simp [set_objs_of_ne hne, hd, hnull]
  · cases h

theorem sameOwners_moveAssign {w w' : Program κ} {dst src : ObjId}
    (h : w.moveAssign dst src = some w')
    (hnull : dst = src ∨ (HoldsNothing w dst ∧ HoldsNothing w src)) : SameOwners w w' := by
  unfold Program.moveAssign at h
  split at h
  · rename_i d s hd hs
    have hold : SameOwners w (w.set src (some (d.moveAssign s).2)) :=
      sameOwners_set (by simp [hs, Request.moveAssign])
    by_cases hds : dst = src
    · simp only [if_pos hds] at h
      cases h
      exact hold
    · simp only [if_neg hds] at h
      obtain ⟨hdst, hsrc⟩ := hnull.resolve_left hds
      cases h
      refine hold.trans (sameOwners_set ?_)
      simp [set_objs_of_ne hds, hd, Request.moveAssign, hsrc s hs, hdst d hd]
  · cases h

theorem sameOwners_destroy {w w' : Program κ} {r : ObjId} (h : w.destroy r = some w')
    (hr : HoldsNothing w r) : SameOwners w w' := by
  unfold Program.destroy at h
  split at h
  · rename_i q hq
    have hnull := hr q hq
    cases h
    have hset : SameOwners w (w.set r none) := sameOwners_set (by simp [hq, hnull])
    exact ⟨by simp [Request.destructor, hnull, destroyEvent], hset.2⟩
  · cases h

/-- A fold of steps that keep the owners keeps them. -/
theorem sameOwners_foldlM {α : Type} {f : Program κ → α → Option (Program κ)} {ok : α → ObjId}
    (hf : ∀ w w' a, f w a = some w' → HoldsNothing w (ok a) → SameOwners w w')
    {as : List α} {w w' : Program κ} (has : ∀ a ∈ as, HoldsNothing w (ok a))
    (h : as.foldlM f w = some w') : SameOwners w w' := by
  induction as generalizing w with
  | nil =>
    obtain rfl : w = w' := by simpa using h
    exact .refl w
  | cons a as ih =>
    rw [List.foldlM_cons] at h
    obtain ⟨u, hu, h⟩ := Option.bind_eq_some_iff.mp h
    have hwu := hf w u a hu (has a (by simp))
    exact hwu.trans (ih (fun b hb => hwu.holdsNothing (has b (by simp [hb]))) h)

theorem sameOwners_grow {w w' : Program κ} {elements : List (ObjId × ObjId)}
    (h : w.grow elements = some w') (hnull : ∀ x ∈ elements, HoldsNothing w x.2) :
    SameOwners w w' := by
  obtain ⟨u, hu, h⟩ := Option.bind_eq_some_iff.mp h
  have hwu : SameOwners w u :=
    sameOwners_foldlM (f := fun w x => w.moveConstruct x.1 x.2)
      (fun _ _ _ => sameOwners_moveConstruct) hnull hu
  have hnull' : ∀ x ∈ elements, HoldsNothing u x.2 := fun x hx => hwu.holdsNothing (hnull x hx)
  exact hwu.trans (sameOwners_foldlM (f := fun w x => w.destroy x.2)
    (fun _ _ _ => sameOwners_destroy) hnull' h)

/-! ## The invariant -/

/-- Every live event has exactly one live owner. -/
def Owned (w : Program κ) : Prop := w.events.Exclusive (Holds w)

theorem SameOwners.owned {w w' : Program κ} (h : SameOwners w w') (hw : Owned w) : Owned w' := by
  unfold Owned
  rw [h.1]
  exact hw.congr h.2

theorem owned_start : Owned (start : Program κ) :=
  Ledger.exclusive_empty fun _ _ ⟨_, hq, _⟩ => by cases hq

/-- Destroying the event of an object, which then no longer holds it. -/
theorem Owned.destroyEvent {w : Program κ} (hw : Owned w) {r : ObjId} {q : Request κ}
    (hq : w.objs r = some q) {v : Option (Request κ)} (hv : v.bind Request.request_ = none) :
    Owned { w.set r v with events := destroyEvent w.events q.request_ } := by
  cases he : q.request_ with
  | none =>
    have hset : SameOwners w (w.set r v) := sameOwners_set (by simp [hq, he, hv])
    exact hset.owned hw
  | some e =>
    have ho : Holds w r e := ⟨q, hq, he⟩
    refine Ledger.Exclusive.free hw ho fun r' e' => ?_
    by_cases hr : r' = r
    · subst hr
      constructor
      · rintro ⟨q', hq', he'⟩
        simp only [Program.set, Function.update_self] at hq'
        simp [hq', he'] at hv
      · rintro ⟨⟨q', hq', he'⟩, hne⟩
        obtain rfl : q' = q := Option.some.inj (hq'.symm.trans hq)
        exact absurd (Option.some.inj (he'.symm.trans he)) hne
    · have hsame : Holds { w.set r v with events := w.events.free e } r' e' ↔ Holds w r' e' := by
        simp [Holds, Program.set, Function.update_of_ne hr]
      refine hsame.trans ⟨fun h => ⟨h, ?_⟩, fun h => h.1⟩
      rintro rfl
      exact hr (hw.unique r' r e' h ho)

theorem Owned.capture {w : Program κ} (hw : Owned w) {r : ObjId} {q : Request κ}
    (hq : w.objs r = some q) :
    Owned { w.set r (some (q.captureStreamState w.events).1) with
      events := (q.captureStreamState w.events).2 } := by
  -- destroy the old event, create the new one, record it
  have hfree := hw.destroyEvent hq (v := some { q with request_ := none }) rfl
  let w' : Program κ := { w.set r (some (q.captureStreamState w.events).1) with
    events := (q.captureStreamState w.events).2 }
  have hcreate : (Nccl.destroyEvent w.events q.request_).create.2.Exclusive (Holds w') := by
    refine Ledger.Exclusive.create hfree r fun r' e' => ?_
    by_cases hr : r' = r
    · subst hr
      simp [w', Holds, Program.set, Request.captureStreamState, Ledger.create, eq_comm]
    · simp [w', Holds, Program.set, hr]
  have hnew : Holds w' r (Nccl.destroyEvent w.events q.request_).next :=
    ⟨(q.captureStreamState w.events).1, by simp [w', Program.set], rfl⟩
  have hrecord : w'.events = (Nccl.destroyEvent w.events q.request_).create.2 :=
    hcreate.use_eq hnew
  change w'.events.Exclusive (Holds w')
  rwa [hrecord]

theorem Owned.useEvent {w : Program κ} (hw : Owned w) {r : ObjId} {q q' : Request κ}
    (hq : w.objs r = some q) (heq : q'.request_ = q.request_) :
    Owned { w.set r (some q') with events := useEvent w.events q.request_ } := by
  have huse : Nccl.useEvent w.events q.request_ = w.events := by
    cases he : q.request_ with
    | none => rfl
    | some e => exact hw.use_eq ⟨q, hq, he⟩
  rw [huse]
  have hset : SameOwners w (w.set r (some q')) := sameOwners_set (by simp [hq, heq])
  exact hset.owned hw

theorem Owned.step {w w' : Program κ} {op : Op} (hw : Owned w) (h : w.step op = some w')
    (hok : MovesNoEvent w op w') : Owned w' := by
  cases op with
  | construct r =>
    simp only [Program.step] at h
    split at h
    · rename_i hr
      cases h
      have hset : SameOwners w (w.set r (some Request.new)) :=
        sameOwners_set (by simp [hr, Request.new])
      exact hset.owned hw
    · cases h
  | capture r =>
    simp only [Program.step] at h
    split at h
    · rename_i q hq
      cases h
      exact hw.capture hq
    · cases h
  | moveConstruct dst src => exact (sameOwners_moveConstruct h hok).owned hw
  | moveAssign dst src => exact (sameOwners_moveAssign h hok).owned hw
  | grow elements => exact (sameOwners_grow h hok).owned hw
  | wait r =>
    simp only [Program.step] at h
    split at h
    · rename_i q hq
      cases h
      exact hw.useEvent hq rfl
    · cases h
  | test r completed =>
    simp only [Program.step] at h
    split at h
    · rename_i q hq
      cases h
      exact hw.useEvent hq (by cases completed <;> rfl)
    · cases h
  | destroy r =>
    simp only [Program.step, Program.destroy] at h
    split at h
    · rename_i q hq
      cases h
      exact hw.destroyEvent hq rfl
    · cases h

theorem Owned.eventsOwned {w : Program κ} (hw : Owned w) : EventsOwned w :=
  ⟨hw.clean, hw.once, fun hnone _ he =>
    hw.count_freed (fun r _ ⟨_, hq, _⟩ => by simp [hnone r] at hq) he⟩

/-- **Exclusive ownership**: in every program that moves no request holding
an event and assigns over none, each event is destroyed exactly once, and
nothing is ever done with a destroyed event. -/
theorem eventsOwned_of_movesNoEvent (ops : List Op)
    (hok : Lts.AllSteps step MovesNoEvent (start : Program κ) ops) :
    Lts.AllStates step EventsOwned (start : Program κ) ops :=
  Lts.allStates_of_inv (fun _ _ _ hw h hk => hw.step h hk) (fun _ hw => hw.eventsOwned)
    owned_start hok

/-- Requests without an event may be moved and relocated, and a request
with one captured again. -/
theorem eventsOwned_recapture :
    Lts.AllStates step EventsOwned (start : Program Unit)
      [.construct 0, .capture 0, .capture 0, .construct 1, .moveConstruct 2 1, .moveAssign 1 2,
        .moveAssign 0 0, .grow [(3, 1)], .wait 0, .destroy 0, .destroy 2, .destroy 3] :=
  eventsOwned_of_movesNoEvent _ (by decide)

/-- Moving a request and destroying both objects destroys its event twice. -/
theorem moved_event_destroyed_twice :
    ¬ ∀ ops : List Op, Lts.AllStates step EventsOwned (start : Program Unit) ops := by
  intro h
  have hrun := (h [.construct 0, .capture 0, .moveConstruct 1 0, .destroy 0, .destroy 1]).2
  have hend := (((((hrun _ rfl).2 _ rfl).2 _ rfl).2 _ rfl).2 _ rfl).1
  exact absurd hend.1 (by decide)

end KokkosComm.Nccl
