/-
KokkosComm.Foundation.Custody — who keeps which handle, in what order.

The abstract side of exclusive ownership, next to the `Ledger` that records
the calls a library really got. Owners acquire fresh handles one by one
(`acquire`), give up all they have (`release`), or hand all they have over
to another owner, who releases its own first (`transfer`). `c.of o` is what
`o` keeps now, in the order of acquisition.

One invariant carries everything: the released handles and the kept ones
are together a rearrangement of the handles given out (`WellKept.all`). An
implementation whose owners keep `c.of o` and whose ledger is `c.ledger`
therefore owns its handles exclusively (`WellKept.exclusive`).
-/
import Mathlib.Data.List.Range
import Mathlib.Data.List.Perm.Basic
import Mathlib.Logic.Function.Basic
import KokkosComm.Foundation.Ledger

namespace Ledger

/-- Release a list of handles. -/
def freeAll (l : Ledger) (hs : List Nat) : Ledger := hs.foldl free l

/-- Releasing live handles, each once, is no misuse. -/
theorem freeAll_eq {hs : List Nat} {l : Ledger} (hnodup : hs.Nodup)
    (hlive : ∀ h ∈ hs, h ∉ l.freed) : l.freeAll hs = { l with freed := l.freed ++ hs } := by
  induction hs generalizing l with
  | nil => simp [freeAll]
  | cons h hs ih =>
    obtain ⟨hh, hnodup⟩ := List.nodup_cons.mp hnodup
    have hfree : l.free h = { l with freed := l.freed ++ [h] } := by
      simp [free, use_of_live (hlive h (by simp))]
    have hrest : ∀ h' ∈ hs, h' ∉ (l.free h).freed := by
      intro h' hm
      have hne : h' ≠ h := by
        intro heq
        exact hh (heq ▸ hm)
      simp [hlive h' (by simp [hm]), hne]
    have := ih (l := l.free h) hnodup hrest
    simp only [freeAll, List.foldl_cons] at this ⊢
    rw [this, hfree]
    simp

end Ledger

/-! ## Owners and what they keep -/

/-- The handles given out, who keeps them, and those released. -/
structure Custody (ω : Type) where
  next : Nat
  held : List (ω × Nat)
  freed : List Nat
  deriving DecidableEq, Repr

namespace Custody

variable {ω : Type}

def empty : Custody ω := { next := 0, held := [], freed := [] }

/-- A fresh handle for `o`. -/
def acquire (c : Custody ω) (o : ω) : Custody ω :=
  { c with next := c.next + 1, held := c.held ++ [(o, c.next)] }

/-- What the library has seen if nothing was ever misused. -/
def ledger (c : Custody ω) : Ledger := { next := c.next, freed := c.freed, misused := [] }

variable {c : Custody ω}

@[simp] theorem ledger_next : c.ledger.next = c.next := rfl
@[simp] theorem ledger_freed : c.ledger.freed = c.freed := rfl
theorem acquire_ledger (o : ω) : (c.acquire o).ledger = c.ledger.create.2 := rfl

variable [DecidableEq ω] {o p : ω}

/-- What an owner keeps, oldest first. -/
def of (c : Custody ω) (o : ω) : List Nat :=
  (c.held.filter fun e => e.1 = o).map Prod.snd

/-- `o` releases all it keeps. -/
def release (c : Custody ω) (o : ω) : Custody ω :=
  { c with held := c.held.filter fun e => e.1 ≠ o, freed := c.freed ++ c.of o }

/-- All that `src` keeps is now kept by `dst`. -/
def handOver (c : Custody ω) (dst src : ω) : Custody ω :=
  { c with held := c.held.map fun e => if e.1 = src then (dst, e.2) else e }

/-- `dst` releases its own and takes over from `src`. Nothing happens when
they are the same. -/
def transfer (c : Custody ω) (dst src : ω) : Custody ω :=
  if dst = src then c else (c.release dst).handOver dst src

theorem mem_of {h : Nat} : h ∈ c.of o ↔ (o, h) ∈ c.held := by
  simp [of]

theorem length_of_le (c : Custody ω) (o : ω) : (c.of o).length ≤ c.held.length := by
  rw [of, List.length_map]
  exact List.length_filter_le ..

@[simp] theorem of_empty : (empty : Custody ω).of o = [] := rfl

theorem of_acquire : (c.acquire o).of p = if p = o then c.of o ++ [c.next] else c.of p := by
  by_cases h : p = o
  · subst h
    simp [of, acquire]
  · have h' : ¬ o = p := fun heq => h heq.symm
    simp [of, acquire, h, h']

theorem of_release : (c.release o).of p = if p = o then [] else c.of p := by
  by_cases h : p = o
  · subst h
    simp [of, release]
  · rw [if_neg h]
    simp only [of, release, List.filter_filter]
    congr 1
    apply List.filter_congr
    intro e _
    by_cases he : e.1 = p
    · simp [he, h]
    · simp [he]

theorem of_handOver {dst src : ω} (hne : dst ≠ src) (hdst : c.of dst = []) :
    (c.handOver dst src).of p =
      if p = dst then c.of src else if p = src then [] else c.of p := by
  have hnone : ∀ h, (dst, h) ∉ c.held := by
    intro h hm
    have : h ∈ c.of dst := mem_of.mpr hm
    simp [hdst] at this
  simp only [of, handOver, List.filter_map, List.map_map] at hdst ⊢
  by_cases hp : p = dst
  · subst hp
    rw [if_pos rfl, List.filter_congr (q := fun e => decide (e.1 = src))]
    · apply List.map_congr_left
      intro e _
      simp only [Function.comp_apply]
      split <;> rfl
    · intro e hm
      by_cases he : e.1 = src
      · simp [he]
      · have hep : e.1 ≠ p := by
          intro heq
          exact hnone e.2 (heq ▸ hm)
        simp [he, hep]
  · rw [if_neg hp]
    by_cases hs : p = src
    · subst hs
      rw [if_pos rfl, List.map_eq_nil_iff, List.filter_eq_nil_iff]
      intro e _
      by_cases he : e.1 = p
      · simp [he, hne]
      · simp [he]
    · rw [if_neg hs, List.filter_congr (q := fun e => decide (e.1 = p))]
      · apply List.map_congr_left
        intro e _
        simp only [Function.comp_apply]
        split <;> rfl
      · intro e _
        by_cases he : e.1 = src
        · have hd : ¬ dst = p := fun heq => hp heq.symm
          have hs' : ¬ src = p := fun heq => hs heq.symm
          simp [he, hd, hs']
        · simp [he]

@[simp] theorem transfer_self : c.transfer o o = c := if_pos rfl

theorem of_transfer {dst src : ω} (hne : dst ≠ src) :
    (c.transfer dst src).of p =
      if p = dst then c.of src else if p = src then [] else c.of p := by
  have hdst : (c.release dst).of dst = [] := by simp [of_release]
  rw [transfer, if_neg hne, of_handOver hne hdst]
  by_cases hp : p = dst
  · simp [hp, of_release, hne.symm]
  · simp [hp, of_release]

@[simp] theorem handOver_next {dst src : ω} : (c.handOver dst src).next = c.next := rfl
@[simp] theorem handOver_freed {dst src : ω} : (c.handOver dst src).freed = c.freed := rfl
@[simp] theorem release_next : (c.release o).next = c.next := rfl
@[simp] theorem release_freed : (c.release o).freed = c.freed ++ c.of o := rfl

@[simp] theorem handOver_ledger {dst src : ω} : (c.handOver dst src).ledger = c.ledger := rfl

/-! ## The invariant -/

/-- Every handle given out is either kept, by one owner, or released, once;
the kept ones stand in the order in which they were given out. -/
structure WellKept (c : Custody ω) : Prop where
  all : (c.freed ++ c.held.map Prod.snd).Perm (List.range c.next)
  ordered : (c.held.map Prod.snd).Pairwise (· < ·)

namespace WellKept

omit [DecidableEq ω] in
theorem empty : (Custody.empty : Custody ω).WellKept where
  all := by simp [Custody.empty]
  ordered := by simp [Custody.empty]

omit [DecidableEq ω] in
theorem created (hc : c.WellKept) {h : Nat} (hm : h ∈ c.held.map Prod.snd) : h < c.next := by
  have := hc.all.mem_iff.mp (List.mem_append_right c.freed hm)
  simpa using this

omit [DecidableEq ω] in
theorem acquire (hc : c.WellKept) (o : ω) : (c.acquire o).WellKept where
  all := by
    have := hc.all.append_right [c.next]
    simpa [Custody.acquire, List.range_succ] using this
  ordered := by
    simp only [Custody.acquire, List.map_append, List.pairwise_append]
    refine ⟨hc.ordered, by simp, ?_⟩
    intro h hm h' hm'
    obtain rfl : h' = c.next := by simpa using hm'
    exact hc.created hm

theorem release (hc : c.WellKept) (o : ω) : (c.release o).WellKept where
  all := by
    have hsplit : (c.of o ++ (c.release o).held.map Prod.snd).Perm (c.held.map Prod.snd) := by
      have := (List.filter_append_perm (fun e => decide (e.1 = o)) c.held).map Prod.snd
      simpa [of, Custody.release] using this
    have := (hsplit.append_left c.freed).trans hc.all
    simpa using this
  ordered := hc.ordered.sublist (List.filter_sublist.map Prod.snd)

theorem handOver (hc : c.WellKept) (dst src : ω) : (c.handOver dst src).WellKept := by
  have hsame : (c.handOver dst src).held.map Prod.snd = c.held.map Prod.snd := by
    simp only [Custody.handOver, List.map_map]
    apply List.map_congr_left
    intro e _
    simp only [Function.comp_apply]
    split <;> rfl
  constructor
  · rw [hsame]
    exact hc.all
  · rw [hsame]
    exact hc.ordered

theorem transfer (hc : c.WellKept) (dst src : ω) : (c.transfer dst src).WellKept := by
  unfold Custody.transfer
  split
  · exact hc
  · exact (hc.release dst).handOver dst src

/-! ## What it implies -/

omit [DecidableEq ω] in
theorem nodup (hc : c.WellKept) : (c.freed ++ c.held.map Prod.snd).Nodup :=
  hc.all.nodup_iff.mpr List.nodup_range

theorem of_ordered (hc : c.WellKept) (o : ω) : (c.of o).Pairwise (· < ·) :=
  hc.ordered.sublist (List.filter_sublist.map Prod.snd)

theorem of_nodup (hc : c.WellKept) (o : ω) : (c.of o).Nodup :=
  (hc.of_ordered o).imp Nat.ne_of_lt

theorem mem_held {h : Nat} (hm : h ∈ c.of o) : h ∈ c.held.map Prod.snd :=
  List.mem_map.mpr ⟨(o, h), mem_of.mp hm, rfl⟩

/-- What somebody keeps is not released. -/
theorem live (hc : c.WellKept) {h : Nat} (hm : h ∈ c.of o) : h < c.next ∧ h ∉ c.freed :=
  ⟨hc.created (mem_held hm), fun hf =>
    (List.nodup_append.mp hc.nodup).2.2 h hf h (mem_held hm) rfl⟩

/-- A handle has one keeper. -/
theorem unique (hc : c.WellKept) {h : Nat} (hm : h ∈ c.of o) (hm' : h ∈ c.of p) : o = p := by
  have hnodup : (c.held.map Prod.snd).Nodup := (List.nodup_append.mp hc.nodup).2.1
  have heq : ((o, h) : ω × Nat) = (p, h) :=
    List.inj_on_of_nodup_map hnodup (mem_of.mp hm) (mem_of.mp hm') rfl
  exact congrArg Prod.fst heq

/-- An owner may release all it keeps. -/
theorem freeAll_eq (hc : c.WellKept) (o : ω) :
    c.ledger.freeAll (c.of o) = (c.release o).ledger :=
  Ledger.freeAll_eq (hc.of_nodup o) fun _ hh => (hc.live hh).2

/-- Handles are owned exclusively. -/
theorem exclusive (hc : c.WellKept) : c.ledger.Exclusive fun o h => h ∈ c.of o where
  owned := by
    intro h hlt hf
    have hm : h ∈ c.freed ++ c.held.map Prod.snd := hc.all.mem_iff.mpr (by simpa using hlt)
    obtain ⟨⟨o, h'⟩, he, rfl⟩ := List.mem_map.mp ((List.mem_append.mp hm).resolve_left hf)
    exact ⟨o, mem_of.mpr he⟩
  live := fun o h hh => hc.live hh
  unique := fun o o' h hh hh' => hc.unique hh hh'
  created := by
    intro h hf
    have hm := hc.all.mem_iff.mp (List.mem_append_left (c.held.map Prod.snd) hf)
    simpa using hm
  once := (List.nodup_append.mp hc.nodup).1
  clean := rfl

/-- Also with the place in the owner's list taken as the owner. -/
theorem exclusive_place (hc : c.WellKept) :
    c.ledger.Exclusive fun (place : ω × Nat) h => (c.of place.1)[place.2]? = some h where
  owned := by
    intro h hlt hf
    obtain ⟨o, ho⟩ := hc.exclusive.owned h hlt hf
    obtain ⟨i, hi⟩ := List.mem_iff_getElem?.mp ho
    exact ⟨(o, i), hi⟩
  live := fun place h hh => hc.live (List.mem_of_getElem? hh)
  unique := by
    intro ⟨o, i⟩ ⟨o', i'⟩ h hh hh'
    obtain rfl : o = o' := hc.unique (List.mem_of_getElem? hh) (List.mem_of_getElem? hh')
    have hi : i < (c.of o).length := (List.getElem?_eq_some_iff.mp hh).1
    obtain rfl : i = i' := (List.getElem?_inj hi (hc.of_nodup o)).mp (hh.trans hh'.symm)
    rfl
  created := hc.exclusive.created
  once := hc.exclusive.once
  clean := rfl

end WellKept

/-! ## Objects that keep handles

Objects stand at places; an object has a list of handles (of any type, `f`
says how a number is written there). The objects back a custody when each
has what it is to keep. -/

section Objects

variable {Obj γ : Type}

/-- What the object at a place has, if there is one. -/
def has (owns : Obj → List γ) (objs : ω → Option Obj) (r : ω) : List γ :=
  (objs r).elim [] owns

/-- Each object has exactly what the custody says. -/
def Backs (owns : Obj → List γ) (f : Nat → γ) (objs : ω → Option Obj) (c : Custody ω) : Prop :=
  ∀ r, has owns objs r = (c.of r).map f

variable {owns : Obj → List γ} {f : Nat → γ} {objs : ω → Option Obj} {v : Option Obj}

theorem has_update (r : ω) :
    has owns (Function.update objs r v) p = if p = r then v.elim [] owns else has owns objs p := by
  by_cases h : p = r
  · subst h
    simp [has]
  · simp [has, h]

theorem Backs.of_some (hb : Backs owns f objs c) {r : ω} {obj : Obj} (ho : objs r = some obj) :
    owns obj = (c.of r).map f := by
  have := hb r
  simpa [has, ho] using this

theorem Backs.of_none (hb : Backs owns f objs c) {r : ω} (ho : objs r = none) : c.of r = [] := by
  have := hb r
  simpa [has, ho] using this

/-- An object is replaced by one that has the same. -/
theorem Backs.replace (hb : Backs owns f objs c) {r : ω} (hv : v.elim [] owns = (c.of r).map f) :
    Backs owns f (Function.update objs r v) c := by
  intro p
  rw [has_update]
  split
  · rename_i hp
    rw [hv, hp]
  · exact hb p

theorem Backs.acquire (hb : Backs owns f objs c) {r : ω}
    (hv : v.elim [] owns = (c.of r).map f ++ [f c.next]) :
    Backs owns f (Function.update objs r v) (c.acquire r) := by
  intro p
  rw [has_update, of_acquire]
  split
  · simpa using hv
  · exact hb p

theorem Backs.release (hb : Backs owns f objs c) {r : ω} (hv : v.elim [] owns = []) :
    Backs owns f (Function.update objs r v) (c.release r) := by
  intro p
  rw [has_update, of_release]
  split
  · simpa using hv
  · exact hb p

/-- One object takes all that another has. -/
theorem Backs.transfer (hb : Backs owns f objs c) {dst src : ω} (hne : dst ≠ src)
    {new old : Option Obj} (hnew : new.elim [] owns = (c.of src).map f)
    (hold : old.elim [] owns = []) :
    Backs owns f (Function.update (Function.update objs src old) dst new)
      (c.transfer dst src) := by
  intro p
  rw [has_update, has_update, of_transfer hne]
  split
  · exact hnew
  · split
    · simpa using hold
    · exact hb p

end Objects

end Custody
