/-
KokkosComm.Foundation.Journal — items that are registered under a tag and
run, a tag at a time, exactly once.

A `Journal` is the list of all items ever registered and the list of all
items run, in order. What is `pending` under a tag is what was registered
under it and has not run. Running a list of tags runs what is pending
under each, tag by tag.

An implementation that keeps a queue for each tag refines this: its queue
is `pending`, registering appends to it (`pending_register`), running
empties it (`pending_run_of_mem`) and leaves the others alone
(`pending_run_of_not_mem`). What it gains is exactly-once: the run list
never repeats an item (`WellFormed.run`).
-/
import Mathlib.Data.List.Nodup

structure Journal (ε : Type) where
  registered : List ε
  ran : List ε

namespace Journal

variable {ε τ : Type}

def register (j : Journal ε) (es : List ε) : Journal ε :=
  { j with registered := j.registered ++ es }

/-- Items are registered once, and run at most once after that. -/
structure WellFormed (j : Journal ε) : Prop where
  registered : j.registered.Nodup
  ran_subset : j.ran ⊆ j.registered
  once : j.ran.Nodup

theorem WellFormed.register {j : Journal ε} {es : List ε} (hj : j.WellFormed) (hes : es.Nodup)
    (hfresh : ∀ e ∈ es, e ∉ j.registered) : (j.register es).WellFormed where
  registered := by
    refine List.nodup_append.mpr ⟨hj.registered, hes, ?_⟩
    rintro a ha b hb rfl
    exact hfresh a hb ha
  ran_subset := List.Subset.trans hj.ran_subset (List.subset_append_left _ _)
  once := hj.once

variable [DecidableEq ε] [DecidableEq τ]

/-- Registered under `t` and not run, in order of registration. -/
def pending (tag : ε → τ) (j : Journal ε) (t : τ) : List ε :=
  j.registered.filter fun e => tag e = t ∧ e ∉ j.ran

/-- Run what is pending under each tag. -/
def run (tag : ε → τ) (j : Journal ε) (ts : List τ) : Journal ε :=
  { j with ran := j.ran ++ ts.flatMap (j.pending tag) }

variable {tag : ε → τ} {j : Journal ε}

theorem mem_pending {t : τ} {e : ε} :
    e ∈ j.pending tag t ↔ e ∈ j.registered ∧ tag e = t ∧ e ∉ j.ran := by
  simp [pending]

/-- Registering appends to what is pending. -/
theorem pending_register {es : List ε} (hj : j.WellFormed) (hfresh : ∀ e ∈ es, e ∉ j.registered)
    (t : τ) : (j.register es).pending tag t = j.pending tag t ++ es.filter fun e => tag e = t := by
  unfold pending Journal.register
  rw [List.filter_append]
  congr 1
  refine List.filter_congr fun e he => ?_
  have hnot : e ∉ j.ran := fun h => hfresh e he (hj.ran_subset h)
  simp [hnot]

/-- What runs under different tags is different. -/
theorem nodup_flatMap_pending (hj : j.WellFormed) {ts : List τ} (hts : ts.Nodup) :
    (ts.flatMap (j.pending tag)).Nodup := by
  refine List.nodup_flatMap.mpr ⟨fun t _ => hj.registered.filter _, hts.imp ?_⟩
  intro t t' hne e he he'
  exact hne ((mem_pending.mp he).2.1.symm.trans (mem_pending.mp he').2.1)

theorem WellFormed.run (hj : j.WellFormed) {ts : List τ} (hts : ts.Nodup) :
    (j.run tag ts).WellFormed where
  registered := hj.registered
  ran_subset := by
    refine List.append_subset.mpr ⟨hj.ran_subset, fun e he => ?_⟩
    obtain ⟨t, -, he⟩ := List.mem_flatMap.mp he
    exact (mem_pending.mp he).1
  once := by
    refine List.nodup_append.mpr ⟨hj.once, nodup_flatMap_pending hj hts, ?_⟩
    rintro a ha b hb rfl
    obtain ⟨t, -, hb⟩ := List.mem_flatMap.mp hb
    exact (mem_pending.mp hb).2.2 ha

/-- Nothing is left pending under a tag that was run. -/
theorem pending_run_of_mem {ts : List τ} {t : τ} (ht : t ∈ ts) :
    (j.run tag ts).pending tag t = [] := by
  refine List.eq_nil_iff_forall_not_mem.mpr fun e he => ?_
  obtain ⟨hreg, htag, hnot⟩ := mem_pending.mp he
  simp only [Journal.run, List.mem_append, not_or] at hreg hnot
  exact hnot.2 (List.mem_flatMap.mpr ⟨t, ht, mem_pending.mpr ⟨hreg, htag, hnot.1⟩⟩)

/-- Running some tags does not touch the others. -/
theorem pending_run_of_not_mem {ts : List τ} {t : τ} (ht : t ∉ ts) :
    (j.run tag ts).pending tag t = j.pending tag t := by
  refine List.filter_congr fun e _ => ?_
  simp only [Journal.run, List.mem_append, decide_eq_decide]
  refine and_congr_right fun htag => not_congr (or_iff_left fun he => ht ?_)
  obtain ⟨t', ht', he⟩ := List.mem_flatMap.mp he
  exact htag.symm.trans (mem_pending.mp he).2.1 ▸ ht'

/-- Of what runs, the items of one tag are all that was pending under it,
in order. -/
theorem filter_flatMap_pending {ts : List τ} (hts : ts.Nodup) {t : τ} (ht : t ∈ ts) :
    (ts.flatMap (j.pending tag)).filter (fun e => tag e = t) = j.pending tag t := by
  have hself : (j.pending tag t).filter (fun e => tag e = t) = j.pending tag t :=
    List.filter_eq_self.mpr fun e he => by simpa using (mem_pending.mp he).2.1
  have hother : ∀ us : List τ, t ∉ us →
      (us.flatMap (j.pending tag)).filter (fun e => tag e = t) = [] := by
    intro us hus
    refine List.filter_eq_nil_iff.mpr fun e he => ?_
    obtain ⟨u, hu, he⟩ := List.mem_flatMap.mp he
    have htag := (mem_pending.mp he).2.1
    simp only [decide_eq_true_eq]
    rintro rfl
    exact hus (htag ▸ hu)
  obtain ⟨us, vs, rfl⟩ := List.append_of_mem ht
  have hnd := List.nodup_append.mp hts
  have hus : t ∉ us := fun h => hnd.2.2 t h t (by simp) rfl
  have hvs : t ∉ vs := (List.nodup_cons.mp hnd.2.1).1
  rw [List.flatMap_append, List.flatMap_cons, List.filter_append, List.filter_append,
    hother us hus, hother vs hvs, hself, List.nil_append, List.append_nil]

end Journal
