/-
KokkosComm.Mpi.MeaningTheorems — what programs of sends and receives say does
not depend on whose turn it is.

Calls are only ever added, and a wait that can be passed stays passed, so
the processes commute (§1). A program that comes to its end has waited for
every receive, so along the way each message is as long as the view that it
is for (§2). What has been called is what the program says up to there (§3).
-/
import KokkosComm.Foundation.Occurrences
import KokkosComm.Mpi.Messaging

namespace KokkosComm.Mpi.Messaging

open Lts

variable {α : Type} {early : Bool} {p q : Int} {w w' : Int → Meaning α} {S S' : Meaning α}

/-! ## §1 Calls are added -/

/-- Some calls have been added. -/
def Meaning.Le (S S' : Meaning α) : Prop := S.posts <+: S'.posts

theorem getElem?_of_prefix {β : Type} {l l' : List β} (h : l <+: l') {k : Nat} {x : β}
    (hx : l[k]? = some x) : l'[k]? = some x := by
  obtain ⟨ys, rfl⟩ := h
  rwa [List.getElem?_append_left (List.getElem?_eq_some_iff.mp hx).1]

namespace Meaning.Le

theorem sent (h : S.Le S') {b : Int} {k : Nat} {m : List α} (hm : (S.sent b)[k]? = some m) :
    (S'.sent b)[k]? = some m := getElem?_of_prefix (h.filterMap _) hm

theorem asked (h : S.Le S') {a : Int} {k : Nat} {v : View} (hv : (S.asked a)[k]? = some v) :
    (S'.asked a)[k]? = some v := getElem?_of_prefix (h.filterMap _) hv

theorem length_asked (h : S.Le S') (a : Int) : (S.asked a).length ≤ (S'.asked a).length :=
  (h.filterMap _).length_le

theorem getElem? (h : S.Le S') {op : OpId} {y : Post α} (hy : S.posts[op]? = some y) :
    S'.posts[op]? = some y := getElem?_of_prefix h hy

theorem take (h : S.Le S') {op : OpId} {y : Post α} (hy : S.posts[op]? = some y) :
    S'.posts.take op = S.posts.take op := by
  obtain ⟨ys, hys⟩ := h
  rw [← hys, List.take_append_of_le_length (List.getElem?_eq_some_iff.mp hy).1.le]

theorem sentBefore (h : S.Le S') {op : OpId} {y : Post α} (hy : S.posts[op]? = some y) (b : Int) :
    S'.sentBefore op b = S.sentBefore op b := by
  rw [Meaning.sentBefore, h.take hy, Meaning.sentBefore]

theorem askedBefore (h : S.Le S') {op : OpId} {y : Post α} (hy : S.posts[op]? = some y)
    (a : Int) : S'.askedBefore op a = S.askedBefore op a := by
  rw [Meaning.askedBefore, h.take hy, Meaning.askedBefore]

end Meaning.Le

/-- When a host can go on, and what it finds. -/
theorem completed_eq_some {op : OpId} {f : Heap α → Heap α} : completed early p w op = some f ↔
    (∃ dest message, (w p).posts[op]? = some (.send dest message) ∧
      (early = true ∨ (w p).sentBefore op dest < ((w dest).asked p).length) ∧ f = id) ∨
    ∃ src rv message, (w p).posts[op]? = some (.recv src rv) ∧
      ((w src).sent p)[(w p).askedBefore op src]? = some message ∧ message.length = rv.size ∧
      f = rv.store message := by
  unfold completed
  cases hy : (w p).posts[op]? with
  | none => simp
  | some y =>
    cases y with
    | send dest message => simp [eq_comm]
    | recv src rv =>
      cases hm : ((w src).sent p)[(w p).askedBefore op src]? with
      | none => simp [hm]
      | some message => simp [hm, eq_comm]

/-- A wait that can be passed can be passed after more calls. -/
theorem completed_mono (h : ∀ q, (w q).Le (w' q)) {op : OpId} {f : Heap α → Heap α}
    (hf : completed early p w op = some f) : completed early p w' op = some f := by
  rcases completed_eq_some.mp hf with ⟨dest, message, hy, hcond, rfl⟩ |
    ⟨src, rv, message, hy, hm, hlen, rfl⟩
  · refine completed_eq_some.mpr (.inl ⟨dest, message, (h p).getElem? hy, ?_, rfl⟩)
    rw [(h p).sentBefore hy]
    exact hcond.imp_right fun hlt => Nat.lt_of_lt_of_le hlt ((h dest).length_asked p)
  · refine completed_eq_some.mpr (.inr ⟨src, rv, message, (h p).getElem? hy, ?_, hlen, rfl⟩)
    rw [(h p).askedBefore hy]
    exact (h src).sent hm

/-- What can be passed when sends wait for their receives can be passed when
they do not. -/
theorem completed_early {early' : Bool} (h : early = true → early' = true) {op : OpId}
    {f : Heap α → Heap α} (hf : completed early p w op = some f) :
    completed early' p w op = some f := by
  rcases completed_eq_some.mp hf with ⟨dest, message, hy, hcond, rfl⟩ | hrecv
  · exact completed_eq_some.mpr (.inl ⟨dest, message, hy, hcond.imp_left h, rfl⟩)
  · exact completed_eq_some.mpr (.inr hrecv)

theorem completedAll_of_forall {early' : Bool} {ops : List OpId} {f : Heap α → Heap α}
    (h : ∀ op g, completed early p w op = some g → completed early' p w' op = some g)
    (hf : completedAll early p w ops = some f) : completedAll early' p w' ops = some f := by
  induction ops generalizing f with
  | nil => exact hf
  | cons op ops ih =>
    unfold completedAll at hf ⊢
    cases hone : completed early p w op with
    | none => simp [hone] at hf
    | some g =>
      cases hrest : completedAll early p w ops with
      | none => simp [hone, hrest] at hf
      | some g' =>
        rw [h op g hone, ih hrest]
        rw [hone, hrest] at hf
        exact hf

/-- What an instruction does to a process. -/
theorem move_cases (h : move early p w = some S) : ∃ i rest, (w p).program = i :: rest ∧
    ((∃ sv dest, i = .send sv dest ∧ S = { w p with
        program := rest
        posts   := (w p).posts ++ [.send dest (sv.values (w p).heap)] }) ∨
      (∃ rv src, i = .recv rv src ∧ S = { w p with
        program := rest
        posts   := (w p).posts ++ [.recv src rv] }) ∨
      (∃ k, i = .kernel k ∧ S = { w p with program := rest, heap := k.run (w p).heap }) ∨
      ∃ span f, (i = .waitAll span ∨ ∃ op, i = .wait op ∧ span = [op]) ∧
        completedAll early p w span = some f ∧
        S = { w p with program := rest, heap := f (w p).heap }) := by
  unfold move at h
  cases hprog : (w p).program with
  | nil => simp [hprog] at h
  | cons i rest =>
    refine ⟨i, rest, rfl, ?_⟩
    rw [hprog] at h
    cases i with
    | send sv dest => exact .inl ⟨sv, dest, rfl, (Option.some.inj h).symm⟩
    | recv rv src => exact .inr (.inl ⟨rv, src, rfl, (Option.some.inj h).symm⟩)
    | kernel k => exact .inr (.inr (.inl ⟨k, rfl, (Option.some.inj h).symm⟩))
    | wait op =>
      obtain ⟨f, hf, rfl⟩ := Option.map_eq_some_iff.mp h
      exact .inr (.inr (.inr ⟨[op], f, .inr ⟨op, rfl, rfl⟩, hf, rfl⟩))
    | waitAll span =>
      obtain ⟨f, hf, rfl⟩ := Option.map_eq_some_iff.mp h
      exact .inr (.inr (.inr ⟨span, f, .inl rfl, hf, rfl⟩))

theorem le_of_move (h : move early p w = some S) : (w p).Le S := by
  obtain ⟨i, rest, _, ⟨sv, dest, _, rfl⟩ | ⟨rv, src, _, rfl⟩ | ⟨k, _, rfl⟩ |
    ⟨span, f, _, _, rfl⟩⟩ := move_cases h
  · exact List.prefix_append _ _
  · exact List.prefix_append _ _
  · exact List.prefix_rfl
  · exact List.prefix_rfl

/-- A move can be made wherever the waits can be passed to the same effect. -/
theorem move_of_completed {early' : Bool} (hp : w' p = w p)
    (h : ∀ op g, completed early p w op = some g → completed early' p w' op = some g)
    (hS : move early p w = some S) : move early' p w' = some S := by
  unfold move at hS ⊢
  rw [hp]
  cases hprog : (w p).program with
  | nil => simp [hprog] at hS
  | cons i rest =>
    rw [hprog] at hS
    cases i with
    | send sv dest => exact hS
    | recv rv src => exact hS
    | kernel k => exact hS
    | wait op =>
      obtain ⟨f, hf, rfl⟩ := Option.map_eq_some_iff.mp hS
      exact Option.map_eq_some_iff.mpr ⟨f, completedAll_of_forall h hf, rfl⟩
    | waitAll span =>
      obtain ⟨f, hf, rfl⟩ := Option.map_eq_some_iff.mp hS
      exact Option.map_eq_some_iff.mpr ⟨f, completedAll_of_forall h hf, rfl⟩

/-- Processes that only add to what the others see. -/
theorem monotone_move (early : Bool) : Monotone (move early (α := α)) Meaning.Le where
  refl _ := List.prefix_rfl
  trans _ _ _ h h' := h.trans h'
  adds _ _ _ h := le_of_move h
  stable _ _ _ _ hS hp hle := move_of_completed hp (fun _ _ => completed_mono hle) hS

theorem exec_early {early' : Bool} (h : early = true → early' = true) {bs : List Int}
    (hrun : exec (network (move early)) w bs = some w') :
    exec (network (move early')) w bs = some w' := by
  induction bs generalizing w with
  | nil => exact hrun
  | cons p bs ih =>
    obtain ⟨v, hv, hrest⟩ := exec_cons_eq_some.mp hrun
    obtain ⟨S, hS, rfl⟩ := network_eq_some.mp hv
    have hS' := move_of_completed rfl (fun _ _ => completed_early h) hS
    exact exec_cons_eq_some.mpr ⟨_, network_eq_some.mpr ⟨S, hS', rfl⟩, ih hrest⟩

theorem commutes_move (early : Bool) : Commutes (network (move early (α := α))) :=
  (monotone_move early).commutes

/-- All programs have been run. -/
def Ended (w : Int → Meaning α) : Prop := ∀ p, (w p).program = []

theorem Ended.stuck (h : Ended w) : Stuck (network (move early)) w := by
  intro p
  rw [network, move, h p]
  rfl

/-- Along a run, calls are only added. -/
theorem le_of_exec {bs : List Int} (h : exec (network (move early)) w bs = some w') (q : Int) :
    (w q).Le (w' q) := (monotone_move early).le_of_exec h q

/-! ## §2 Messages fit -/

theorem completed_of_mem {span : List OpId} {f : Heap α → Heap α}
    (hf : completedAll early p w span = some f) {op : OpId} (hop : op ∈ span) :
    ∃ g, completed early p w op = some g := by
  induction span generalizing f with
  | nil => simp at hop
  | cons op' span ih =>
    unfold completedAll at hf
    cases hone : completed early p w op' with
    | none => simp [hone] at hf
    | some g =>
      cases hrest : completedAll early p w span with
      | none => simp [hone, hrest] at hf
      | some g' =>
        rcases List.mem_cons.mp hop with rfl | hop
        · exact ⟨g, hone⟩
        · exact ih hrest hop

theorem mem_without {span : List OpId} {pending : List Pending} {x : Pending} :
    x ∈ without span pending ↔ x ∈ pending ∧ x.op ∉ span := by simp [without]

/-- The rest of a program keeps the rule, and every receive has been waited
for or is pending. -/
def Keeping (n : Nat) (early : Bool) (w : Int → Meaning α) (p : Int) : Prop :=
  ∃ pending, KeepsOff n (w p).posts.length pending (w p).program ∧
    ∀ (op : OpId) (src : Int) (rv : View), (w p).posts[op]? = some (.recv src rv) →
      (∃ x ∈ pending, x.op = op) ∨ ∃ f, completed early p w op = some f

theorem keeping_start {n : Nat} {programs : Int → List (Instr α)}
    (h : ∀ p, KeepsOff n 0 [] (programs p)) (heaps : Int → Heap α) (p : Int) :
    Keeping n early (Meaning.start programs heaps) p :=
  ⟨[], h p, fun op src rv hy => by simp [Meaning.start] at hy⟩

/-- What a wait leaves of the rule. -/
theorem keepsOff_wait {n m : Nat} {pending : List Pending} {i : Instr α} {rest : List (Instr α)}
    {span : List OpId} (hi : i = .waitAll span ∨ ∃ op, i = .wait op ∧ span = [op])
    (h : KeepsOff n m pending (i :: rest)) :
    span.Nodup ∧ span.length < 2147483648 ∧ (∀ op ∈ span, ∃ x ∈ pending, x.op = op) ∧
      KeepsOff n m (without span pending) rest := by
  rcases hi with rfl | ⟨op, rfl, rfl⟩
  · exact h
  · exact ⟨List.nodup_singleton op, by simp, by simpa using h.1, h.2⟩

theorem keeping_step {n : Nat} (hw : ∀ p, Keeping n early w p)
    (h : network (move early) w p = some w') (q : Int) : Keeping n early w' q := by
  obtain ⟨S, hS, rfl⟩ := network_eq_some.mp h
  have hle := (monotone_move early).le_update hS
  by_cases hqp : q = p
  · subst hqp
    obtain ⟨pending, hkeeps, hwaited⟩ := hw q
    -- what was completed, still is
    have hstill : ∀ {op : OpId}, (∃ f, completed early q w op = some f) →
        ∃ f, completed early q (Function.update w q S) op = some f :=
      fun ⟨f, hf⟩ => ⟨f, completed_mono hle hf⟩
    have hself : Function.update w q S q = S := Function.update_self _ _ _
    obtain ⟨i, rest, hprog, ⟨sv, dest, rfl, hS'⟩ | ⟨rv, src, rfl, hS'⟩ | ⟨k, rfl, hS'⟩ |
      ⟨span, f, hi, hf, hS'⟩⟩ := move_cases hS
    · rw [hprog] at hkeeps
      refine ⟨pending ++ [⟨(w q).posts.length, false, sv⟩], ?_, fun op src rv hy => ?_⟩
      · rw [hself, hS', List.length_append]
        exact hkeeps.2.2
      · rw [hself, hS', List.getElem?_append] at hy
        split at hy
        · rcases hwaited op src rv hy with ⟨x, hx, hxop⟩ | hdone
          · exact .inl ⟨x, List.mem_append_left _ hx, hxop⟩
          · exact .inr (hstill hdone)
        · obtain ⟨_, hget⟩ := List.getElem?_eq_some_iff.mp hy
          simp at hget
    · rw [hprog] at hkeeps
      refine ⟨pending ++ [⟨(w q).posts.length, true, rv⟩], ?_, fun op src' rv' hy => ?_⟩
      · rw [hself, hS', List.length_append]
        exact hkeeps.2.2
      · rw [hself, hS', List.getElem?_append] at hy
        split at hy
        · rcases hwaited op src' rv' hy with ⟨x, hx, hxop⟩ | hdone
          · exact .inl ⟨x, List.mem_append_left _ hx, hxop⟩
          · exact .inr (hstill hdone)
        · have hlt := (List.getElem?_eq_some_iff.mp hy).1
          refine .inl ⟨_, List.mem_append_right _ (List.mem_singleton_self _), ?_⟩
          simp only [List.length_singleton] at hlt
          show (w q).posts.length = op
          omega
    · rw [hprog] at hkeeps
      refine ⟨pending, by rw [hself, hS']; exact hkeeps.2.2, fun op src rv hy => ?_⟩
      rw [hself, hS'] at hy
      exact (hwaited op src rv hy).imp_right hstill
    · rw [hprog] at hkeeps
      refine ⟨without span pending, ?_, fun op src rv hy => ?_⟩
      · rw [hself, hS']
        exact (keepsOff_wait hi hkeeps).2.2.2
      · rw [hself, hS'] at hy
        by_cases hop : op ∈ span
        · exact .inr (hstill (completed_of_mem hf hop))
        · rcases hwaited op src rv hy with ⟨x, hx, rfl⟩ | hdone
          · exact .inl ⟨x, mem_without.mpr ⟨hx, hop⟩, rfl⟩
          · exact .inr (hstill hdone)
  · obtain ⟨pending, hkeeps, hwaited⟩ := hw q
    have hsame : Function.update w p S q = w q := Function.update_of_ne hqp _ _
    refine ⟨pending, by rw [hsame]; exact hkeeps, fun op src rv hy => ?_⟩
    rw [hsame] at hy
    exact (hwaited op src rv hy).imp_right fun ⟨f, hf⟩ => ⟨f, completed_mono hle hf⟩

theorem keeping_exec {n : Nat} (hw : ∀ p, Keeping n early w p) {bs : List Int}
    (h : exec (network (move early)) w bs = some w') (q : Int) : Keeping n early w' q := by
  induction bs generalizing w with
  | nil =>
    obtain rfl : w = w' := by simpa using h
    exact hw q
  | cons p bs ih =>
    obtain ⟨v, hv, hrest⟩ := exec_cons_eq_some.mp h
    exact ih (fun q => keeping_step hw hv q) hrest

/-- A message for a receive is as long as its view. -/
def Fits (w : Int → Meaning α) : Prop :=
  ∀ (p : Int) (op : OpId) (src : Int) (rv : View) (message : List α),
    (w p).posts[op]? = some (.recv src rv) →
      ((w src).sent p)[(w p).askedBefore op src]? = some message → message.length = rv.size

theorem fits_of_ended {n : Nat} (hw : ∀ p, Keeping n early w p) (hend : Ended w) : Fits w := by
  intro p op src rv message hy hm
  obtain ⟨pending, hkeeps, hwaited⟩ := hw p
  rw [hend p] at hkeeps
  obtain rfl : pending = [] := hkeeps
  obtain ⟨f, hf⟩ := (hwaited op src rv hy).resolve_left (by simp)
  rcases completed_eq_some.mp hf with ⟨dest, _, hy', _⟩ | ⟨src', rv', m', hy', hm', hlen, _⟩
  · rw [hy] at hy'
    cases hy'
  · rw [hy] at hy'
    cases hy'
    rw [hm] at hm'
    cases hm'
    exact hlen

/-- Messages that fit in the end fitted before. -/
theorem Fits.of_le (h : Fits w') (hle : ∀ q, (w q).Le (w' q)) : Fits w := by
  intro p op src rv message hy hm
  refine h p op src rv message ((hle p).getElem? hy) ?_
  rw [(hle p).askedBefore hy]
  exact (hle src).sent hm

/-! ## §3 Calls are those of the programs -/

/-- What has been called and what will be is what the program has. -/
def Along (program : List (Instr α)) (S : Meaning α) : Prop :=
  (∀ b, (program.filterMap (Instr.sendsTo b)).map View.size =
    (S.sent b).map List.length ++ (S.program.filterMap (Instr.sendsTo b)).map View.size) ∧
  ∀ a, program.filterMap (Instr.recvsFrom a) = S.asked a ++ S.program.filterMap (Instr.recvsFrom a)

theorem along_move {program : List (Instr α)} (h : Along program (w p))
    (hS : move early p w = some S) : Along program S := by
  obtain ⟨hsent, hasked⟩ := h
  unfold Meaning.sent at hsent
  unfold Meaning.asked at hasked
  obtain ⟨i, rest, hprog, ⟨sv, dest, rfl, rfl⟩ | ⟨rv, src, rfl, rfl⟩ | ⟨k, rfl, rfl⟩ |
    ⟨span, f, hi, -, rfl⟩⟩ := move_cases hS
  · refine ⟨fun b => ?_, fun a => ?_⟩
    · rw [hsent b, hprog]
      by_cases hb : dest = b <;> simp [Meaning.sent, Instr.sendsTo, Post.toPeer, hb]
    · rw [hasked a, hprog]
      simp [Meaning.asked, List.filterMap_cons, Instr.recvsFrom, Post.fromPeer]
  · refine ⟨fun b => ?_, fun a => ?_⟩
    · rw [hsent b, hprog]
      simp [Meaning.sent, List.filterMap_cons, Instr.sendsTo, Post.toPeer]
    · rw [hasked a, hprog]
      by_cases ha : src = a <;> simp [Meaning.asked, Instr.recvsFrom, Post.fromPeer, ha]
  · refine ⟨fun b => ?_, fun a => ?_⟩
    · rw [hsent b, hprog]
      simp [Meaning.sent, List.filterMap_cons, Instr.sendsTo]
    · rw [hasked a, hprog]
      simp [Meaning.asked, List.filterMap_cons, Instr.recvsFrom]
  · have hsends : ∀ b, i.sendsTo b = none := by
      rcases hi with rfl | ⟨op, rfl, -⟩ <;> exact fun _ => rfl
    have hrecvs : ∀ a, i.recvsFrom a = none := by
      rcases hi with rfl | ⟨op, rfl, -⟩ <;> exact fun _ => rfl
    refine ⟨fun b => ?_, fun a => ?_⟩
    · rw [hsent b, hprog, List.filterMap_cons_none (hsends b)]
      rfl
    · rw [hasked a, hprog, List.filterMap_cons_none (hrecvs a)]
      rfl

theorem along_step {programs : Int → List (Instr α)} (h : ∀ p, Along (programs p) (w p))
    (hstep : network (move early) w p = some w') (q : Int) : Along (programs q) (w' q) := by
  obtain ⟨S, hS, rfl⟩ := network_eq_some.mp hstep
  by_cases hqp : q = p
  · subst hqp
    rw [Function.update_self]
    exact along_move (h q) hS
  · rw [Function.update_of_ne hqp]
    exact h q

/-- Messages fit wherever programs that match have come. -/
theorem Matched.fits {programs : Int → List (Instr α)} (hmatched : Matched programs)
    (h : ∀ p, Along (programs p) (w p)) : Fits w := by
  intro p op src rv message hy hm
  have hasked := Occurrences.getElem?_filterMap_of_getElem? hy
    (show Post.fromPeer src (.recv src rv) = some rv by simp [Post.fromPeer])
  change ((w p).asked src)[(w p).askedBefore op src]? = some rv at hasked
  have hrv : ((programs p).filterMap (Instr.recvsFrom src))[(w p).askedBefore op src]? =
      some rv := by
    rw [(h p).2 src, List.getElem?_append_left (List.getElem?_eq_some_iff.mp hasked).1, hasked]
  have hlen : (((programs src).filterMap (Instr.sendsTo p)).map View.size)[
      (w p).askedBefore op src]? = some message.length := by
    rw [(h src).1 p, List.getElem?_append_left (by
      simpa using (List.getElem?_eq_some_iff.mp hm).1), List.getElem?_map, hm]
    rfl
  rw [List.getElem?_map] at hlen
  obtain ⟨sv, hsv, hsize⟩ := Option.map_eq_some_iff.mp hlen
  rw [← hsize]
  exact hmatched src p _ sv rv hsv hrv

end KokkosComm.Mpi.Messaging
