/-
KokkosComm.Mpi.SuperstepsTheorems — programs in rounds do what their rounds
say, over MPI, whatever its timing.

§1 the programs keep the rule. §2 they can be run one after the other: all
processes work and post, each alone; then all messages are there, and each
process passes its wait alone. Between two rounds every message has been
received (`Balanced`). §3 is every run over MPI.
-/
import KokkosComm.Mpi.MessagingRunTheorems
import KokkosComm.Mpi.Supersteps

namespace KokkosComm.Mpi.Messaging

open Lts

variable {α : Type} {n : Nat} {ranks : List Int}

/-! ## §1 The rule -/

section Rule

variable {rest : List (Instr α)}

/-- What is pending after some legs have been posted. -/
def pendings : Nat → List Leg → List Pending
  | _, [] => []
  | m, x :: xs => ⟨m, x.isRecv, x.view⟩ :: pendings (m + 1) xs

theorem exists_pending {op m : Nat} {xs : List Leg} (hop : op ∈ List.range' m xs.length) :
    ∃ z ∈ pendings m xs, z.op = op := by
  induction xs generalizing m with
  | nil => simp at hop
  | cons x xs ih =>
    rw [List.length_cons, List.range'_succ] at hop
    rcases List.mem_cons.mp hop with rfl | hop
    · exact ⟨_, List.mem_cons_self, rfl⟩
    · obtain ⟨z, hz, hzop⟩ := ih hop
      exact ⟨z, List.mem_cons_of_mem _ hz, hzop⟩

theorem op_of_mem_pendings {m : Nat} {xs : List Leg} {z : Pending} (hz : z ∈ pendings m xs) :
    z.op ∈ List.range' m xs.length := by
  induction xs generalizing m with
  | nil => simp [pendings] at hz
  | cons x xs ih =>
    rw [List.length_cons, List.range'_succ]
    rcases List.mem_cons.mp hz with rfl | hz
    · exact List.mem_cons_self
    · exact List.mem_cons_of_mem _ (ih hz)

/-- Legs that are apart from each other can be posted one after the other. -/
theorem keepsOff_legs {xs : List Leg} {m : Nat} {pending : List Pending}
    (hok : ∀ x ∈ xs, x.Ok n)
    (hapart : xs.Pairwise fun x y =>
      x.isRecv = true ∨ y.isRecv = true → ∀ c ∈ x.view.elements, c ∉ y.view.elements)
    (hpending : ∀ z ∈ pending, ∀ x ∈ xs, z.isRecv = true ∨ x.isRecv = true →
      ∀ c ∈ z.view.elements, c ∉ x.view.elements)
    (hrest : KeepsOff n (m + xs.length) (pending ++ pendings m xs) rest) :
    KeepsOff n m pending (xs.map Leg.instr ++ rest) := by
  induction xs generalizing m pending with
  | nil => simpa [pendings] using hrest
  | cons x xs ih =>
    obtain ⟨hx, hxs⟩ := List.pairwise_cons.mp hapart
    have hrest' : KeepsOff n (m + 1) (pending ++ [⟨m, x.isRecv, x.view⟩])
        (xs.map Leg.instr ++ rest) := by
      refine ih (fun y hy => hok y (List.mem_cons_of_mem _ hy)) hxs (fun z hz y hy => ?_) ?_
      · rcases List.mem_append.mp hz with hz | hz
        · exact hpending z hz y (List.mem_cons_of_mem _ hy)
        · obtain rfl := List.mem_singleton.mp hz
          exact hx y hy
      · rw [List.append_assoc, List.singleton_append]
        have hlen : m + 1 + xs.length = m + (x :: xs).length := by
          rw [List.length_cons]
          omega
        rw [hlen]
        exact hrest
    have hxok := hok x List.mem_cons_self
    cases x with
    | send sv dest =>
      exact ⟨hxok, fun z hz hr => hpending z hz _ List.mem_cons_self (.inl hr), hrest'⟩
    | recv rv src =>
      exact ⟨hxok, fun z hz => hpending z hz _ List.mem_cons_self (.inr rfl), hrest'⟩

/-- Programs in rounds keep the rule. -/
theorem Round.keepsOff (rounds : List (Round α n ranks)) (p : Int) (m : Nat) :
    KeepsOff n m [] (Round.program p m rounds) := by
  induction rounds generalizing m with
  | nil => rfl
  | cons r rounds ih =>
    rw [Round.program, Round.instrs, List.cons_append, List.append_assoc]
    refine ⟨fun c hc => (r.work p).user c hc, by simp, ?_⟩
    refine keepsOff_legs (r.ok p) (r.apart p) (by simp) ?_
    refine ⟨List.nodup_range', by simpa using r.fits p, fun op hop => exists_pending hop, ?_⟩
    have hnone :
        without (List.range' m (r.legs p).length) ([] ++ pendings m (r.legs p)) = [] := by
      refine List.filter_eq_nil_iff.mpr fun z hz => ?_
      simpa using op_of_mem_pendings hz
    rw [hnone]
    exact ih _

theorem Round.keepsOff_programs (rounds : List (Round α n ranks)) (p : Int) :
    KeepsOff n 0 [] (Round.programs rounds p) := by
  unfold Round.programs
  split
  · exact Round.keepsOff rounds p 0
  · rfl

end Rule

/-! ## §2 One after the other -/

section InTurn

variable {early : Bool} {p : Int} {w : Int → Meaning α} {rest : List (Instr α)}
  {posts : Int → List (Post α)} {heaps : Int → Heap α} {r : Round α n ranks}

/-- What the call of a leg adds. -/
def Leg.post (h : Heap α) : Leg → Post α
  | send sv dest => .send dest (sv.values h)
  | recv rv src => .recv src rv

theorem toPeer_post (xs : List Leg) (h : Heap α) (b : Int) :
    (xs.map (Leg.post h)).filterMap (Post.toPeer b) =
      (xs.filterMap (Leg.sentTo b)).map fun sv => sv.values h := by
  rw [List.filterMap_map, List.map_filterMap]
  refine List.filterMap_congr fun x _ => ?_
  cases x with
  | send sv dest => by_cases hb : dest = b <;> simp [Leg.post, Post.toPeer, Leg.sentTo, hb]
  | recv rv src => rfl

theorem fromPeer_post (xs : List Leg) (h : Heap α) (a : Int) :
    (xs.map (Leg.post h)).filterMap (Post.fromPeer a) = xs.filterMap (Leg.askedFrom a) := by
  rw [List.filterMap_map]
  refine List.filterMap_congr fun x _ => ?_
  cases x with
  | send sv dest => rfl
  | recv rv src => rfl

/-- A process posts its legs alone. -/
theorem exec_legs (xs : List Leg) (rest : List (Instr α))
    (hprog : (w p).program = xs.map Leg.instr ++ rest) :
    exec (network (move early)) w (List.replicate xs.length p) =
      some (Function.update w p { w p with
        program := rest
        posts   := (w p).posts ++ xs.map (Leg.post (w p).heap) }) := by
  induction xs generalizing w with
  | nil =>
    have hself : (⟨rest, (w p).heap, (w p).posts ++ []⟩ : Meaning α) = w p := by
      have hprog' : (w p).program = rest := hprog
      rw [List.append_nil, ← hprog']
    simp only [List.map_nil, hself, Function.update_eq_self]
    rfl
  | cons x xs ih =>
    have hmove : move early p w = some { w p with
        program := xs.map Leg.instr ++ rest
        posts   := (w p).posts ++ [Leg.post (w p).heap x] } := by
      rw [move, hprog]
      cases x <;> rfl
    rw [List.length_cons, List.replicate_succ]
    refine exec_cons_eq_some.mpr ⟨_, network_eq_some.mpr ⟨_, hmove, rfl⟩, ?_⟩
    rw [ih (by simp)]
    simp

/-- … after its work. -/
theorem exec_round {m : Nat} (hprog : (w p).program = r.instrs p m ++ rest) :
    exec (network (move early)) w (List.replicate ((r.legs p).length + 1) p) =
      some (Function.update w p {
        program := .waitAll (List.range' m (r.legs p).length) :: rest
        heap    := (r.work p).run (w p).heap
        posts   := (w p).posts ++ (r.legs p).map (Leg.post ((r.work p).run (w p).heap)) }) := by
  rw [Round.instrs, List.cons_append, List.append_assoc] at hprog
  have hmove : move early p w = some { w p with
      program := (r.legs p).map Leg.instr ++
        (.waitAll (List.range' m (r.legs p).length) :: rest)
      heap    := (r.work p).run (w p).heap } := by
    rw [move, hprog]
    rfl
  rw [List.replicate_succ]
  refine exec_cons_eq_some.mpr ⟨_, network_eq_some.mpr ⟨_, hmove, rfl⟩, ?_⟩
  rw [exec_legs (r.legs p) (.waitAll (List.range' m (r.legs p).length) :: rest) (by simp)]
  simp

/-- As many messages have been sent as have been asked for. -/
def Balanced (posts : Int → List (Post α)) : Prop :=
  ∀ a b, ((posts a).filterMap (Post.toPeer b)).length =
    ((posts b).filterMap (Post.fromPeer a)).length

theorem length_matched (r : Round α n ranks) (a b : Int) :
    ((r.legs a).filterMap (Leg.sentTo b)).length =
      ((r.legs b).filterMap (Leg.askedFrom a)).length := by
  simpa using congrArg List.length (r.matched a b)

/-- A round leaves nothing behind. -/
theorem Balanced.round (h : Balanced posts) (r : Round α n ranks) (heaps : Int → Heap α) :
    Balanced fun p => posts p ++ (r.legs p).map (Leg.post (heaps p)) := by
  intro a b
  rw [List.filterMap_append, List.filterMap_append, toPeer_post, fromPeer_post,
    List.length_append, List.length_append, List.length_map, h a b, length_matched r a b]

/-- Once all legs of a round have been posted, each of them can be waited
for. -/
theorem completed_round (early : Bool) (hbal : Balanced posts)
    (hw : ∀ q, (w q).posts = posts q ++ (r.legs q).map (Leg.post (heaps q))) {j : Nat}
    (hj : j < (r.legs p).length) :
    completed early p w ((posts p).length + j) = some (r.brings heaps p j) := by
  have hleg : (r.legs p)[j]? = some (r.legs p)[j] := List.getElem?_eq_getElem hj
  have hpost : (w p).posts[(posts p).length + j]? = some ((r.legs p)[j].post (heaps p)) := by
    rw [hw, List.getElem?_append_right (Nat.le_add_right _ _), Nat.add_sub_cancel_left,
      List.getElem?_map, hleg]
    rfl
  generalize hx : (r.legs p)[j] = x at hleg hpost
  cases x with
  | send sv dest =>
    -- a send: there is a receive for it
    refine completed_eq_some.mpr (.inl ⟨dest, _, hpost, .inr ?_, ?_⟩)
    · have hsent := Occurrences.getElem?_filterMap_of_getElem? hpost
        (show Post.toPeer dest ((Leg.send sv dest).post (heaps p)) = some (sv.values (heaps p)) by
          simp [Leg.post, Post.toPeer])
      have hlt := (List.getElem?_eq_some_iff.mp hsent).1
      have hlen := hbal.round r heaps p dest
      rw [hw p, hlen] at hlt
      rw [Meaning.asked, hw dest]
      rw [Meaning.sentBefore, hw p]
      exact hlt
    · funext h
      simp [Round.brings, hleg]
  | recv rv src =>
    -- a receive: the message is the one of this round
    have hasked := Occurrences.getElem?_filterMap_of_getElem? hleg
      (show Leg.askedFrom src (.recv rv src) = some rv by simp [Leg.askedFrom])
    generalize hk : (((r.legs p).take j).filterMap (Leg.askedFrom src)).length = k at hasked
    have hsizes := congrArg (·[k]?) (r.matched src p)
    simp only [List.getElem?_map, hasked, Option.map_some] at hsizes
    obtain ⟨sv, hsv, hsize⟩ := Option.map_eq_some_iff.mp hsizes
    have hbefore : (w p).askedBefore ((posts p).length + j) src =
        ((posts src).filterMap (Post.toPeer p)).length + k := by
      rw [Meaning.askedBefore, hw p, List.take_append, List.take_of_length_le (by omega),
        Nat.add_sub_cancel_left, ← List.map_take, List.filterMap_append, fromPeer_post,
        List.length_append, hk, ← hbal src p]
    refine completed_eq_some.mpr (.inr ⟨src, rv, sv.values (heaps src), hpost, ?_, ?_, ?_⟩)
    · rw [hbefore, Meaning.sent, hw src, List.filterMap_append, toPeer_post,
        List.getElem?_append_right (Nat.le_add_right _ _), Nat.add_sub_cancel_left,
        List.getElem?_map, hsv]
      rfl
    · rw [View.length_values, hsize]
    · simp only [Round.brings, hleg, hk, hsv]

theorem completedAll_map {m : Nat} {g : Nat → Heap α → Heap α} {js : List Nat}
    (h : ∀ j ∈ js, completed early p w (m + j) = some (g j)) :
    completedAll early p w (js.map (m + ·)) =
      some fun heap => js.foldl (fun h j => g j h) heap := by
  induction js with
  | nil => rfl
  | cons j js ih =>
    rw [List.map_cons, completedAll, h j List.mem_cons_self,
      ih fun j' hj' => h j' (List.mem_cons_of_mem _ hj')]
    rfl

/-- Between two rounds. -/
def between (rounds : List (Round α n ranks)) (heaps : Int → Heap α)
    (posts : Int → List (Post α)) (p : Int) : Meaning α where
  program := if p ∈ ranks then Round.program p (posts p).length rounds else []
  heap := heaps p
  posts := posts p

/-- A round can be run. -/
theorem exec_between (early : Bool) (hranks : ranks.Nodup) (hbal : Balanced posts)
    (rounds : List (Round α n ranks)) :
    ∃ turns posts', exec (network (move early)) (between (r :: rounds) heaps posts) turns =
      some (between rounds (r.run heaps) posts') ∧ Balanced posts' := by
  have hmonotone := monotone_move early (α := α)
  -- all processes have posted their legs
  obtain ⟨turns, hturns⟩ := hmonotone.each (w := between (r :: rounds) heaps posts)
    (f := fun p => {
      program := .waitAll (List.range' (posts p).length (r.legs p).length) ::
        Round.program p ((posts p).length + (r.legs p).length) rounds
      heap    := (r.work p).run (heaps p)
      posts   := posts p ++ (r.legs p).map (Leg.post ((r.work p).run (heaps p))) }) hranks
    fun p hp => ⟨_, exec_round (m := (posts p).length) (by simp [between, hp, Round.program])⟩
  generalize hv : (fun q => if q ∈ ranks then _ else _) = v at hturns
  have hposts : ∀ q, (v q).posts =
      posts q ++ (r.legs q).map (Leg.post (r.work.run ranks heaps q)) := by
    intro q
    rw [← hv]
    by_cases hq : q ∈ ranks
    · simp [hq, Work.run]
    · simp [hq, r.silent q hq, between]
  have hheap : ∀ q, (v q).heap = r.work.run ranks heaps q := by
    intro q
    rw [← hv]
    by_cases hq : q ∈ ranks <;> simp [hq, Work.run, between]
  -- each process passes its wait
  obtain ⟨turns', hturns'⟩ := hmonotone.each (w := v)
    (f := fun p => {
      program := Round.program p ((posts p).length + (r.legs p).length) rounds
      heap    := r.run heaps p
      posts   := (v p).posts }) hranks fun p hp => by
    refine ⟨1, exec_singleton (network_eq_some.mpr ⟨_, ?_, rfl⟩)⟩
    have hprog : (v p).program = .waitAll (List.range' (posts p).length (r.legs p).length) ::
        Round.program p ((posts p).length + (r.legs p).length) rounds := by
      rw [← hv]
      simp [hp]
    have hall := completedAll_map fun j hj =>
      completed_round early hbal hposts (p := p) (List.mem_range.mp hj)
    rw [← List.range'_eq_map_range] at hall
    rw [move, hprog]
    simp only [hall, Option.map_some, hheap]
    rfl
  refine ⟨turns ++ turns',
    fun q => posts q ++ (r.legs q).map (Leg.post (r.work.run ranks heaps q)),
    exec_append_eq_some.mpr ⟨v, hturns, hturns'.trans ?_⟩, hbal.round r _⟩
  congr 1
  funext q
  by_cases hq : q ∈ ranks
  · simp [hq, between, hposts]
  · have hq' : v q = between (r :: rounds) heaps posts q := by
      rw [← hv]
      simp [hq]
    simp [hq, between, hq', r.silent q hq, Round.run, Round.exchange, Work.run]

/-- Programs in rounds say what their rounds do. -/
theorem Round.saysAll (hranks : ranks.Nodup) (rounds : List (Round α n ranks))
    (heaps : Int → Heap α) :
    Says early (Round.programs rounds) heaps (Round.runAll rounds heaps) := by
  suffices hall : ∀ (rounds : List (Round α n ranks)) (heaps : Int → Heap α)
      (posts : Int → List (Post α)), Balanced posts →
      ∃ turns posts', exec (network (move early)) (between rounds heaps posts) turns =
        some (between [] (Round.runAll rounds heaps) posts') by
    obtain ⟨turns, posts', hturns⟩ := hall rounds heaps (fun _ => []) fun _ _ => rfl
    refine ⟨turns, _, hturns, fun p => ⟨?_, rfl⟩⟩
    show (if p ∈ ranks then Round.program p (posts' p).length ([] : List (Round α n ranks))
      else []) = []
    simp [Round.program]
  intro rounds
  induction rounds with
  | nil => exact fun heaps posts _ => ⟨[], posts, rfl⟩
  | cons r rounds ih =>
    intro heaps posts hbal
    obtain ⟨turns, posts', hturns, hbal'⟩ := exec_between early hranks hbal rounds
    obtain ⟨turns', posts'', hturns'⟩ := ih (r.run heaps) posts' hbal'
    exact ⟨turns ++ turns', posts'', exec_append_eq_some.mpr ⟨_, hturns, hturns'⟩⟩

end InTurn

/-! ## §3 Over MPI -/

/-- **Programs in rounds do what their rounds say**, with standard or
synchronous sends, with or without buffers, and whatever MPI has done so
far. -/
theorem rounds_carried_out (T : Transport) (hranks : ranks.Nodup) (rounds : List (Round α n ranks))
    (heaps : Int → Heap α) {acts : List Act} {w : Peers α}
    (hacts : exec (Peers.step T) (.start (Round.programs rounds) heaps n) acts = some w) :
    (∃ acts' w', exec (Peers.step T) w acts' = some w' ∧ w'.Finished) ∧
      (w.Finished → ∀ (p : Int) (c : Cell), c.1 < n →
        (w p).proc.heap c = Round.runAll rounds heaps p c) := by
  have hmeans : Says false _ heaps _ := Round.saysAll hranks rounds heaps
  exact hmeans.carried (Round.keepsOff_programs rounds) Bool.noConfusion hacts

/-- Process 0 sends every third element to process 1. -/
def pass : Round Nat 1 [0, 1] where
  work := .idle
  legs p :=
    if p = 0 then [.send (.line 0 0 2 3) 1]
    else if p = 1 then [.recv (.line 0 7 2 1) 0]
    else []
  ok p := by
    intro x hx
    split at hx
    · obtain rfl := List.mem_singleton.mp hx
      exact ⟨by decide, by decide, by decide⟩
    · split at hx
      · obtain rfl := List.mem_singleton.mp hx
        exact ⟨by decide, by decide, by decide⟩
      · simp at hx
  apart p := by
    split
    · simp
    · split <;> simp
  fits p := by
    split
    · simp
    · split <;> simp
  matched a b := by
    split
    · rename_i ha
      subst ha
      by_cases h0 : b = 0
      · subst h0
        rfl
      · by_cases h1 : b = 1
        · subst h1
          rfl
        · simp [Leg.sentTo, h0, h1, Ne.symm h1]
    · rename_i ha
      have hlegs : ∀ x ∈ (if b = 0 then [Leg.send (.line 0 0 2 3) 1] else if b = 1 then
          [Leg.recv (.line 0 7 2 1) 0] else []), x.askedFrom a = none := by
        intro x hx
        split at hx
        · obtain rfl := List.mem_singleton.mp hx
          rfl
        · split at hx
          · obtain rfl := List.mem_singleton.mp hx
            exact if_neg (Ne.symm ha)
          · simp at hx
      rw [List.filterMap_eq_nil_iff.mpr hlegs]
      split <;> rfl
  silent p hp := by
    simp only [List.mem_cons, List.not_mem_nil, or_false, not_or] at hp
    simp [hp.1, hp.2]

theorem rounds_carried_out_pass : ∃ acts w,
    exec (Peers.step synchronous)
      (.start (Round.programs [pass, pass]) (fun p c => 100 * p.toNat + c.2) 1) acts = some w ∧
      w.Finished ∧ (w 1).proc.heap (0, 8) = 3 := by
  have hstart : exec (Peers.step synchronous) (.start (Round.programs [pass, pass])
    (fun p c => 100 * p.toNat + c.2) 1) [] = some _ := rfl
  obtain ⟨⟨acts, w, hacts, hw⟩, -⟩ :=
    rounds_carried_out synchronous (by decide) [pass, pass] _ hstart
  obtain ⟨-, hheap⟩ := rounds_carried_out synchronous (by decide) [pass, pass] _ hacts
  exact ⟨acts, w, hacts, hw, (hheap hw 1 (0, 8) (by decide)).trans (by decide)⟩

end KokkosComm.Mpi.Messaging
