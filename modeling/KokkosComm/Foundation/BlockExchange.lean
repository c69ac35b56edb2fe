/-
KokkosComm.Foundation.BlockExchange — messages between parties that post them
together.

Each party of a group posts sends and receives. Those of one pair of
parties match in the order in which they are posted, and the group is over
when all messages have arrived; `runGroup` is that. Messages and receives
that do not match, or cells that are received twice, break the contract of
the group.

`transpose` is one collective exchange: every party cuts its send buffer
into blocks, and party `j` receives block `j` of each, one after the other;
`exchange` does this for parties that agree on the size of their buffers.
A group that posts one send and one receive for each party, block by block,
is the same exchange (`runGroup_inBlocks`).
-/
import KokkosComm.Foundation.Reduction
import Mathlib.Algebra.BigOperators.Ring.List

namespace BlockExchange

open Reduction (Party)

/-! ## Blocks of a list -/

section Blocks

variable {α β : Type} {count : Nat}

/-- Block `r` of a list that is cut into blocks of `count` elements. -/
def block (count : Nat) (xs : List α) (r : Nat) : List α := (xs.drop (r * count)).take count

theorem block_succ (xs : List α) (r : Nat) :
    block count xs (r + 1) = block count (xs.drop count) r := by
  rw [block, block, List.drop_drop, Nat.succ_mul, Nat.add_comm]

@[simp] theorem block_map (f : α → β) (xs : List α) (r : Nat) :
    block count (xs.map f) r = (block count xs r).map f := by
  rw [block, block, ← List.map_drop, ← List.map_take]

theorem length_block {xs : List α} {n r : Nat} (hlen : xs.length = n * count) (hr : r < n) :
    (block count xs r).length = count := by
  have hle : (r + 1) * count ≤ n * count := Nat.mul_le_mul_right count hr
  rw [Nat.succ_mul] at hle
  rw [block, List.length_take, List.length_drop]
  omega

/-- The blocks make up the list. -/
theorem flatMap_block {xs : List α} {n : Nat} (hlen : xs.length = n * count) :
    (List.range n).flatMap (block count xs) = xs := by
  induction n generalizing xs with
  | zero =>
    rw [Nat.zero_mul, List.length_eq_zero_iff] at hlen
    simp [hlen]
  | succ n ih =>
    have htail : (xs.drop count).length = n * count := by
      rw [List.length_drop, hlen, Nat.succ_mul, Nat.add_sub_cancel]
    rw [List.range_succ_eq_map, List.flatMap_cons, List.flatMap_map]
    simp only [block_succ]
    rw [ih htail]
    simp [block]

/-- The blocks of blocks that were put one after the other. -/
theorem block_flatMap {f : β → List α} {l : List β} (hlen : ∀ x ∈ l, (f x).length = count)
    {j : Nat} {x : β} (hj : l[j]? = some x) : block count (l.flatMap f) j = f x := by
  induction l generalizing j with
  | nil => simp at hj
  | cons y l ih =>
    have hy : (f y).length = count := hlen y (by simp)
    cases j with
    | zero =>
      obtain rfl : y = x := by simpa using hj
      simp [block, ← hy]
    | succ j =>
      rw [List.flatMap_cons, block_succ, ← hy, List.drop_left, hy]
      exact ih (fun z hz => hlen z (List.mem_cons_of_mem y hz)) (by simpa using hj)

end Blocks

/-! ## Groups -/

section Groups

variable {ι α : Type}

/-- What a party posts: for each send and each receive the peer and the
cells, and what it does when the group is over. -/
structure Postings (ι α : Type) where
  memory : ι → α
  sends : List (Nat × List ι)
  recvs : List (Nat × List ι)
  complete : (ι → α) → ι → α

/-- The buffers that are posted for a peer, in their order. -/
def postedFor (posts : List (Nat × List ι)) (peer : Nat) : List (List ι) :=
  (posts.filter fun s => s.1 == peer).map (·.2)

namespace Postings

def messagesTo (p : Postings ι α) (peer : Nat) : List (List α) :=
  (postedFor p.sends peer).map (Memory.gather p.memory)

def buffersFrom (p : Postings ι α) (peer : Nat) : List (List ι) := postedFor p.recvs peer

end Postings

/-- Every message has a receive of its size, every peer is a party, and no
cell is received twice. -/
def Matched (parties : List (Postings ι α)) : Prop :=
  (∀ x ∈ parties.zipIdx, ∀ y ∈ parties.zipIdx,
    (x.1.messagesTo y.2).map List.length = (y.1.buffersFrom x.2).map List.length) ∧
  ∀ p ∈ parties, (∀ s ∈ p.sends ++ p.recvs, s.1 < parties.length) ∧
    (p.recvs.flatMap (·.2)).Nodup

instance [DecidableEq ι] (parties : List (Postings ι α)) : Decidable (Matched parties) := by
  unfold Matched
  infer_instance

/-- The memories of all parties after the group. -/
def runGroup [DecidableEq ι] (parties : List (Postings ι α)) : Outcome (List (ι → α)) :=
  if Matched parties then
    .returns (parties.mapIdx fun j q => q.complete (Memory.scatter q.memory
      ((List.range parties.length).flatMap fun i => (q.buffersFrom i).flatten)
      (parties.flatMap fun p => (p.messagesTo j).flatten)))
  else .undefined

/-! ## Transposition -/

/-- The memories of all parties after the exchange of their blocks. -/
def transpose [DecidableEq ι] (count : Nat) (parties : List (Party ι α)) : List (ι → α) :=
  parties.mapIdx fun j q => q.received (parties.flatMap fun p => block count p.message j)

/-- The exchange of blocks, for parties that agree on their size. -/
def runTranspose [DecidableEq ι] (count : Nat) (parties : List (Party ι α)) :
    Outcome (List (ι → α)) :=
  if ∀ p ∈ parties, p.sendbuf.length = parties.length * count then
    .returns (transpose count parties)
  else .undefined

/-- The exchange of one block for each party, whose size is what the send
buffers amount to. -/
def exchange [DecidableEq ι] (parties : List (Party ι α)) : Outcome (List (ι → α)) :=
  match Reduction.agreedCount parties with
  | some n => runTranspose (n / parties.length) parties
  | none => .undefined

/-- A party that posts its blocks one by one. -/
def inBlocks (n count : Nat) (p : Party ι α) : Postings ι α where
  memory := p.memory
  sends := (List.range n).map fun r => (r, block count p.sendbuf r)
  recvs := (List.range n).map fun r => (r, block count p.recvbuf r)
  complete := p.complete

theorem postedFor_map_range {f : Nat → List ι} {n i : Nat} (hi : i < n) :
    postedFor ((List.range n).map fun r => (r, f r)) i = [f i] := by
  have hfilter : (List.range n).filter (fun r => r == i) = [i] := by
    rw [List.filter_beq, List.count_eq_one_of_mem List.nodup_range (List.mem_range.mpr hi)]
    rfl
  rw [postedFor, List.filter_map, List.map_map]
  exact congrArg (List.map f) hfilter

/-- Parties whose buffers are a block for each of them. -/
structure Sized (count : Nat) (parties : List (Party ι α)) : Prop where
  send : ∀ p ∈ parties, p.sendbuf.length = parties.length * count
  recv : ∀ p ∈ parties, p.recvbuf.length = parties.length * count
  nodup : ∀ p ∈ parties, p.recvbuf.Nodup

variable {parties : List (Party ι α)} {p q : Party ι α} {n count i : Nat}

theorem Sized.message (h : Sized count parties) (hp : p ∈ parties) :
    p.message.length = parties.length * count := by
  rw [Party.length_message, h.send p hp]

theorem messagesTo_inBlocks (hi : i < n) :
    (inBlocks n count p).messagesTo i = [block count p.message i] := by
  rw [Postings.messagesTo, inBlocks, postedFor_map_range hi, Party.message, Memory.gather,
    block_map]
  rfl

theorem buffersFrom_inBlocks (hi : i < n) :
    (inBlocks n count p).buffersFrom i = [block count p.recvbuf i] :=
  postedFor_map_range hi

/-- Blocks match. -/
theorem matched_inBlocks (h : Sized count parties) :
    Matched (parties.map (inBlocks parties.length count)) := by
  have hparty : ∀ {x : Postings ι α × Nat},
      x ∈ (parties.map (inBlocks parties.length count)).zipIdx → x.2 < parties.length ∧
        ∃ p ∈ parties, x.1 = inBlocks parties.length count p := by
    intro x hx
    have hget := List.mk_mem_zipIdx_iff_getElem?.mp hx
    rw [List.getElem?_map, Option.map_eq_some_iff] at hget
    obtain ⟨p, hp, heq⟩ := hget
    exact ⟨(List.getElem?_eq_some_iff.mp hp).1, p, List.mem_of_getElem? hp, heq.symm⟩
  refine ⟨fun x hx y hy => ?_, fun x hx => ?_⟩
  · obtain ⟨hi, p, hp, hxp⟩ := hparty hx
    obtain ⟨hj, q, hq, hyq⟩ := hparty hy
    rw [hxp, hyq, messagesTo_inBlocks hj, buffersFrom_inBlocks hi]
    simp [length_block (h.message hp) hj, length_block (h.recv q hq) hi]
  · obtain ⟨p, hp, rfl⟩ := List.mem_map.mp hx
    refine ⟨fun s hs => ?_, ?_⟩
    · rw [List.length_map]
      rcases List.mem_append.mp hs with hs | hs
      · obtain ⟨r, hr, rfl⟩ := List.mem_map.mp hs
        exact List.mem_range.mp hr
      · obtain ⟨r, hr, rfl⟩ := List.mem_map.mp hs
        exact List.mem_range.mp hr
    · have hblocks := flatMap_block (h.recv p hp)
      rw [inBlocks, List.flatMap_map, hblocks]
      exact h.nodup p hp

/-- A group that exchanges blocks transposes them. -/
theorem runGroup_inBlocks [DecidableEq ι] (h : Sized count parties) :
    runGroup (parties.map (inBlocks parties.length count)) =
      .returns (transpose count parties) := by
  rw [runGroup, if_pos (matched_inBlocks h), transpose]
  refine congrArg Outcome.returns (List.ext_getElem? fun j => ?_)
  rw [List.getElem?_mapIdx, List.getElem?_mapIdx, List.getElem?_map, Option.map_map]
  cases hq : parties[j]? with
  | none => rfl
  | some q =>
    have hj := (List.getElem?_eq_some_iff.mp hq).1
    have hcells : ((List.range parties.length).flatMap fun i =>
        ((inBlocks parties.length count q).buffersFrom i).flatten) = q.recvbuf := by
      refine Eq.trans ?_ (flatMap_block (h.recv q (List.mem_of_getElem? hq)))
      refine List.flatMap_congr fun i hi => ?_
      rw [buffersFrom_inBlocks (List.mem_range.mp hi), List.flatten_singleton]
    simp only [Option.map_some, Function.comp_apply, List.length_map, hcells, List.flatMap_map,
      messagesTo_inBlocks hj, List.flatten_singleton]
    rfl

/-- Block `j` of what party `i` receives is block `i` of what party `j`
sends. -/
theorem gather_transposed [DecidableEq ι] (h : Sized count parties) {j : Nat}
    (hq : parties[i]? = some q) (hp : parties[j]? = some p) :
    Memory.gather (Memory.scatter q.memory q.recvbuf
      (parties.flatMap fun p => block count p.message i)) (block count q.recvbuf j) =
        block count p.message i := by
  have hi := (List.getElem?_eq_some_iff.mp hq).1
  have hlen : ∀ p ∈ parties, (block count p.message i).length = count :=
    fun p hp => length_block (h.message hp) hi
  have htotal : (parties.flatMap fun p => block count p.message i).length = q.recvbuf.length := by
    rw [List.length_flatMap, List.map_congr_left hlen, h.recv q (List.mem_of_getElem? hq)]
    simp [List.map_const']
  have hwritten := Memory.gather_scatter (m := q.memory) (h.nodup q (List.mem_of_getElem? hq))
    htotal
  rw [Memory.gather, ← block_map]
  exact (congrArg (fun l => block count l j) hwritten).trans (block_flatMap hlen hp)

end Groups

end BlockExchange
