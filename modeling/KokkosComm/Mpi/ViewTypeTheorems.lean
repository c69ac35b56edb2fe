/-
KokkosComm.Mpi.ViewTypeTheorems — `view_mpi_type` describes exactly the
view, whatever was cached before.

§1 The loop wraps the dimensions in order, so by `TypeMap.hvectors_eq` the
   first one varies fastest; with extents and strides representable in
   `int` no conversion changes a value.
§2 Representable shapes have different keys. So a cached datatype, which
   describes the shape of its key, describes every view with that key.
§3 Two such datatypes for views of equal extents transfer index by index.
-/
import KokkosComm.Mpi.ViewType

namespace KokkosComm.Mpi

open MultiIndex

/-! ## The dimensions of a view -/

/-- Extents and strides. -/
def dims (v : View) : List (Nat × Nat) := v.extents.zip v.strides

/-- Reading a view dimension by dimension. -/
theorem range_map_dims (v : View) :
    (List.range v.extents.length).map (fun d => (v.extent d, v.stride d)) = dims v := by
  refine List.ext_getElem (by simp [dims, v.rank_eq]) fun d hd hd' => ?_
  have hlt : d < v.extents.length := by simpa using hd
  have hlt' : d < v.strides.length := by rw [v.rank_eq]; exact hlt
  simp [dims, View.extent, View.stride, hlt, hlt']

theorem map_fst_dims (v : View) : (dims v).map Prod.fst = v.extents :=
  List.map_fst_zip (by rw [v.rank_eq])

/-- Both numbers are representable in `int`. -/
def FitInt (dims : List (Nat × Nat)) : Prop := ∀ p ∈ dims, p.1 < 2147483648 ∧ p.2 < 2147483648

theorem IntView.fitInt (v : IntView) : FitInt (dims v.toView) := fun _ hp =>
  ⟨v.extents_lt _ (List.of_mem_zip hp).1, v.strides_lt _ (List.of_mem_zip hp).2⟩

/-! ## §1 The loop -/

namespace Datatypes

/-- Nothing that was there is changed. -/
structure Extends (lib lib' : Datatypes) : Prop where
  map : ∀ type t, lib.map? type = some t → lib'.map? type = some t
  committed : ∀ type, lib.isCommitted type = true → lib'.isCommitted type = true

theorem Extends.refl (lib : Datatypes) : Extends lib lib := ⟨fun _ _ h => h, fun _ h => h⟩

theorem Extends.trans {lib lib' lib'' : Datatypes} (h : Extends lib lib')
    (h' : Extends lib' lib'') : Extends lib lib'' :=
  ⟨fun type t ht => h'.map type t (h.map type t ht),
    fun type ht => h'.committed type (h.committed type ht)⟩

theorem extends_extended (lib : Datatypes) (maps : List (TypeMap ValueType))
    (committed : List Nat) : Extends lib (lib.extended maps committed) where
  map := by
    intro type t ht
    cases type with
    | predefined τ => exact ht
    | derived n =>
      have hlt := (List.getElem?_eq_some_iff.mp ht).1
      exact (List.getElem?_append_left hlt).trans ht
  committed := by
    intro type ht
    cases type with
    | predefined τ => rfl
    | derived n => simpa [isCommitted, extended] using Or.inl (by simpa [isCommitted] using ht)

/-- `MPI_Type_create_hvector` on a datatype that exists. -/
theorem createHvector_eq {lib : Datatypes} {oldtype : MpiDatatype} {t : TypeMap ValueType}
    (ht : lib.map? oldtype = some t) (count : Nat) (stride : Int) :
    ∃ newtype, lib.createHvector count stride oldtype =
        .returns (newtype, lib.extended [t.hvector count stride] []) ∧
      (lib.extended [t.hvector count stride] []).map? newtype = some (t.hvector count stride) := by
  refine ⟨.derived lib.maps.length, ?_, by simp [map?, extended]⟩
  unfold createHvector
  simp [ht, extended]

/-- `MPI_Type_commit` on a datatype that exists. -/
theorem commit_eq {lib : Datatypes} {type : MpiDatatype} {t : TypeMap ValueType}
    (ht : lib.map? type = some t) :
    ∃ lib', lib.commit type = .returns lib' ∧ Extends lib lib' ∧ lib'.isCommitted type = true := by
  cases type with
  | predefined τ => exact ⟨lib, rfl, .refl lib, rfl⟩
  | derived n =>
    have hlt := (List.getElem?_eq_some_iff.mp ht).1
    refine ⟨{ lib with committed := lib.committed ++ [n] }, if_pos hlt, ?_, by simp [isCommitted]⟩
    have hext := extends_extended lib [] [n]
    rwa [extended, List.append_nil] at hext

end Datatypes

theorem toAint_of_lt {n : Nat} (h : n < 9223372036854775808) : toAint n = n := by
  unfold toAint
  rw [Int.bmod_def]
  split <;> omega

/-- The strides of a dimension, in bytes. -/
def byteDims (τ : ValueType) (dims : List (Nat × Nat)) : List (Nat × Int) :=
  dims.map fun p => (p.1, ((p.2 * τ.sizeof : Nat) : Int))

/-- The body of the loop, for a dimension with extent and stride `p`. -/
theorem createHvector_dim {lib : Datatypes} {oldtype : MpiDatatype} {t : TypeMap ValueType}
    (ht : lib.map? oldtype = some t) (τ : ValueType) {p : Nat × Nat}
    (hp : p.1 < 2147483648 ∧ p.2 < 2147483648) :
    ∃ newtype lib', lib.createHvector (CInt.ofSize p.1) (toAint (p.2 * τ.sizeof)) oldtype =
        .returns (newtype, lib') ∧ Datatypes.Extends lib lib' ∧
      lib'.map? newtype = some (t.hvector p.1 ((p.2 * τ.sizeof : Nat) : Int)) := by
  have hbytes : p.2 * τ.sizeof < 9223372036854775808 := by
    have := Nat.mul_le_mul (Nat.le_of_lt hp.2) τ.sizeof_le
    omega
  rw [CInt.ofSize_of_lt hp.1, toAint_of_lt hbytes]
  obtain ⟨newtype, hrun, hmap⟩ :=
    Datatypes.createHvector_eq ht p.1 ((p.2 * τ.sizeof : Nat) : Int)
  exact ⟨newtype, _, hrun, Datatypes.extends_extended lib _ _, hmap⟩

/-- The loop, from any datatype on. -/
theorem loop_eq (τ : ValueType) {ds : List (Nat × Nat)} (hds : FitInt ds) {lib : Datatypes}
    {type : MpiDatatype} {t : TypeMap ValueType} (ht : lib.map? type = some t) :
    ∃ type' lib', ds.foldlM (fun (q : MpiDatatype × Datatypes) p =>
        q.2.createHvector (CInt.ofSize p.1) (toAint (p.2 * τ.sizeof)) q.1) (type, lib) =
        .returns (type', lib') ∧ Datatypes.Extends lib lib' ∧
      lib'.map? type' = some (t.hvectors (byteDims τ ds)) := by
  induction ds generalizing lib type t with
  | nil => exact ⟨type, lib, rfl, .refl lib, ht⟩
  | cons p ds ih =>
    obtain ⟨newtype, lib₁, hrun, hext, hmap⟩ := createHvector_dim ht τ (hds p (.head _))
    obtain ⟨type', lib', hrest, hext', hmap'⟩ := ih (fun q hq => hds q (.tail _ hq)) hmap
    refine ⟨type', lib', ?_, hext.trans hext', hmap'⟩
    rw [List.foldlM_cons, hrun]
    exact hrest

/-- The displacement in bytes. -/
theorem disp_byteDims (τ : ValueType) {exts strides : List Nat}
    (hlen : strides.length = exts.length) (i : List Nat) :
    TypeMap.disp (byteDims τ (exts.zip strides)) i = (offset strides i * τ.sizeof : Nat) := by
  induction strides generalizing exts i with
  | nil => simp [byteDims, TypeMap.disp, offset]
  | cons stride strides ih =>
    cases exts with
    | nil => simp at hlen
    | cons e exts =>
      cases i with
      | nil => simp [byteDims, TypeMap.disp, offset]
      | cons x is =>
        have hrest := ih (show strides.length = exts.length by simpa using hlen) is
        simp only [byteDims, List.zip_cons_cons, List.map_cons, TypeMap.disp, offset] at hrest ⊢
        rw [hrest, Nat.add_mul]
        push_cast
        rw [Int.mul_assoc]

/-- The nested vectors of a view have its type map. -/
theorem hvectors_dims (τ : ValueType) (v : View) :
    TypeMap.hvectors [(τ, 0)] (byteDims τ (dims v)) = typeMapOf τ v := by
  have hfst : (byteDims τ (dims v)).map Prod.fst = v.extents := by
    rw [byteDims, List.map_map]
    exact map_fst_dims v
  rw [TypeMap.hvectors_eq, hfst, typeMapOf, List.map_eq_flatMap]
  refine List.flatMap_congr fun i _ => ?_
  rw [dims, disp_byteDims τ v.rank_eq]
  simp [TypeMap.shift]

/-- The datatype that the loop builds and commits. -/
theorem build_describes (τ : ValueType) (v : IntView) (lib : Datatypes) :
    ∃ type lib₁ lib',
      (List.range v.extents.length).foldlM (wrapDimension τ v.toView) (.predefined τ, lib) =
        .returns (type, lib₁) ∧
      lib₁.commit type = .returns lib' ∧ Datatypes.Extends lib lib' ∧
      lib'.Describes τ v.toView type := by
  obtain ⟨type, lib₁, hloop, hext, hmap⟩ :=
    loop_eq τ v.fitInt (show lib.map? (.predefined τ) = some [(τ, 0)] from rfl)
  obtain ⟨lib', hcommit, hext', hcommitted⟩ := Datatypes.commit_eq hmap
  refine ⟨type, lib₁, lib', ?_, hcommit, hext.trans hext', ?_, hcommitted⟩
  · rw [← range_map_dims, List.foldlM_map] at hloop
    exact hloop
  · rw [← hvectors_dims]
    exact hext'.map _ _ hmap

/-! ## §2 The cache -/

theorem Datatypes.Describes.extend {lib lib' : Datatypes} {τ : ValueType} {v : View}
    {type : MpiDatatype} (h : lib.Describes τ v type) (hext : Datatypes.Extends lib lib') :
    lib'.Describes τ v type :=
  ⟨hext.map _ _ h.map, hext.committed _ h.committed⟩

/-- The key, dimension by dimension. -/
theorem keyOf_eq (v : View) :
    keyOf v = (dims v).flatMap fun p => [CInt.ofSize p.1, CInt.ofSize p.2] := by
  rw [← range_map_dims, List.flatMap_map]
  rfl

/-- Shapes that are representable have different keys. -/
theorem dims_of_key {ds ds' : List (Nat × Nat)} (h : FitInt ds) (h' : FitInt ds')
    (heq : (ds.flatMap fun p => [CInt.ofSize p.1, CInt.ofSize p.2]) =
      ds'.flatMap fun p => [CInt.ofSize p.1, CInt.ofSize p.2]) : ds = ds' := by
  induction ds generalizing ds' with
  | nil =>
    cases ds' with
    | nil => rfl
    | cons p' ds' => cases heq
  | cons p ds ih =>
    cases ds' with
    | nil => cases heq
    | cons p' ds' =>
      simp only [List.flatMap_cons, List.cons_append, List.nil_append, List.cons.injEq] at heq
      obtain ⟨hext, hstride, hrest⟩ := heq
      have hp := h p (.head _)
      have hp' := h' p' (.head _)
      rw [CInt.ofSize_of_lt hp.1, CInt.ofSize_of_lt hp'.1] at hext
      rw [CInt.ofSize_of_lt hp.2, CInt.ofSize_of_lt hp'.2] at hstride
      have hpp : p = p' := Prod.ext (by omega) (by omega)
      rw [hpp, ih (fun q hq => h q (.tail _ hq)) (fun q hq => h' q (.tail _ hq)) hrest]

/-- Views with one key have one type map. -/
theorem typeMapOf_of_key (τ : ValueType) {v w : IntView}
    (h : keyOf v.toView = keyOf w.toView) : typeMapOf τ v.toView = typeMapOf τ w.toView := by
  rw [keyOf_eq, keyOf_eq] at h
  rw [← hvectors_dims, ← hvectors_dims, dims_of_key v.fitInt w.fitInt h]

/-- Every cached datatype describes the views with its key. -/
def ViewTypes.Good (τ : ValueType) (s : ViewTypes) : Prop :=
  ∀ (v : IntView) type, s.cache (keyOf v.toView) = some type → s.lib.Describes τ v.toView type

theorem good_start (τ : ValueType) (lib : Datatypes) : (ViewTypes.start lib).Good τ := nofun

theorem viewMpiType_of_cached {τ : ValueType} {v : View} {s : ViewTypes} {type : MpiDatatype}
    (h : s.cache (keyOf v) = some type) : viewMpiType τ v s = .returns (type, s) := by
  simp only [viewMpiType, h]

theorem viewMpiType_of_new {τ : ValueType} {v : View} {s : ViewTypes} {type : MpiDatatype}
    {lib₁ lib' : Datatypes} (h : s.cache (keyOf v) = none)
    (hloop : (List.range v.extents.length).foldlM (wrapDimension τ v) (.predefined τ, s.lib) =
      .returns (type, lib₁))
    (hcommit : lib₁.commit type = .returns lib') :
    viewMpiType τ v s =
      .returns (type,
        { lib := lib', cache := Function.update s.cache (keyOf v) (some type) }) := by
  simp only [viewMpiType, h, hloop, Outcome.returns_bind, hcommit]
  rfl

/-- A call returns a datatype that describes the view, and keeps the cache
good. -/
theorem viewMpiType_describes {τ : ValueType} {s : ViewTypes} (hs : s.Good τ) (v : IntView) :
    ∃ type s', viewMpiType τ v.toView s = .returns (type, s') ∧ s'.Good τ ∧
      s'.lib.Describes τ v.toView type := by
  cases hcache : s.cache (keyOf v.toView) with
  | some type => exact ⟨type, s, viewMpiType_of_cached hcache, hs, hs v type hcache⟩
  | none =>
    obtain ⟨type, lib₁, lib', hloop, hcommit, hext, hdescribes⟩ := build_describes τ v s.lib
    refine ⟨type, _, viewMpiType_of_new hcache hloop hcommit, fun w type' hw => ?_, hdescribes⟩
    by_cases hkey : keyOf w.toView = keyOf v.toView
    · -- the new entry serves every view with the key
      rw [hkey] at hw
      obtain rfl : type = type' := by simpa using hw
      exact ⟨(typeMapOf_of_key τ hkey).symm ▸ hdescribes.map, hdescribes.committed⟩
    · have hold : s.cache (keyOf w.toView) = some type' := by
        simpa [Function.update_of_ne hkey] using hw
      exact (hs w type' hold).extend hext

theorem good_step {τ : ValueType} {s : ViewTypes} (hs : s.Good τ) (e : TypeEvent) :
    ∃ s', s.step τ e = some s' ∧ s'.Good τ := by
  cases e with
  | viewMpiType v =>
    obtain ⟨type, s', hrun, hgood, -⟩ := viewMpiType_describes hs v
    exact ⟨s', by simp [ViewTypes.step, hrun, Outcome.toOption], hgood⟩
  | elsewhere maps committed =>
    exact ⟨_, rfl, fun v type h =>
      (hs v type h).extend (Datatypes.extends_extended s.lib maps committed)⟩

/-- Whatever the history, it can be gone on with, and the cache is good. -/
theorem good_exec {τ : ValueType} {s : ViewTypes} (hs : s.Good τ) (history : List TypeEvent) :
    ∃ s', Lts.exec (ViewTypes.step τ) s history = some s' ∧ s'.Good τ := by
  induction history generalizing s with
  | nil => exact ⟨s, rfl, hs⟩
  | cons e history ih =>
    obtain ⟨t, hstep, ht⟩ := good_step hs e
    obtain ⟨s', hexec, hs'⟩ := ih ht
    exact ⟨s', by rw [Lts.exec_cons, hstep]; exact hexec, hs'⟩

theorem describes_of_returned {τ : ValueType} {v : IntView} {type : MpiDatatype} {lib : Datatypes}
    (h : Returned τ v type lib) : lib.Describes τ v.toView type := by
  obtain ⟨lib₀, history, s, s', hexec, hrun, rfl⟩ := h
  obtain ⟨t, hexec', ht⟩ := good_exec (good_start τ lib₀) history
  cases hexec.symm.trans hexec'
  obtain ⟨type', t', hrun', -, hdescribes⟩ := viewMpiType_describes ht v
  cases hrun.symm.trans hrun'
  exact hdescribes

/-! ## §3 Transfers -/

/-- Bytes of elements that differ are different bytes. -/
theorem elementByte_injective {τ : ValueType} {v : View} (hnd : v.elements.Nodup)
    {i j : List Nat} (hi : Valid v.extents i) (hj : Valid v.extents j) {k l : Nat}
    (hk : k < τ.sizeof) (hl : l < τ.sizeof) (h : elementByte τ v i k = elementByte τ v j l) :
    i = j ∧ k = l := by
  have hbyte : offset v.strides i * τ.sizeof + k = offset v.strides j * τ.sizeof + l := by
    have := (Prod.mk.inj h).2
    omega
  have hdiv : ∀ n m, m < τ.sizeof → (n * τ.sizeof + m) / τ.sizeof = n := fun n m hm => by
    rw [Nat.mul_comm, Nat.mul_add_div τ.sizeof_pos, Nat.div_eq_of_lt hm, Nat.add_zero]
  have hoffset : offset v.strides i = offset v.strides j := by
    rw [← hdiv (offset v.strides i) k hk, hbyte, hdiv _ l hl]
  refine ⟨View.cell_injective_of_nodup hnd hi hj ?_, ?_⟩
  · rw [View.cell, View.cell, hoffset]
  · rw [hoffset] at hbyte
    exact Nat.add_left_cancel hbyte

/-- The bytes that a datatype of the view names are all different. -/
theorem nodup_bytes (τ : ValueType) {v : View} (hnd : v.elements.Nodup) :
    ((TypeMap.bytes ValueType.sizeof (typeMapOf τ v)).map (byteAt τ v)).Nodup := by
  rw [typeMapOf, TypeMap.bytes_map, List.map_map]
  refine List.Nodup.map_on ?_ ?_
  · rintro ⟨i, k⟩ hp ⟨j, l⟩ hq h
    simp only [List.mem_flatMap, List.mem_map, List.mem_range, Prod.mk.injEq] at hp hq
    obtain ⟨i, hi, k, hk, rfl, rfl⟩ := hp
    obtain ⟨j, hj, l, hl, rfl, rfl⟩ := hq
    obtain ⟨rfl, rfl⟩ := elementByte_injective hnd (mem_colMajor.mp hi) (mem_colMajor.mp hj) hk hl h
    rfl
  · refine List.nodup_flatMap.mpr ⟨fun i _ => ?_, ?_⟩
    · exact List.nodup_range.map fun k l h => (Prod.mk.inj h).2
    · refine (Layout.layoutLeft.nodup_indices v.extents).imp fun {i j} hij => ?_
      intro p hp hq
      obtain ⟨k, -, rfl⟩ := List.mem_map.mp hp
      obtain ⟨l, -, heq⟩ := List.mem_map.mp hq
      exact hij (Prod.mk.inj heq).1.symm

section Transfer

variable {τ : ValueType} {v : View} {lib : Datatypes} {type : MpiDatatype} {γ : Type}

theorem send_of_describes (h : lib.Describes τ v type) (m : ByteCell → γ) :
    lib.send τ type v m =
      .returns ((typeMapOf τ v).send ValueType.sizeof (byteAt τ v) m) := by
  simp [Datatypes.send, h.map, h.committed]

theorem receive_of_describes (h : lib.Describes τ v type) (message : List γ) (m : ByteCell → γ) :
    lib.receive τ type v message m =
      .returns ((typeMapOf τ v).receive ValueType.sizeof (byteAt τ v) message m) := by
  simp [Datatypes.receive, h.map, h.committed]

end Transfer

/-- An item of one datatype is received as an item of the other. -/
theorem transfer_copies {τ : ValueType} {a b : View} {libA libB : Datatypes}
    {typeA typeB : MpiDatatype} (hA : libA.Describes τ a typeA) (hB : libB.Describes τ b typeB)
    (hexts : a.extents = b.extents) (hnd : b.elements.Nodup) {γ : Type} (m₀ m : ByteCell → γ) :
    ∃ message m', libA.send τ typeA a m₀ = .returns message ∧
      libB.receive τ typeB b message m = .returns m' ∧ Copied τ a b m₀ m m' := by
  refine ⟨_, _, send_of_describes hA m₀, receive_of_describes hB _ m, ?_, ?_⟩
  · intro i hi k hk
    have hnodup := nodup_bytes τ hnd
    unfold typeMapOf at hnodup ⊢
    rw [hexts]
    exact TypeMap.receive_send ValueType.sizeof (l := colMajor b.extents)
      (f := fun i => ((offset a.strides i * τ.sizeof : Nat) : Int)) m₀ m hnodup
      (mem_colMajor.mpr hi) hk
  · intro c hc
    refine TypeMap.receive_of_not_mem ValueType.sizeof fun d hd => ?_
    rw [typeMapOf, TypeMap.bytes_map] at hd
    simp only [List.mem_map, List.mem_flatMap, List.mem_range] at hd
    obtain ⟨p, ⟨i, hi, k, hk, rfl⟩, rfl⟩ := hd
    exact hc i (mem_colMajor.mp hi) k hk

/-- **`view_mpi_type` describes exactly the view**, whatever was cached
before: every history can be gone on with by a call for any view, what the
call returns has the type map of the view, and views of equal extents are
transferred index by index. -/
theorem view_mpi_type_describes (τ : ValueType) :
    (∀ (lib₀ : Datatypes) (history : List TypeEvent) (v : IntView), ∃ s type s',
      Lts.exec (ViewTypes.step τ) (.start lib₀) history = some s ∧
      viewMpiType τ v.toView s = .returns (type, s')) ∧
    (∀ (v : IntView) (type : MpiDatatype) (lib : Datatypes), Returned τ v type lib →
      lib.map? type = some ((colMajor v.extents).map fun i =>
        (τ, ((offset v.strides i * τ.sizeof : Nat) : Int)))) ∧
    ∀ (γ : Type) (a b : IntView) (typeA typeB : MpiDatatype) (libA libB : Datatypes)
      (m₀ m : ByteCell → γ), Returned τ a typeA libA → Returned τ b typeB libB →
      a.extents = b.extents → b.elements.Nodup →
      ∃ message m', libA.send τ typeA a.toView m₀ = .returns message ∧
        libB.receive τ typeB b.toView message m = .returns m' ∧
        Copied τ a.toView b.toView m₀ m m' := by
  refine ⟨fun lib₀ history v => ?_, fun v type lib h => (describes_of_returned h).map,
    fun γ a b typeA typeB libA libB m₀ m hA hB hexts hnd => ?_⟩
  · obtain ⟨s, hexec, hs⟩ := good_exec (good_start τ lib₀) history
    obtain ⟨type, s', hrun, -⟩ := viewMpiType_describes hs v
    exact ⟨s, type, s', hexec, hrun⟩
  · exact transfer_copies (describes_of_returned hA) (describes_of_returned hB) hexts hnd m₀ m

/-- A dense view of two by three elements, stored row by row or column by
column. -/
def twoByThree (alloc : AllocId) (layout : Layout) : IntView where
  alloc := alloc
  base := 0
  extents := [2, 3]
  strides := layout.strides [2, 3]
  arrayLayout := layout
  managed := true
  rank_eq := layout.length_strides [2, 3]
  extents_lt := by decide
  strides_lt := by cases layout <;> decide

/-- The rows of one view are received as the columns of another. -/
theorem view_mpi_type_describes_transposed :
    ∃ typeA typeB libA libB message, ∃ m' : ByteCell → Bool,
      Returned .double (twoByThree 0 .layoutRight) typeA libA ∧
      Returned .double (twoByThree 1 .layoutLeft) typeB libB ∧
      libA.send .double typeA (twoByThree 0 .layoutRight).toView (fun c => c.1 == 0) =
        .returns message ∧
      libB.receive .double typeB (twoByThree 1 .layoutLeft).toView message (fun _ => false) =
        .returns m' ∧
      Copied .double (twoByThree 0 .layoutRight).toView (twoByThree 1 .layoutLeft).toView
        (fun c => c.1 == 0) (fun _ => false) m' := by
  obtain ⟨hreturns, -, htransfer⟩ := view_mpi_type_describes .double
  obtain ⟨s, typeA, sA, hexec, hrun⟩ := hreturns ⟨[], []⟩ [] (twoByThree 0 .layoutRight)
  have hA : Returned .double (twoByThree 0 .layoutRight) typeA sA.lib :=
    ⟨_, _, _, _, hexec, hrun, rfl⟩
  obtain ⟨t, typeB, sB, hexecB, hrunB⟩ := hreturns ⟨[], []⟩ [] (twoByThree 1 .layoutLeft)
  have hB : Returned .double (twoByThree 1 .layoutLeft) typeB sB.lib :=
    ⟨_, _, _, _, hexecB, hrunB, rfl⟩
  obtain ⟨message, m', hsend, hreceive, hcopied⟩ :=
    htransfer Bool _ _ typeA typeB sA.lib sB.lib (fun c => c.1 == 0) (fun _ => false) hA hB rfl
      (by decide)
  exact ⟨typeA, typeB, sA.lib, sB.lib, message, m', hA, hB, hsend, hreceive, hcopied⟩

end KokkosComm.Mpi
