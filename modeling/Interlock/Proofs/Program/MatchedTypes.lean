import Interlock.Proofs.Program.GenericMembers

/-! Matched types. The mark for something that no declaration matched never gets into a type: a text
writes none, substitution puts none in, and so no type of a finished model has one for a part. -/

namespace Interlock.Types

namespace TypeTree

variable {σ τ : TypeTree}

/-- Everything that the type is made of was matched. -/
def Matched (τ : TypeTree) : Prop := .unresolved ∉ τ.leaves

theorem Matched.of_mem_parts (h : τ.Matched) (hσ : σ ∈ τ.parts) : σ.Matched :=
  fun hleaf => h (mem_leaves_of_mem_parts hσ hleaf)

theorem matched_of_parts (hne : τ ≠ .unresolved) (h : ∀ σ ∈ τ.parts, σ.Matched) : τ.Matched := by
  intro hleaf
  rcases leaves_eq τ with hbelow | ⟨-, hself⟩
  · rw [hbelow] at hleaf
    obtain ⟨σ, hσ, hleaf⟩ := List.mem_flatMap.mp hleaf
    exact h σ hσ hleaf
  · rw [hself, List.mem_singleton] at hleaf
    exact hne hleaf.symm

theorem matched_leaf (hparts : τ.parts = []) (hne : τ ≠ .unresolved) : τ.Matched :=
  matched_of_parts hne (by simp [hparts])

theorem matched_compound {τs : List TypeTree} (h : ∀ τ ∈ τs, τ.Matched) : Matched (.compound τs) :=
  matched_of_parts (by simp) h

theorem matched_array (h : τ.Matched) : Matched (.array τ) :=
  matched_of_parts (by simp) (by simpa [parts] using h)

theorem Matched.of_mem_nodes (h : τ.Matched) (hσ : σ ∈ τ.nodes) : σ.Matched := by
  induction τ using partsInduction with
  | step τ ih =>
    cases τ with
    | compound parts =>
      rw [nodes, List.mem_cons, nodesAll_eq_flatMap] at hσ
      rcases hσ with rfl | hσ
      · exact h
      · obtain ⟨ρ, hρ, hσ⟩ := List.mem_flatMap.mp hσ
        exact ih ρ hρ (h.of_mem_parts hρ) hσ
    | array element =>
      rw [nodes, List.mem_cons] at hσ
      rcases hσ with rfl | hσ
      · exact h
      · exact ih element (by simp [parts]) (h.of_mem_parts (by simp [parts])) hσ
    | unknown | unresolved => simp [nodes] at hσ
    | _ =>
      rw [nodes, List.mem_singleton] at hσ
      exact hσ ▸ h

/-- Leaf by leaf, a substitution gives the leaf itself or the leaves of an argument. -/
theorem Matched.subst (h : τ.Matched) {owner : ClassId} {args : List TypeTree}
    (hargs : ∀ arg ∈ args, arg.Matched) : (τ.subst owner args).Matched := by
  intro hleaf
  rw [leaves_subst] at hleaf
  obtain ⟨σ, hσ, hleaf⟩ := List.mem_flatMap.mp hleaf
  by_cases hparam : ∃ i, σ = .param owner i
  · obtain ⟨i, rfl⟩ := hparam
    rw [subst_param] at hleaf
    cases harg : args[i]? with
    | some arg => exact hargs arg (List.mem_of_getElem? harg) (by simpa [harg] using hleaf)
    | none => simp [harg, leaves] at hleaf
  · have hnone := parts_of_mem_leaves hσ
    rw [subst_of_parts_eq_nil hnone fun i hi => hparam ⟨i, hi⟩] at hleaf
    have hself : σ.leaves = [σ] := by
      rcases leaves_eq σ with hbelow | ⟨-, hself⟩
      · simp [hbelow, hnone] at hleaf
      · exact hself
    rw [hself, List.mem_singleton] at hleaf
    exact h (hleaf ▸ hσ)

theorem matched_ofName (name : String) : (ofName name).Matched := by
  unfold ofName
  split
  · exact matched_leaf rfl (by simp)
  · split
    · exact matched_leaf rfl (by simp)
    · split
      · exact matched_leaf rfl (by simp)
      · exact matched_leaf rfl (by simp)

end TypeTree

theorem TypeKey.parts_treeBy (key : TypeKey) (f : TypeId → TypeTree) :
    (key.treeBy f).parts = key.parts.map f := by
  cases key <;> rfl

theorem TypeKey.treeBy_matched {key : TypeKey} {f : TypeId → TypeTree}
    (h : ∀ part ∈ key.parts, (f part).Matched) : (key.treeBy f).Matched := by
  refine TypeTree.matched_of_parts (key.treeBy_ne_unresolved f) fun σ hσ => ?_
  rw [key.parts_treeBy] at hσ
  obtain ⟨part, hpart, rfl⟩ := List.mem_map.mp hσ
  exact h part hpart

namespace Registry

variable {r t : Registry} {ty : TypeId} {key : TypeKey}

/-- A registry without types that nothing matched. -/
def Sealed (r : Registry) : Prop := ∀ σ, r.Holds σ → σ.Matched

theorem Covers.knows (h : r.Covers ty) (hne : ty ≠ .unresolved) : r.Knows ty := by
  cases ty with
  | id n => exact h
  | unknown => trivial
  | unresolved => exact hne rfl

theorem Knows.ne_unresolved (h : r.Knows ty) : ty ≠ .unresolved := by
  rintro rfl
  exact h

theorem Sealed.matched_tree (h : r.Sealed) (hty : r.Knows ty) : (r.tree ty).Matched := by
  cases ty with
  | id n => exact h _ ⟨n, hty, rfl⟩
  | unknown => exact tree_unknown r ▸ TypeTree.matched_leaf rfl (by simp)
  | unresolved => exact absurd hty id

/-- The types that a type mentions are known. -/
theorem Sealed.knows_parts (h : r.Sealed) (hr : r.Interned) (hkey : r.key? ty = some key) :
    ∀ part ∈ key.parts, r.Knows part := by
  intro part hpart
  refine Covers.knows (hr.covers_parts hkey part hpart) ?_
  rintro rfl
  have hmatched := h.matched_tree (knows_of_key? hkey)
  have hmem : r.tree .unresolved ∈ (r.tree ty).parts := by
    rw [hr.tree_eq hkey, key.parts_treeBy]
    exact List.mem_map_of_mem hpart
  rw [tree_unresolved] at hmem
  exact hmatched.of_mem_parts hmem (by simp [TypeTree.leaves])

/-- What is added is matched if the trees that are added are. -/
theorem Sealed.adds (h : r.Sealed) {τs : List TypeTree} (hadds : Adds r t τs)
    (hτs : ∀ τ ∈ τs, τ.Matched) : t.Sealed := by
  intro σ hσ
  rcases hadds.only σ hσ with hσ | ⟨τ, hτ, hσ⟩
  · exact h σ hσ
  · exact (hτs τ hτ).of_mem_nodes hσ

theorem sealed_initial : initial.Sealed := by
  have hleaves : withoutObjectSet.Sealed := by
    intro σ hσ
    rcases root_of_holds_withoutObjectSet hσ with ⟨p, rfl⟩ | ⟨name, rfl⟩
    · exact TypeTree.matched_leaf rfl (by simp)
    · exact TypeTree.matched_leaf rfl (by simp)
  refine hleaves.adds adds_initial fun τ hτ => ?_
  rw [List.mem_singleton.mp hτ]
  exact TypeKey.treeBy_matched fun part hpart =>
    hleaves.matched_tree (knows_parts_objectSetKey hpart)

/-! ## What looking gives -/

/-- A substitution that only looks gives a known type. -/
theorem Sealed.knows_instantiated? (h : r.Sealed) (hr : r.Interned) {owner : ClassId}
    {args : List TypeId} (hargs : ∀ arg ∈ args, r.Knows arg) (hty : r.Knows ty) {x : TypeId}
    (hx : r.instantiated? ty owner args = some x) : r.Knows x := by
  obtain ⟨hcovers, htree⟩ :=
    (hr.instantiated?_eq_some_iff (fun arg harg => (hargs arg harg).covers) hty.covers).mp hx
  refine Covers.knows hcovers ?_
  rintro rfl
  have hmatched : ((r.tree ty).subst owner (args.map r.tree)).Matched := by
    refine (h.matched_tree hty).subst fun arg harg => ?_
    obtain ⟨a, ha, rfl⟩ := List.mem_map.mp harg
    exact h.matched_tree (hargs a ha)
  rw [← htree, tree_unresolved] at hmatched
  exact hmatched (by simp [TypeTree.leaves])

theorem Sealed.knows_wrapped (h : r.Sealed) (hr : r.Interned) (ty : TypeId) :
    r.Knows (r.wrapped ty) := by
  unfold wrapped
  split
  · next components hcomponents =>
    have hparts := h.knows_parts hr (components?_eq_some_iff.mp hcomponents)
    cases hlast : components.dropLast.getLast? with
    | none => trivial
    | some last =>
      exact hparts last (List.dropLast_subset components (List.mem_of_getLast? hlast))
  · trivial

theorem Sealed.knows_elementOf? (h : r.Sealed) (hr : r.Interned) {element : TypeId}
    (helement : r.elementOf? ty = some element) : r.Knows element := by
  unfold elementOf? at helement
  split at helement
  · next hkey =>
    cases helement
    exact h.knows_parts hr hkey element (by simp [TypeKey.parts])
  · cases helement

end Registry

end Interlock.Types

namespace Interlock.Program.Model

open Interlock.Types Interlock.Types.Registry Interlock.Types.TypeTree

variable (m : Model)

/-! ## Written types -/

theorem matched_baseTree (scope : ClassId) (t : TypeExpr) : (m.baseTree scope t).Matched := by
  unfold baseTree
  split
  · exact matched_ofName _
  · split
    · exact matched_leaf rfl (by simp)
    · exact matched_leaf rfl (by simp)
    · split
      · exact matched_leaf rfl (by simp)
      · exact matched_ofName _

theorem matched_specialTree? {scope : ClassId} {methodParams : List String} {name : String}
    {generic : Bool} {τ : TypeTree}
    (h : m.specialTree? scope methodParams name generic = some τ) : τ.Matched := by
  unfold specialTree? at h
  split at h
  · cases h
    exact matched_leaf rfl (by simp)
  · split at h
    · cases h
    · split at h
      · cases h
        exact matched_leaf rfl (by simp)
      · obtain ⟨around, -, hparam⟩ := List.exists_of_findSome?_eq_some h
        obtain ⟨cls, -, hparam⟩ := Option.bind_eq_some_iff.mp hparam
        obtain ⟨index, -, hparam⟩ := Option.bind_eq_some_iff.mp hparam
        cases hparam
        exact matched_leaf rfl (by simp)

theorem matched_arrayTree (dims : Nat) {τ : TypeTree} (h : τ.Matched) :
    (arrayTree dims τ).Matched := by
  induction dims with
  | zero => exact h
  | succ dims ih => exact matched_array ih

section

variable (scope : ClassId) (methodParams : List String)

mutual

theorem matched_writtenTree (t : TypeExpr) : (m.writtenTree scope methodParams t).Matched := by
  obtain ⟨name, args, dims⟩ := t
  rw [writtenTree]
  split
  · next hspecial => exact matched_arrayTree dims (m.matched_specialTree? hspecial)
  · have hbase := m.matched_baseTree scope (.mk name args dims)
    cases args with
    | nil => exact matched_arrayTree dims hbase
    | cons arg rest =>
      have hfirst := matched_writtenTree arg
      have hrest := matched_writtenTrees rest
      refine matched_arrayTree dims (matched_compound ?_)
      simpa [or_imp, forall_and] using ⟨hfirst, hrest, hbase⟩

theorem matched_writtenTrees (ts : List TypeExpr) :
    ∀ τ ∈ m.writtenTrees scope methodParams ts, τ.Matched := by
  cases ts with
  | nil => simp [writtenTrees]
  | cons t ts =>
    rw [writtenTrees]
    exact List.forall_mem_cons.mpr ⟨matched_writtenTree t, matched_writtenTrees ts⟩

end

theorem matched_textTree (text : String) : (m.textTree scope methodParams text).Matched := by
  unfold textTree
  split
  · exact m.matched_writtenTree scope methodParams _
  · exact matched_leaf rfl (by simp)

end

/-! ## Finished models -/

theorem matched_programTrees : ∀ τ ∈ m.programTrees, τ.Matched := by
  have htexts : ∀ scope params vs, ∀ τ ∈ m.variableTrees scope params vs, τ.Matched := by
    intro scope params vs τ hτ
    obtain ⟨v, -, hτ⟩ := List.mem_flatMap.mp hτ
    exact List.mem_singleton.mp hτ ▸ m.matched_textTree scope params v.type
  intro τ hτ
  simp only [programTrees, List.mem_append, List.mem_flatMap] at hτ
  rcases hτ with ⟨⟨cls, id⟩, -, hτ⟩ | ⟨⟨cls, id⟩, -, hτ⟩ | ⟨f, -, hτ⟩ | ⟨f, -, hτ⟩
  · rcases List.mem_cons.mp hτ with rfl | hτ
    · exact matched_leaf rfl (by simp)
    · obtain ⟨i, -, hτ⟩ := List.mem_flatMap.mp hτ
      exact List.mem_singleton.mp hτ ▸ matched_leaf rfl (by simp)
  · exact htexts _ _ _ τ hτ
  · simp only [signatureTrees, List.mem_append] at hτ
    rcases hτ with hτ | hτ | hτ
    · exact htexts _ _ _ τ hτ
    · exact htexts _ _ _ τ hτ
    · rw [returnTrees] at hτ
      cases hreturns : f.decl.returns with
      | some text =>
        rw [hreturns] at hτ
        exact List.mem_singleton.mp hτ ▸ m.matched_textTree _ _ _
      | none => simp [hreturns] at hτ
  · obtain ⟨e, -, hτ⟩ := List.mem_flatMap.mp hτ
    obtain ⟨t, -, hτ⟩ := List.mem_flatMap.mp hτ
    exact List.mem_singleton.mp hτ ▸ m.matched_textTree _ _ _

variable {m} {units : List SourceUnit}

/-- The members of a class have known types. -/
theorem Typed.knows_memberTypes (h : m.Typed) {c : ClassId} {cls : Class}
    (hc : m.class? c = some cls) : ∀ ty ∈ memberTypes m cls, m.registry.Knows ty := by
  intro ty hty
  rcases List.mem_append.mp hty with hty | hty
  · obtain ⟨v, hv, rfl⟩ := List.mem_map.mp hty
    exact (h.classes hc).fields v hv
  · obtain ⟨f, -, hf⟩ := List.mem_filterMap.mp hty
    obtain ⟨fn, hfn, rfl⟩ := Option.map_eq_some_iff.mp hf
    exact (h.functions hfn).1.returnType

theorem sealed_of_ofUnits (h : ofUnits units = .ok m) : m.registry.Sealed := by
  obtain ⟨bare, written, hfinished⟩ := exists_finished h
  have htyped := typed_of_ofUnits h
  have hinterned := hfinished.ready.interned
  have hwritten : written.Sealed := sealed_initial.adds hfinished.adds bare.matched_programTrees
  refine hwritten.adds hfinished.adds_members fun τ hτ => ?_
  obtain ⟨⟨c, args⟩, hp, hτ⟩ := List.mem_flatMap.mp hτ
  obtain ⟨cls, hc, ty, hty, rfl⟩ := mem_memberTreesOf_iff.mp hτ
  have hmember : written.Knows ty := Covers.knows (hfinished.members hc ty hty)
    (htyped.knows_memberTypes hc ty hty).ne_unresolved
  obtain ⟨n, base, hkey, -⟩ := mem_instantiations_iff.mp hp
  refine (hwritten.matched_tree hmember).subst fun υ hυ => ?_
  obtain ⟨arg, harg, rfl⟩ := List.mem_map.mp hυ
  exact hwritten.matched_tree
    (hwritten.knows_parts hinterned hkey arg (List.mem_append_left _ harg))

end Interlock.Program.Model
