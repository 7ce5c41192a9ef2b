import Interlock.Proofs.Program.StoredTypes

/-! Members of generic classes, as the instantiations of the classes see them. Their types are
registered in one round over the instantiations that the texts of a program write. One round is
enough for these, and for all instantiations if no member has a type that instantiates a declared
class with the parameters of its own class; in general, if a second round would add nothing. -/

namespace Interlock.Program

open Interlock.Types Interlock.Types.Registry

variable {r : Registry} {c : ClassId} {args : List TypeId}

/-! ## Instantiations of declared classes -/

theorem mem_instantiations_iff : (c, args) ∈ instantiations r ↔
    ∃ n base, r.key? (.id n) = some (.compound (args ++ [base])) ∧
      r.key? base = some (.declared c) := by
  rw [instantiations, List.mem_filterMap]
  constructor
  · rintro ⟨n, -, hn⟩
    simp only [Option.bind_eq_bind, Option.bind_eq_some_iff, Option.pure_def, Option.some.injEq,
      Prod.mk.injEq, components?_eq_some_iff, classOf?_eq_some_iff] at hn
    obtain ⟨components, hkey, base, hlast, _, hbase, rfl, rfl⟩ := hn
    refine ⟨n, base, ?_, hbase⟩
    rw [List.dropLast_append_getLast? base hlast, hkey]
  · rintro ⟨n, base, hkey, hbase⟩
    refine ⟨n, List.mem_range.mpr (covers_of_key? hkey), ?_⟩
    simp [components?_eq_some_iff.mpr hkey, classOf?_eq_some_iff.mpr hbase]

theorem covers_of_mem_instantiations (h : r.Interned) (hmem : (c, args) ∈ instantiations r) :
    ∀ arg ∈ args, r.Covers arg := by
  obtain ⟨n, base, hkey, -⟩ := mem_instantiations_iff.mp hmem
  intro arg harg
  exact h.covers_parts hkey arg (List.mem_append_left _ harg)

/-- The instantiations of a registry, by their trees. -/
theorem holds_instantiation_iff (h : r.Interned) {τs : List TypeTree} :
    r.Holds (.compound (τs ++ [.declared c])) ↔
      ∃ args, (c, args) ∈ instantiations r ∧ args.map r.tree = τs := by
  constructor
  · rintro ⟨n, hn, htree⟩
    obtain ⟨cs, hkey, hcs⟩ := h.key?_of_tree_compound hn htree
    obtain ⟨args, rest, rfl, hargs, hrest⟩ := List.map_eq_append_iff.mp hcs
    obtain ⟨base, rfl, hbase⟩ := List.map_eq_singleton_iff.mp hrest
    have hcovers := h.covers_parts hkey base (by simp [TypeKey.parts])
    have hclass := h.key?_of_tree hcovers (.declared c) (f := r.tree) rfl hbase
    exact ⟨args, mem_instantiations_iff.mpr ⟨n, base, hkey, hclass⟩, hargs⟩
  · rintro ⟨args, hmem, rfl⟩
    obtain ⟨n, base, hkey, hbase⟩ := mem_instantiations_iff.mp hmem
    refine ⟨n, covers_of_key? hkey, ?_⟩
    rw [h.tree_eq hkey, TypeKey.treeBy, List.map_append, List.map_singleton, h.tree_eq hbase]
    rfl

namespace Model

variable {m : Model}

/-! ## One round -/

/-- The trees of the members of a class for its arguments. -/
def memberTreesOf (m : Model) (r : Registry) (p : ClassId × List TypeId) : List TypeTree :=
  match m.class? p.1 with
  | some cls => (memberTypes m cls).flatMap fun ty => [(r.tree ty).subst p.1 (p.2.map r.tree)]
  | none => []

theorem mem_memberTreesOf_iff {τ : TypeTree} : τ ∈ m.memberTreesOf r (c, args) ↔
    ∃ cls, m.class? c = some cls ∧ ∃ ty ∈ memberTypes m cls,
      τ = (r.tree ty).subst c (args.map r.tree) := by
  rw [memberTreesOf]
  cases m.class? c <;> simp

/-- The trees of all members as the instantiations of a registry see them. -/
def memberTrees (m : Model) (r : Registry) : List TypeTree :=
  (instantiations r).flatMap (m.memberTreesOf r)

/-- A round over the instantiations registers the types of their members, and nothing else. -/
theorem adds_instantiateMembers (h : r.Interned) (hmembers : ∀ {c cls}, m.class? c = some cls →
    ∀ ty ∈ memberTypes m cls, r.Covers ty) :
    Adds r (instantiateMembers m r) (m.memberTrees r) := by
  refine adds_foldl (instantiations r) h fun p hp s hs hsi => ?_
  obtain ⟨c, args⟩ := p
  have hargs := covers_of_mem_instantiations h hp
  rw [memberTreesOf]
  dsimp only
  cases hc : m.class? c with
  | none => exact .refl hsi
  | some cls =>
    refine adds_foldl (memberTypes m cls) hsi fun ty hty t ht hti => ?_
    have hle := le_trans hs ht
    have hcovers := hmembers hc ty hty
    have hmake := hti.makes_instantiate c
      (fun arg harg => covers_mono (hargs arg harg) hle) (covers_mono hcovers hle)
    rw [h.tree_mono hti hle hcovers, List.map_inj_left.mpr fun arg harg =>
      h.tree_mono hti hle (hargs arg harg)] at hmake
    exact hmake.adds

/-- Every member of the class has a type for these arguments. -/
def SeesMembers (m : Model) (r : Registry) (p : ClassId × List TypeId) : Prop :=
  ∀ cls, m.class? p.1 = some cls → ∀ ty ∈ memberTypes m cls,
    (r.instantiated? ty p.1 p.2).isSome = true

/-- The types of members are there if their trees are. -/
theorem seesMembers_of_holds {t : Registry} (h : r.Interned) (ht : t.Interned) (hle : r ≤ t)
    (hmembers : ∀ {c cls}, m.class? c = some cls → ∀ ty ∈ memberTypes m cls, r.Covers ty)
    {p : ClassId × List TypeId} (hp : p ∈ instantiations r)
    (hholds : ∀ τ ∈ m.memberTreesOf r p, ∀ σ ∈ τ.nodes, t.Holds σ) : m.SeesMembers t p := by
  obtain ⟨c, args⟩ := p
  have hargs := covers_of_mem_instantiations h hp
  intro cls hc ty hty
  have hcovers := hmembers hc ty hty
  have hmem : (r.tree ty).subst c (args.map r.tree) ∈ m.memberTreesOf r (c, args) :=
    mem_memberTreesOf_iff.mpr ⟨cls, hc, ty, hty, rfl⟩
  obtain ⟨x, hx, htree⟩ := exists_tree_eq (hholds _ hmem)
  exact Option.isSome_of_eq_some
    ((h.instantiated?_eq_some_iff_of_le ht hle hargs hcovers).mpr ⟨hx, htree⟩)

/-- All instantiations see all members exactly if another round adds nothing. -/
theorem forall_seesMembers_iff (h : r.Interned) (hmembers : ∀ {c cls}, m.class? c = some cls →
    ∀ ty ∈ memberTypes m cls, r.Covers ty) :
    (∀ p ∈ instantiations r, m.SeesMembers r p) ↔ instantiateMembers m r = r := by
  constructor
  · intro hsees
    refine List.foldlRecOn (motive := (· = r)) (instantiations r) _ rfl fun s hs p hp => ?_
    subst hs
    obtain ⟨c, args⟩ := p
    have hargs := covers_of_mem_instantiations h hp
    dsimp only
    cases hc : m.class? c with
    | none => rfl
    | some cls =>
      refine List.foldlRecOn (motive := (· = s)) (memberTypes m cls) _ rfl fun t ht ty hty => ?_
      subst ht
      have hsome := hsees (c, args) hp cls hc ty hty
      exact (h.isSome_instantiated?_iff hargs (hmembers hc ty hty)).mp hsome
  · intro hsame p hp
    have hadds := adds_instantiateMembers h hmembers
    rw [hsame] at hadds
    refine seesMembers_of_holds h h (le_refl r) hmembers hp fun τ hτ => ?_
    exact hadds.all τ (List.mem_flatMap.mpr ⟨p, hp, hτ⟩)

/-! ## Flat members -/

/-- No member has a type that instantiates a declared class with parameters of its own class. -/
def FlatMembers (m : Model) (r : Registry) : Prop :=
  ∀ {c cls}, m.class? c = some cls → ∀ ty ∈ memberTypes m cls, ∀ τs base,
    .compound (τs ++ [base]) ∈ (r.tree ty).nodes →
    (TypeTree.compound (τs ++ [base])).Mentions c →
      (∀ d, base ≠ .declared d) ∧ ∀ index, base ≠ .param c index

/-- Flat members instantiate no declared class anew. -/
theorem FlatMembers.holds (hflat : m.FlatMembers r) (h : r.Interned)
    (hmembers : ∀ {c cls}, m.class? c = some cls → ∀ ty ∈ memberTypes m cls, r.Covers ty)
    {τ : TypeTree} (hτ : τ ∈ m.memberTrees r) {τs : List TypeTree} {d : ClassId}
    (hσ : .compound (τs ++ [.declared d]) ∈ τ.nodes) :
    r.Holds (.compound (τs ++ [.declared d])) := by
  obtain ⟨⟨c, args⟩, hp, hτ⟩ := List.mem_flatMap.mp hτ
  have hargs : ∀ υ ∈ args.map r.tree, ∀ σ ∈ υ.nodes, r.Holds σ := by
    intro υ hυ σ hσ
    obtain ⟨arg, harg, rfl⟩ := List.mem_map.mp hυ
    exact h.holds_of_mem_nodes (covers_of_mem_instantiations h hp arg harg) hσ
  obtain ⟨cls, hc, ty, hty, rfl⟩ := mem_memberTreesOf_iff.mp hτ
  rcases TypeTree.mem_nodes_subst (r.tree ty) hσ with ⟨ρ, hρ, heq⟩ | ⟨υ, hυ, hσ⟩
  · rcases TypeTree.subst_eq_compound heq.symm with ⟨parts, rfl, hparts⟩ | harg
    · obtain ⟨firsts, rest, rfl, -, hrest⟩ := List.map_eq_append_iff.mp hparts
      obtain ⟨base, rfl, hbase⟩ := List.map_eq_singleton_iff.mp hrest
      by_cases hmentions : (TypeTree.compound (firsts ++ [base])).Mentions c
      · obtain ⟨hdeclared, hparam⟩ := hflat hc ty hty firsts base hρ hmentions
        rcases TypeTree.subst_eq_declared hbase with hbase | ⟨index, hbase⟩
        · exact absurd hbase (hdeclared d)
        · exact absurd hbase (hparam index)
      · rw [heq, TypeTree.subst_eq_self _ fun index hindex => hmentions ⟨index, hindex⟩]
        exact h.holds_of_mem_nodes (hmembers hc ty hty) hρ
    · exact hargs _ harg _ (by simp [TypeTree.nodes])
  · exact hargs υ hυ _ hσ

/-! ## Finished models -/

section

variable {units : List SourceUnit} {bare : Model} {written : Registry}

namespace Finished

/-- The members are all that the last round adds. -/
theorem adds_members (h : Finished units bare m written) :
    Adds written m.registry (m.memberTrees written) := by
  rw [h.registry]
  exact adds_instantiateMembers h.ready.interned h.members

/-- The registry of a finished model holds all that a text may refer to. -/
theorem ready_registry (h : Finished units bare m written) : m.Ready m.registry :=
  h.ready.mono h.adds_members.le h.adds_members.interned

theorem seesMembers (h : Finished units bare m written) {p : ClassId × List TypeId}
    (hp : p ∈ instantiations written) : m.SeesMembers m.registry p := by
  have hadds := h.adds_members
  refine seesMembers_of_holds h.ready.interned hadds.interned hadds.le h.members hp fun τ hτ => ?_
  exact hadds.all τ (List.mem_flatMap.mpr ⟨p, hp, hτ⟩)

/-- Flat members leave no instantiation for a second round. -/
theorem mem_instantiations_of_flat (h : Finished units bare m written)
    (hflat : m.FlatMembers m.registry) {p : ClassId × List TypeId}
    (hp : p ∈ instantiations m.registry) : p ∈ instantiations written := by
  obtain ⟨d, args⟩ := p
  have hadds := h.adds_members
  have hwritten := h.ready.interned
  have hflat' : m.FlatMembers written := by
    intro c cls hc ty hty τs base hmem
    rw [← hwritten.tree_mono hadds.interned hadds.le (h.members hc ty hty)] at hmem
    exact hflat hc ty hty τs base hmem
  have hholds : written.Holds (.compound (args.map m.registry.tree ++ [.declared d])) := by
    have hnew := (holds_instantiation_iff hadds.interned).mpr ⟨args, hp, rfl⟩
    rcases hadds.only _ hnew with hold | ⟨τ, hτ, hσ⟩
    · exact hold
    · exact hflat'.holds hwritten h.members hτ hσ
  obtain ⟨args', hp', htrees⟩ := (holds_instantiation_iff hwritten).mp hholds
  have hcovers : ∀ {arg}, arg ∈ args' → written.Covers arg :=
    covers_of_mem_instantiations hwritten hp' _
  have hcovers' : ∀ {arg}, arg ∈ args → m.registry.Covers arg :=
    covers_of_mem_instantiations hadds.interned hp _
  have hsame : TypeKey.compound args' = .compound args := by
    refine TypeKey.eq_of_treeBy_eq (f := m.registry.tree) (fun arg harg arg' harg' => ?_) ?_
    · exact hadds.interned.tree_injective (covers_mono (hcovers harg) hadds.le) (hcovers' harg')
    · rw [TypeKey.treeBy, TypeKey.treeBy, ← htrees, List.map_inj_left.mpr fun arg harg =>
        hwritten.tree_mono hadds.interned hadds.le (hcovers harg)]
  cases hsame
  exact hp'

end Finished

theorem ready_of_ofUnits (h : ofUnits units = .ok m) : m.Ready m.registry := by
  obtain ⟨bare, written, hfinished⟩ := exists_finished h
  exact hfinished.ready_registry

/-! ## A chain of generic members -/

/-- The methods and the declared fields of a class, which are fixed before types. -/
def ownMembers (cls : Class) : List FunctionId × List VariableDecl :=
  (cls.methods, cls.decl.fields)

/-- A class whose only member is a field has it with the type of its text. -/
theorem Finished.exists_only_field (h : Finished units bare m written) {c : ClassId}
    {v : VariableDecl} (hview : (bare.class? c).map ownMembers = some ([], [v])) :
    ∃ cls, m.class? c = some cls ∧ (∃ ty, ty ∈ memberTypes m cls) ∧
      ∀ ty ∈ memberTypes m cls, written.tree ty = bare.textTree c [] v.type := by
  obtain ⟨cls, hc, hview⟩ := h.underlies.exists_class? (fun _ => rfl) hview
  obtain ⟨hmethods, hdecl⟩ := Prod.mk.inj hview
  have hfields := h.classes (le_refl written) h.ready.interned hc
  have hmembers : memberTypes m cls = cls.fields.map (·.2) := by
    rw [memberTypes, hmethods, List.filterMap_nil, List.append_nil]
  refine ⟨cls, hc, ?_⟩
  rw [hmembers]
  refine ⟨?_, fun ty hty => ?_⟩
  · have htype := hfields.fieldType? v.name
    rw [hdecl, List.reverse_singleton, List.find?_singleton, beq_self_eq_true, if_pos rfl] at htype
    obtain ⟨f, hf, -⟩ := Option.map_eq_some_iff.mp htype
    exact ⟨f.2, List.mem_map_of_mem (List.mem_of_find?_eq_some hf)⟩
  · obtain ⟨f, hf, rfl⟩ := List.mem_map.mp hty
    obtain ⟨w, hw, rfl⟩ := hfields.fields f hf
    rw [((hfields.texts w hw).type h.ready).2, h.underlies.names.textTree]
    rw [hdecl, List.mem_singleton] at hw
    rw [hw]

/-- A shop with crates of trays. Only the crate of strings is written; its tray is an instantiation
that the members of crates give. -/
def crates : List SourceUnit :=
  let crate : ClassDecl :=
    { name := "Crate", typeParams := ["T"], fields := [{ type := "Tray<T>", name := "tray" }] }
  let tray : ClassDecl :=
    { name := "Tray", typeParams := ["T"], fields := [{ type := "T[]", name := "items" }] }
  let shop : ClassDecl :=
    { name := "Shop", fields := [{ type := "Crate<String>", name := "crate" }] }
  [{ path := "Shop.java", classes := [crate, tray, shop] }]

def cratesBare : Model := (declared crates).withHierarchy [[], [], []]

theorem exists_crates :
    ∃ m written, ofUnits crates = .ok m ∧ Finished crates cratesBare m written := by
  have hsupers : (declared crates).namedSupers = #[[], [], []] := by decide +kernel
  refine exists_finished_of_flatten ?_
  rw [hsupers]
  cbv

/-- What the texts of the example write. -/
theorem nodes_crates : cratesBare.programTrees.flatMap TypeTree.nodes =
    [.declared 0, .param 0 0, .declared 1, .param 1 0, .declared 2,
      .compound [.param 0 0, .declared 1], .param 0 0, .declared 1, .array (.param 1 0),
      .param 1 0, .compound [.primitive .string, .declared 0], .primitive .string,
      .declared 0] := by
  decide +kernel

theorem class?_crates :
    (cratesBare.class? 0).map ownMembers = some ([], [{ type := "Tray<T>", name := "tray" }]) ∧
      (cratesBare.class? 1).map ownMembers = some ([], [{ type := "T[]", name := "items" }]) := by
  decide +kernel

theorem textTree_crates :
    cratesBare.textTree 0 [] "Tray<T>" = .compound [.param 0 0, .declared 1] ∧
      cratesBare.textTree 1 [] "T[]" = .array (.param 1 0) := by
  decide +kernel

section

variable (h : Finished crates cratesBare m written)
include h

/-- The written instantiations are the crate of strings and the tray of a crate. -/
theorem instantiations_crates {c : ClassId} {args : List TypeId}
    (hp : (c, args) ∈ instantiations written) :
    c = 0 ∧ args.map written.tree = [.primitive .string] ∨
      c = 1 ∧ args.map written.tree = [.param 0 0] := by
  have hsplit : ∀ {τs : List TypeTree} (υs : List TypeTree) {c d : ClassId},
      τs ++ [.declared c] = υs ++ [.declared d] → c = d ∧ τs = υs := by
    intro τs υs c d heq
    obtain ⟨htrees, hlast⟩ := List.append_inj' heq rfl
    exact ⟨TypeTree.declared.inj (List.singleton_inj.mp hlast), htrees⟩
  have hholds := (holds_instantiation_iff h.ready.interned).mpr ⟨args, hp, rfl⟩
  rcases h.adds.only _ hholds with hold | hnew
  · have hbase :
        .declared c ∈ (TypeTree.compound (args.map written.tree ++ [.declared c])).nodes := by
      simp [TypeTree.nodes, TypeTree.nodesAll_eq_flatMap]
    obtain ⟨n, hn, htree⟩ := hold
    rw [← htree] at hbase
    rcases root_of_holds_initial (interned_initial.holds_of_mem_nodes hn hbase) with
      ⟨_, hσ⟩ | ⟨_, hσ⟩ | ⟨_, hσ⟩ <;> cases hσ
  · rw [← List.mem_flatMap, nodes_crates] at hnew
    simp only [List.mem_cons, reduceCtorEq, false_or, TypeTree.compound.injEq, List.not_mem_nil,
      or_false] at hnew
    rcases hnew with heq | heq
    · exact .inr (hsplit [.param 0 0] heq)
    · exact .inl (hsplit [.primitive .string] heq)

theorem not_holds_crates : ¬m.registry.Holds (.array (.primitive .string)) := by
  intro hholds
  rcases h.adds_members.only _ hholds with hwritten | ⟨τ, hτ, hσ⟩
  · rcases h.adds.only _ hwritten with hinitial | hnew
    · rcases root_of_holds_initial hinitial with ⟨_, hσ⟩ | ⟨_, hσ⟩ | ⟨_, hσ⟩ <;> cases hσ
    · rw [← List.mem_flatMap, nodes_crates] at hnew
      simp at hnew
  · obtain ⟨⟨c, args⟩, hp, hτ⟩ := List.mem_flatMap.mp hτ
    obtain ⟨cls, hc, ty, hty, rfl⟩ := mem_memberTreesOf_iff.mp hτ
    rcases instantiations_crates h hp with ⟨rfl, hargs⟩ | ⟨rfl, hargs⟩
    · obtain ⟨_, hc', -, htrees⟩ := h.exists_only_field class?_crates.1
      cases hc.symm.trans hc'
      rw [htrees ty hty, textTree_crates.1, hargs] at hσ
      revert hσ
      decide
    · obtain ⟨_, hc', -, htrees⟩ := h.exists_only_field class?_crates.2
      cases hc.symm.trans hc'
      rw [htrees ty hty, textTree_crates.2, hargs] at hσ
      revert hσ
      decide

end

/-- What a finished model knows about the members of its generic classes. -/
structure MembersSeen (units : List SourceUnit) (bare m : Model) (written : Registry) : Prop where
  finished : Finished units bare m written
  /-- Instantiations that the program writes see all their members. -/
  written_seen : ∀ p ∈ instantiations written, m.SeesMembers m.registry p
  all_iff : (∀ p ∈ instantiations m.registry, m.SeesMembers m.registry p) ↔
    instantiateMembers m m.registry = m.registry
  of_flat : m.FlatMembers m.registry →
    ∀ p ∈ instantiations m.registry, m.SeesMembers m.registry p

theorem exists_membersSeen (h : ofUnits units = .ok m) :
    ∃ bare written, MembersSeen units bare m written := by
  obtain ⟨bare, written, hfinished⟩ := exists_finished h
  have hadds := hfinished.adds_members
  refine ⟨bare, written, hfinished, fun p hp => hfinished.seesMembers hp, ?_, fun hflat p hp => ?_⟩
  · exact forall_seesMembers_iff hadds.interned fun hc ty hty =>
      covers_mono (hfinished.members hc ty hty) hadds.le
  · exact hfinished.seesMembers (hfinished.mem_instantiations_of_flat hflat hp)

theorem crates_membersSeen :
    ∃ m, ofUnits crates = .ok m ∧ ∃ bare written, MembersSeen crates bare m written := by
  obtain ⟨m, -, hm, -⟩ := exists_crates
  exact ⟨m, hm, exists_membersSeen hm⟩

/-- In the example a second round would add the array of strings. -/
theorem crates_not_seen : ∃ m, ofUnits crates = .ok m ∧
    ¬∀ p ∈ instantiations m.registry, m.SeesMembers m.registry p := by
  obtain ⟨m, written, hm, hfinished⟩ := exists_crates
  refine ⟨m, hm, fun hall => ?_⟩
  have hadds := hfinished.adds_members
  have hinterned := hfinished.ready.interned
  obtain ⟨crate, hcrate, ⟨ty, hty⟩, htree⟩ := hfinished.exists_only_field class?_crates.1
  obtain ⟨tray, htray, ⟨items, hitems⟩, hitemsTree⟩ :=
    hfinished.exists_only_field class?_crates.2
  -- the member of the written crate is an instantiation of its own
  have hwritten : written.Holds (.compound ([.primitive .string] ++ [.declared 0])) := by
    have hmem : .compound ([.primitive .string] ++ [.declared 0]) ∈
        cratesBare.programTrees.flatMap TypeTree.nodes := by simp [nodes_crates]
    obtain ⟨τ, hτ, hσ⟩ := List.mem_flatMap.mp hmem
    exact hfinished.adds.all τ hτ _ hσ
  obtain ⟨args, hp, hargs⟩ := (holds_instantiation_iff hinterned).mp hwritten
  have hmember : (written.tree ty).subst 0 (args.map written.tree) ∈ m.memberTrees written :=
    List.mem_flatMap.mpr ⟨(0, args), hp, mem_memberTreesOf_iff.mpr ⟨crate, hcrate, ty, hty, rfl⟩⟩
  rw [htree ty hty, textTree_crates.1, hargs] at hmember
  have hnew : m.registry.Holds (.compound ([.primitive .string] ++ [.declared 1])) :=
    hadds.all _ hmember _ (by decide)
  obtain ⟨args', hp', hargs'⟩ := (holds_instantiation_iff hadds.interned).mp hnew
  -- and the array that it would need is not there
  have hseen : (m.registry.instantiated? items 1 args').isSome = true :=
    hall (1, args') hp' tray htray items hitems
  obtain ⟨x, hx⟩ := Option.isSome_iff_exists.mp hseen
  have hcovers := hfinished.members htray items hitems
  obtain ⟨hx, hxtree⟩ := (hadds.interned.instantiated?_eq_some_iff
    (covers_of_mem_instantiations hadds.interned hp') (covers_mono hcovers hadds.le)).mp hx
  rw [hinterned.tree_mono hadds.interned hadds.le hcovers, hitemsTree items hitems,
    textTree_crates.2, hargs'] at hxtree
  refine not_holds_crates hfinished (hadds.interned.holds_of_mem_nodes hx ?_)
  rw [hxtree]
  decide

end

end Model

end Interlock.Program
