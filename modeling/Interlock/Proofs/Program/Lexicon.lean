import Interlock.Proofs.Program.Resolution

/-! What a name means is settled before any type is. It depends on the classes, without what is
known about types, and on the imports; these are the same in a finished model and in the program
whose supertypes have just been linked. So everything that only names decide can be read off the
declarations. -/

namespace Interlock.Program.Model

variable {units : List SourceUnit} {m m' : Model}

/-- Two models in which every name means the same. -/
structure SameNames (m m' : Model) : Prop where
  classes : m'.classes.map Class.untyped = m.classes.map Class.untyped
  imports : m'.imports = m.imports

theorem SameNames.trans {m'' : Model} (h : m.SameNames m') (k : m'.SameNames m'') :
    m.SameNames m'' :=
  ⟨k.classes.trans h.classes, k.imports.trans h.imports⟩

/-! ## Names by classes and imports -/

section

variable (hc : m'.classes = m.classes) (hi : m'.imports = m.imports)
include hc

theorem class?_congr (c : ClassId) : m'.class? c = m.class? c := by
  rw [class?, hc, ← class?]

theorem outerChain_congr (c : ClassId) : m'.outerChain c = m.outerChain c := by
  have hat : ∀ fuel c, m'.outerChainAt fuel c = m.outerChainAt fuel c := by
    intro fuel
    induction fuel with
    | zero => intro c; rfl
    | succ fuel ih =>
      intro c
      simp only [outerChainAt, class?_congr hc, ih]
  rw [outerChain, hat, hc, ← outerChain]

theorem lineage_congr (c : ClassId) : m'.lineage c = m.lineage c := by
  rw [lineage, class?_congr hc, ← lineage]

theorem qualified?_congr (name : String) : m'.qualified? name = m.qualified? name := by
  rw [qualified?, hc, ← qualified?]

theorem simple?_congr (name : String) : m'.simple? name = m.simple? name := by
  rw [simple?, hc, ← simple?]

theorem nestedClass?_congr (c : ClassId) (name : String) :
    m'.nestedClass? c name = m.nestedClass? c name := by
  simp only [nestedClass?, lineage_congr hc, class?_congr hc]

theorem descend?_congr (names : List String) (c : ClassId) :
    m'.descend? c names = m.descend? c names := by
  induction names generalizing c with
  | nil => rfl
  | cons name names ih => simp only [descend?, nestedClass?_congr hc, ih]

theorem scoped?_congr (c : ClassId) (name : String) : m'.scoped? c name = m.scoped? c name := by
  simp only [scoped?, outerChain_congr hc, class?_congr hc, nestedClass?_congr hc]

include hi

theorem imported?_congr (origin : Class) (name : String) :
    m'.imported? origin name = m.imported? origin name := by
  simp only [imported?, hi, class?_congr hc, qualified?_congr hc, nestedClass?_congr hc]

theorem locate?_congr (text : String) (scope : Option ClassId) :
    m'.locate? text scope = m.locate? text scope := by
  have hsimple : ∀ name, m'.locateSimple? name scope = m.locateSimple? name scope := by
    intro name
    cases scope with
    | none => exact simple?_congr hc name
    | some scope =>
      simp only [locateSimple?, class?_congr hc, scoped?_congr hc, imported?_congr hc hi,
        simple?_congr hc]
  have hclass : m'.class? = m.class? := funext (class?_congr hc)
  simp only [locate?, qualified?_congr hc, hsimple, descend?_congr hc, hclass]

end

namespace SameNames

theorem outerChain (h : m.SameNames m') (c : ClassId) : m'.outerChain c = m.outerChain c := by
  rw [← outerChain_untyped m', ← outerChain_untyped m]
  have hclasses : m'.untyped.classes = m.untyped.classes := h.classes
  exact outerChain_congr hclasses c

theorem lineage (h : m.SameNames m') (c : ClassId) : m'.lineage c = m.lineage c := by
  rw [← lineage_untyped m', ← lineage_untyped m]
  have hclasses : m'.untyped.classes = m.untyped.classes := h.classes
  exact lineage_congr hclasses c

theorem qualified? (h : m.SameNames m') (name : String) :
    m'.qualified? name = m.qualified? name := by
  rw [← qualified?_untyped m', ← qualified?_untyped m]
  have hclasses : m'.untyped.classes = m.untyped.classes := h.classes
  exact qualified?_congr hclasses name

theorem scoped? (h : m.SameNames m') (c : ClassId) (name : String) :
    m'.scoped? c name = m.scoped? c name := by
  rw [← scoped?_untyped m', ← scoped?_untyped m]
  have hclasses : m'.untyped.classes = m.untyped.classes := h.classes
  exact scoped?_congr hclasses c name

theorem locate? (h : m.SameNames m') (text : String) (scope : Option ClassId) :
    m'.locate? text scope = m.locate? text scope := by
  rw [← locate?_untyped m', ← locate?_untyped m]
  have hclasses : m'.untyped.classes = m.untyped.classes := h.classes
  exact locate?_congr hclasses h.imports text scope

theorem class?_untyped (h : m.SameNames m') (c : ClassId) :
    (m'.class? c).map Class.untyped = (m.class? c).map Class.untyped := by
  rw [← Model.class?_untyped, ← Model.class?_untyped]
  have hclasses : m'.untyped.classes = m.untyped.classes := h.classes
  exact class?_congr hclasses c

end SameNames

/-! ## Finished models -/

theorem sameNames_registered (units : List SourceUnit) :
    (declared units).SameNames (registered units).1 :=
  ⟨congrArg classes (untyped_registered units), rfl⟩

theorem SameNames.withHierarchy (h : m.SameNames m')
    (hsupers : m'.namedSupers = m.namedSupers) (ancestors : List (List ClassId)) :
    (m.withHierarchy ancestors).SameNames (m'.withHierarchy ancestors) := by
  refine ⟨?_, h.imports⟩
  have hmap : ∀ m : Model, (m.withHierarchy ancestors).classes.map Class.untyped =
      (m.classes.map Class.untyped).mapIdx fun id c =>
        { c with supertypes := m.namedSupers.of id, ancestors := (ancestors[id]?).getD [] } := by
    intro m
    refine Array.ext (by simp [Model.withHierarchy]) fun i hi hi' => ?_
    simp [Model.withHierarchy, Class.untyped]
  rw [hmap, hmap, h.classes, hsupers]

theorem untyped_resolveFields (id : ClassId) (c : Class) (r : Types.Registry) :
    (resolveFields m id c r).1.untyped = c.untyped := by
  obtain ⟨fields, heq, -⟩ := Class.foldl_setField (P := fun _ => True)
    (m.resolveVariables id [] c.decl.fields r).1 (by simp) c (by simp)
  show (List.foldl _ c (m.resolveVariables id [] c.decl.fields r).1).untyped = c.untyped
  rw [heq]
  rfl

/-- Types leave the meaning of names alone. -/
theorem sameNames_withTypes (m : Model) (r : Types.Registry) : m.SameNames (m.withTypes r) :=
  ⟨map_mapIdxThrough untyped_resolveFields _ _, rfl⟩

theorem sameNames_withEntryPoints (m : Model) : m.SameNames m.withLocks.withEntryPoints :=
  ⟨rfl, rfl⟩

/-- A finished model and what it was before types: its declarations with their hierarchy. -/
structure Bare (units : List SourceUnit) (bare m : Model) : Prop where
  link : linkSupertypes (declared units) = .ok bare
  names : bare.SameNames m
  outline : bare.SameOutline m

/-- What does not depend on types is said of the classes of a finished model as it was before. -/
theorem Bare.exists_class? {bare : Model} (h : Bare units bare m) {c : ClassId} {α : Type}
    {view : Class → α} (hview : ∀ cls, view cls.untyped = view cls) {a : α}
    (hc : (bare.class? c).map view = some a) : ∃ cls, m.class? c = some cls ∧ view cls = a := by
  obtain ⟨before, hbefore, rfl⟩ := Option.map_eq_some_iff.mp hc
  have hsame := h.names.class?_untyped c
  rw [hbefore] at hsame
  obtain ⟨cls, hcls, heq⟩ := Option.map_eq_some_iff.mp hsame
  exact ⟨cls, hcls, by rw [← hview cls, heq, hview]⟩

theorem namedSupers_registered (units : List SourceUnit) :
    (registered units).1.namedSupers = (declared units).namedSupers := by
  rw [← namedSupers_untyped, untyped_registered, namedSupers_untyped]

theorem linkSupertypes_of_flatten {ancestors : List (List ClassId)}
    (h : m.namedSupers.flatten = .ok ancestors) :
    linkSupertypes m = .ok (m.withHierarchy ancestors) := by
  unfold linkSupertypes
  simp only [namedSupers] at h
  simp only [h]
  rfl

/-- The declarations with their types, under the hierarchy that they name. -/
def linked (units : List SourceUnit) (ancestors : List (List ClassId)) : Model :=
  (registered units).1.withHierarchy ancestors

theorem exists_linked (h : ofUnits units = .ok m) :
    ∃ ancestors, (declared units).namedSupers.flatten = .ok ancestors ∧
      m = ((linked units ancestors).withTypes (registered units).2).withLocks.withEntryPoints := by
  obtain ⟨_, hlinked, rfl⟩ := linked_of_ofUnits h
  obtain ⟨ancestors, hflatten, rfl⟩ := linkSupertypes_eq_ok hlinked
  exact ⟨ancestors, namedSupers_registered units ▸ hflatten, rfl⟩

theorem sameNames_linked (units : List SourceUnit) (ancestors : List (List ClassId)) :
    ((declared units).withHierarchy ancestors).SameNames (linked units ancestors) :=
  (sameNames_registered units).withHierarchy (namedSupers_registered units) ancestors

theorem sameOutline_registered_linked {ancestors : List (List ClassId)}
    (hflatten : (declared units).namedSupers.flatten = .ok ancestors) :
    (registered units).1.SameOutline (linked units ancestors) := by
  rw [← namedSupers_registered] at hflatten
  exact sameOutline_linked (linkSupertypes_of_flatten hflatten)

/-- The meaning of names in a finished model is that of the linked declarations. -/
theorem sameNames_finished (linked : Model) (r : Types.Registry) :
    linked.SameNames ((linked.withTypes r).withLocks).withEntryPoints :=
  (sameNames_withTypes linked r).trans (sameNames_withEntryPoints _)

theorem bare_of_flatten {ancestors : List (List ClassId)}
    (h : ofUnits units = .ok m) (hflatten : (declared units).namedSupers.flatten = .ok ancestors)
    (hm : m = ((linked units ancestors).withTypes (registered units).2).withLocks.withEntryPoints) :
    Bare units ((declared units).withHierarchy ancestors) m := by
  have hlink := linkSupertypes_of_flatten hflatten
  have hdeclared : (Numbered.ofUnits units).toModel.SameOutline (declared units) := ⟨rfl, rfl⟩
  refine ⟨hlink, ?_, (hdeclared.trans (sameOutline_linked hlink)).symm.trans
    (sameOutline_of_ofUnits h)⟩
  rw [hm]
  exact (sameNames_linked units ancestors).trans (sameNames_finished _ _)

end Interlock.Program.Model
