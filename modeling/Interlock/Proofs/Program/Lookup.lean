import Interlock.Program.Lookup

/-! Names lead to classes that exist, in every model, also in one whose references do not fit
together; and which class a name means does not depend on what is known about types. -/

namespace Interlock.Program.Model

variable {m : Model} {c d : ClassId} {name text : String}

theorem lt_size_of_class? {cls : Class} (h : m.class? c = some cls) : c < m.classes.size :=
  (Array.getElem?_eq_some_iff.mp h).1

theorem lt_size_of_any {p : Class → Bool} (h : (m.class? c).any p = true) :
    c < m.classes.size := by
  cases hc : m.class? c with
  | none => simp [hc] at h
  | some cls => exact lt_size_of_class? hc

/-! ## Names lead to classes -/

theorem lt_size_of_qualified? (h : m.qualified? name = some c) : c < m.classes.size := by
  have hmem := List.mem_of_find?_eq_some h
  simpa using hmem

theorem lt_size_of_simple? (h : m.simple? name = some c) : c < m.classes.size :=
  (Array.findIdx?_eq_some_iff_getElem.mp h).1

theorem lt_size_of_nestedClass? (h : m.nestedClass? c name = some d) : d < m.classes.size := by
  obtain ⟨owner, -, howner⟩ := List.exists_of_findSome?_eq_some h
  obtain ⟨cls, -, hfind⟩ := Option.bind_eq_some_iff.mp howner
  have hnamed := List.find?_some hfind
  exact lt_size_of_any hnamed

theorem lt_size_of_descend? {names : List String} (hc : c < m.classes.size)
    (h : m.descend? c names = some d) : d < m.classes.size := by
  induction names generalizing c with
  | nil =>
    cases h
    exact hc
  | cons name names ih =>
    obtain ⟨n, hn, hrest⟩ := Option.bind_eq_some_iff.mp h
    exact ih (lt_size_of_nestedClass? hn) hrest

theorem lt_size_of_scoped? (h : m.scoped? c name = some d) : d < m.classes.size := by
  obtain ⟨scope, -, hscope⟩ := List.exists_of_findSome?_eq_some h
  split at hscope
  · next cls hcls =>
    split at hscope
    · cases hscope
      exact lt_size_of_class? hcls
    · exact lt_size_of_nestedClass? hscope
  · cases hscope

theorem lt_size_of_imported? {origin : Class} (h : m.imported? origin name = some c) :
    c < m.classes.size := by
  unfold imported? at h
  split at h
  · cases h
  · dsimp only at h
    split at h
    · next targets _ single hsingle =>
      cases h
      obtain ⟨target, -, htarget⟩ := List.exists_of_findSome?_eq_some hsingle
      split at htarget
      · split at htarget
        · next hany =>
          cases htarget
          exact lt_size_of_any hany
        · cases htarget
      · cases htarget
    · split at h
      · next hpackage =>
        cases h
        exact lt_size_of_qualified? hpackage
      · obtain ⟨target, -, htarget⟩ := List.exists_of_findSome?_eq_some h
        split at htarget
        · exact lt_size_of_qualified? htarget
        · exact lt_size_of_nestedClass? htarget
        · cases htarget

theorem lt_size_of_locateSimple? {scope : Option ClassId}
    (h : m.locateSimple? name scope = some c) : c < m.classes.size := by
  cases scope with
  | none => exact lt_size_of_simple? h
  | some scope =>
    simp only [locateSimple?] at h
    split at h
    · cases h
    · split at h
      · next hscoped =>
        cases h
        exact lt_size_of_scoped? hscoped
      · split at h
        · next himported =>
          cases h
          exact lt_size_of_imported? himported
        · exact lt_size_of_simple? h

/-- The class that a written name means is a class of the model. -/
theorem lt_size_of_locate? {scope : Option ClassId} (h : m.locate? text scope = some c) :
    c < m.classes.size := by
  unfold locate? at h
  dsimp only at h
  split at h
  · cases h
  · split at h
    · next hqualified =>
      cases h
      exact lt_size_of_qualified? hqualified
    · split at h
      · exact lt_size_of_locateSimple? h
      · split at h
        · next hinner =>
          cases h
          obtain ⟨start, hstart, hdescend⟩ := Option.bind_eq_some_iff.mp hinner
          exact lt_size_of_descend? (lt_size_of_locateSimple? hstart) hdescend
        · split at h
          · cases h
          · split at h
            · cases h
            · exact lt_size_of_qualified? h

end Interlock.Program.Model

/-! ## Names without types -/

namespace Interlock.Program

/-- A class without what is known about types. -/
def Class.untyped (c : Class) : Class := { c with fields := [], paramTypes := [], type := .unknown }

namespace Model

/-- A model whose classes are without what is known about types. -/
def untyped (m : Model) : Model := { m with classes := m.classes.map Class.untyped }

theorem class?_untyped (m : Model) (c : ClassId) :
    m.untyped.class? c = (m.class? c).map Class.untyped := by
  simp [untyped, class?]

@[simp] theorem size_classes_untyped (m : Model) :
    m.untyped.classes.size = m.classes.size := by
  simp [untyped]

@[simp] theorem any_class?_untyped (m : Model) (c : ClassId) (name : String) :
    ((m.untyped.class? c).any fun cls => cls.name == name) =
      (m.class? c).any fun cls => cls.name == name := by
  simp [class?_untyped, Option.any_map, Class.untyped, Class.name]

@[simp] theorem lineage_untyped (m : Model) (c : ClassId) : m.untyped.lineage c = m.lineage c := by
  simp [lineage, class?_untyped, Class.untyped, Function.comp_def]

@[simp] theorem outerChain_untyped (m : Model) (c : ClassId) :
    m.untyped.outerChain c = m.outerChain c := by
  have hat : ∀ fuel c, m.untyped.outerChainAt fuel c = m.outerChainAt fuel c := by
    intro fuel
    induction fuel with
    | zero => intro c; rfl
    | succ fuel ih =>
      intro c
      simp [outerChainAt, class?_untyped, Class.untyped, Option.bind_map, Function.comp_def, ih]
  simp [outerChain, hat]

@[simp] theorem qualified?_untyped (m : Model) (name : String) :
    m.untyped.qualified? name = m.qualified? name := by
  unfold qualified?
  rw [size_classes_untyped]
  congr 1
  funext c
  have hc := class?_untyped m c
  unfold class? at hc
  rw [hc]
  cases m.classes[c]? <;> rfl

@[simp] theorem simple?_untyped (m : Model) (name : String) :
    m.untyped.simple? name = m.simple? name := by
  simp [simple?, untyped, Array.findIdx?_map, Class.untyped, Class.name, Function.comp_def]

@[simp] theorem nestedClass?_untyped (m : Model) (c : ClassId) (name : String) :
    m.untyped.nestedClass? c name = m.nestedClass? c name := by
  unfold nestedClass?
  rw [lineage_untyped]
  congr 1
  funext owner
  rw [class?_untyped]
  simp only [any_class?_untyped]
  cases m.class? owner <;> rfl

@[simp] theorem descend?_untyped (m : Model) (c : ClassId) (names : List String) :
    m.untyped.descend? c names = m.descend? c names := by
  induction names generalizing c with
  | nil => rfl
  | cons name names ih => simp [descend?, ih]

@[simp] theorem scoped?_untyped (m : Model) (c : ClassId) (name : String) :
    m.untyped.scoped? c name = m.scoped? c name := by
  unfold scoped?
  rw [outerChain_untyped]
  congr 1
  funext scope
  rw [class?_untyped, nestedClass?_untyped]
  cases m.class? scope <;> rfl

@[simp] theorem imported?_untyped (m : Model) (origin : Class) (name : String) :
    m.untyped.imported? origin.untyped name = m.imported? origin name := by
  simp only [imported?, any_class?_untyped, qualified?_untyped, nestedClass?_untyped]
  rfl

@[simp] theorem locateSimple?_untyped (m : Model) (name : String) (scope : Option ClassId) :
    m.untyped.locateSimple? name scope = m.locateSimple? name scope := by
  cases scope with
  | none => simp [locateSimple?]
  | some scope =>
    simp only [locateSimple?, class?_untyped, scoped?_untyped, simple?_untyped]
    cases m.class? scope with
    | none => rfl
    | some origin => simp only [Option.map_some, imported?_untyped]

/-- Types play no part in what a name means. -/
theorem locate?_untyped (m : Model) (text : String) (scope : Option ClassId) :
    m.untyped.locate? text scope = m.locate? text scope := by
  have hscope : scope.bind m.untyped.class? = (scope.bind m.class?).map Class.untyped := by
    cases scope with
    | none => rfl
    | some scope => exact class?_untyped m scope
  simp only [locate?, qualified?_untyped, locateSimple?_untyped, descend?_untyped, hscope]
  cases scope.bind m.class? with
  | none => simp only [Option.map_none]
  | some cls => simp only [Option.map_some, Class.untyped]

end Model

end Interlock.Program
