import Interlock.Proofs.Program.Resolution

/-! Qualified names. The top-level classes of a program are the classes that its files declare, in
the order of the files, each named inside the package of its file. The name of a class inside
another one goes on from the name of that one, so it has a point in it; a name without a point
belongs to top-level classes of the default package only. -/

namespace Interlock.Program

/-! ## Numbering -/

namespace Numbered

/-- The place of the classes that a file declares. -/
def Place.ofUnit (index : Nat) (u : SourceUnit) : Place :=
  { unit := index, package := u.package, around := u.package }

theorem Place.qualifiedName_ofUnit (index : Nat) (u : SourceUnit) (c : ClassDecl) :
    ((Place.ofUnit index u).classOf c).qualifiedName = Model.inPackage u.package c.name := by
  simp [Place.classOf, Place.ofUnit, Model.inPackage]

/-- The declarations of the classes that stand in no other one. -/
def topLevels (n : Numbered) : List Class := n.declarations.filter (·.outer.isNone)

/-- Every class inside another one has a point in its name. -/
def Pointed (n : Numbered) : Prop :=
  ∀ cls ∈ n.declarations, cls.outer.isSome = true → '.' ∈ cls.qualifiedName.toList

/-- What numbering adds: some classes at the top level, and classes inside others. -/
structure Adds (tops : List Class) (n n' : Numbered) : Prop where
  topLevels : n'.topLevels = n.topLevels ++ tops
  pointed : n.Pointed → n'.Pointed

/-- Nothing is added where the declarations stay. -/
theorem Adds.of_declarations {n n' : Numbered} (h : n'.declarations = n.declarations) :
    Adds [] n n' :=
  ⟨by rw [Numbered.topLevels, Numbered.topLevels, h, List.append_nil], fun hn => by
    rwa [Pointed, h]⟩

theorem Adds.refl (n : Numbered) : Adds [] n n := .of_declarations rfl

theorem Adds.trans {n₁ n₂ n₃ : Numbered} {tops tops' : List Class} (h : Adds tops n₁ n₂)
    (k : Adds tops' n₂ n₃) : Adds (tops ++ tops') n₁ n₃ :=
  ⟨by rw [k.topLevels, h.topLevels, List.append_assoc], k.pointed ∘ h.pointed⟩

/-- The classes of a list of declarations that stand at the top level. -/
def Place.tops (place : Place) (cs : List ClassDecl) : List Class :=
  if place.outer.isNone then cs.map place.classOf else []

theorem Place.tops_cons (place : Place) (c : ClassDecl) (cs : List ClassDecl) :
    place.tops (c :: cs) = place.tops [c] ++ place.tops cs := by
  unfold Place.tops
  split <;> simp

theorem Place.point_mem_classOf {place : Place} (h : place.outer.isSome = true) (c : ClassDecl) :
    '.' ∈ (place.classOf c).qualifiedName.toList := by
  have hname : (place.classOf c).qualifiedName = place.around ++ "." ++ c.name := by
    simp [Place.classOf, Option.isSome_iff_ne_none.mp h]
  simp [hname]

/-- Numbering a class itself, before what is inside it. -/
theorem adds_numberClass (place : Place) (c : ClassDecl) (n : Numbered) :
    Adds (place.tops [c]) n (n.numberClass (place.classOf c)) where
  topLevels := by
    rw [topLevels, declarations_numberClass, List.filter_append]
    simp [topLevels, Place.tops, List.filter_cons, Class.declaration, Place.classOf]
  pointed hn cls hcls houter := by
    rw [declarations_numberClass, List.mem_append, List.mem_singleton] at hcls
    obtain hbefore | rfl := hcls
    · exact hn cls hbefore houter
    · exact Place.point_mem_classOf houter c

mutual

theorem adds_addClass (c : ClassDecl) (place : Place) (n : Numbered) :
    Adds (place.tops [c]) n (addClass place c n) := by
  obtain ⟨name, kind, isAbstract, typeParams, supertypes, fields, constants, methods, nested⟩ := c
  rw [addClass]
  generalize ClassDecl.mk name kind isAbstract typeParams supertypes fields constants methods
    nested = c
  have hself := adds_numberClass place c n
  have hmethods : Adds [] (n.numberClass (place.classOf c))
      (addMethods n.classes.size none methods (n.numberClass (place.classOf c))) :=
    .of_declarations (declarations_addMethods ..)
  -- the classes inside stand below the one that was just numbered, so none is at the top level
  have hinside := adds_addClasses nested
    { place with outer := some n.classes.size, around := (place.classOf c).qualifiedName }
  simpa [Place.tops] using (hself.trans hmethods).trans (hinside _)

theorem adds_addClasses (cs : List ClassDecl) (place : Place) (n : Numbered) :
    Adds (place.tops cs) n (addClasses place cs n) := by
  cases cs with
  | nil =>
    have hnone : place.tops [] = [] := by simp [Place.tops]
    rw [hnone, addClasses]
    exact Adds.refl n
  | cons c cs =>
    rw [Place.tops_cons, addClasses]
    have hrecord : Adds [] (addClass place c n)
        ((addClass place c n).recordNested place.outer n.classes.size) :=
      .of_declarations (declarations_recordNested ..)
    have hfirst := (adds_addClass c place n).trans hrecord
    rw [List.append_nil] at hfirst
    exact hfirst.trans (adds_addClasses cs place _)

end

/-- The top-level classes are those that the files declare, in the order of the files. -/
theorem adds_ofUnits (units : List SourceUnit) :
    Adds (units.zipIdx.flatMap fun p => p.1.classes.map (Place.ofUnit p.2 p.1).classOf) {}
      (ofUnits units) := by
  have hall : ∀ (ps : List (SourceUnit × Nat)) (n : Numbered),
      Adds (ps.flatMap fun p => p.1.classes.map (Place.ofUnit p.2 p.1).classOf) n
        (ps.foldl (fun n p => n.addUnit p.2 p.1) n) := by
    intro ps
    induction ps with
    | nil => exact Adds.refl
    | cons p ps ih =>
      intro n
      exact (adds_addClasses p.1.classes (Place.ofUnit p.2 p.1) n).trans (ih _)
  exact hall units.zipIdx {}

end Numbered

/-! ## Finished models -/

/-- What is asked of classes as they were declared can be asked before or after. -/
theorem map_declaration_filter {p : Class → Bool} (hp : ∀ c, p c.declaration = p c)
    (cs : List Class) :
    (cs.filter p).map Class.declaration = (cs.map Class.declaration).filter p := by
  rw [List.filter_map, Function.comp_def]
  simp only [hp]

namespace Model

open Numbered

variable {units : List SourceUnit} {m : Model} {c : ClassId} {cls : Class}

theorem declaration_of_ofUnits (h : ofUnits units = .ok m) :
    m.classes.toList.map Class.declaration = (Numbered.ofUnits units).declarations := by
  have hview : ∀ as : Array Class, as.toList.map Class.declaration =
      ((as.map Class.outline).map Class.declaration).toList := by
    intro as
    simp [Class.outline, Class.declaration]
  rw [hview, (sameOutline_of_ofUnits h).classes, ← hview]
  rfl

/-- The classes that stand in no other one, in the order of their numbers. -/
def topLevels (m : Model) : List Class := m.classes.toList.filter (·.outer.isNone)

/-- The top-level classes of a program are those that its files declare, each named inside the
package of its file. -/
theorem topLevels_of_ofUnits (h : ofUnits units = .ok m) :
    m.topLevels.map Class.declaration =
      units.zipIdx.flatMap fun p => p.1.classes.map (Place.ofUnit p.2 p.1).classOf := by
  have hfilter := map_declaration_filter (p := (·.outer.isNone)) fun _ => rfl
  calc m.topLevels.map Class.declaration
      = (Numbered.ofUnits units).topLevels := by
        rw [topLevels, hfilter, declaration_of_ofUnits h, Numbered.topLevels]
    _ = _ := (adds_ofUnits units).topLevels

/-- The top-level classes of one file. -/
def topLevelsOf (m : Model) (index : Nat) : List Class := m.topLevels.filter (·.unit == index)

theorem topLevelsOf_of_ofUnits (h : ofUnits units = .ok m) {index : Nat} {u : SourceUnit}
    (hu : units[index]? = some u) :
    (m.topLevelsOf index).map Class.declaration = u.classes.map (Place.ofUnit index u).classOf := by
  have hunit : ∀ p : SourceUnit × Nat, ∀ cls ∈ p.1.classes.map (Place.ofUnit p.2 p.1).classOf,
      cls.unit = p.2 := by
    intro p cls hcls
    obtain ⟨d, -, rfl⟩ := List.mem_map.mp hcls
    rfl
  have hsection := filter_flatMap_zipIdx hunit units 0 hu
  rw [Nat.zero_add] at hsection
  rw [topLevelsOf, map_declaration_filter fun _ => rfl, topLevels_of_ofUnits h, hsection]

/-- A class inside another one has a point in its name. -/
theorem point_mem_qualifiedName (h : ofUnits units = .ok m) (hc : m.class? c = some cls)
    (houter : cls.outer.isSome = true) : '.' ∈ cls.qualifiedName.toList := by
  have hmem : cls.declaration ∈ m.classes.toList.map Class.declaration :=
    List.mem_map_of_mem (Array.mem_toList_iff.mpr (Array.mem_of_getElem? hc))
  rw [declaration_of_ofUnits h] at hmem
  exact (adds_ofUnits units).pointed (fun _ h => by cases h) cls.declaration hmem houter

theorem qualifiedName_of_topLevel (h : ofUnits units = .ok m) (hc : m.class? c = some cls)
    (houter : cls.outer = none) : cls.qualifiedName = inPackage cls.package cls.name := by
  have hmem : cls.declaration ∈ m.topLevels.map Class.declaration := by
    refine List.mem_map_of_mem (List.mem_filter.mpr ⟨?_, by simp [houter]⟩)
    exact Array.mem_toList_iff.mpr (Array.mem_of_getElem? hc)
  rw [topLevels_of_ofUnits h] at hmem
  obtain ⟨p, -, hp⟩ := List.mem_flatMap.mp hmem
  obtain ⟨d, -, hd⟩ := List.mem_map.mp hp
  have hpackage : p.1.package = cls.package := congrArg Class.package hd
  have hdecl : d = cls.decl := congrArg Class.decl hd
  calc cls.qualifiedName
      = ((Place.ofUnit p.2 p.1).classOf d).qualifiedName := by rw [hd, Class.declaration]
    _ = inPackage p.1.package d.name := Place.qualifiedName_ofUnit p.2 p.1 d
    _ = inPackage cls.package cls.name := by rw [hpackage, hdecl, Class.name]

/-- Names inside two packages are the same only if the packages are. -/
theorem inPackage_inj {p q name : String} : inPackage p name = inPackage q name ↔ p = q := by
  have hpoint : ∀ {p name : String}, name ≠ p ++ "." ++ name := by
    intro p name heq
    have hlength := congrArg String.length heq
    simp at hlength
  refine ⟨fun heq => ?_, congrArg (inPackage · name)⟩
  unfold inPackage at heq
  split at heq <;> split at heq
  · next hp hq => rw [String.isEmpty_iff.mp hp, String.isEmpty_iff.mp hq]
  · exact absurd heq hpoint
  · exact absurd heq.symm hpoint
  · exact String.append_left_inj _ |>.mp (String.append_left_inj _ |>.mp heq)

end Model

end Interlock.Program
