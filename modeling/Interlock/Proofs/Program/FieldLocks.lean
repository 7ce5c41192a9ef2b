import Mathlib.Data.List.TakeWhile
import Interlock.Proofs.Program.LockRecognition
import Interlock.Proofs.Text.Occurrence

/-! The lock of a field. A field and its lock are looked for along the same classes: those that are
visible from a class, the nearest first. The field is that of the first class which declares one of
the name; the lock is that of the first class under whose name one is declared, be it by a field or
by a local variable of a method. So the two part exactly where a nearer class has such a local. -/

namespace Interlock.Program.Model

open Interlock.Types Interlock.Types.Registry Interlock.Text

variable {units : List SourceUnit} {m : Model} {c o : ClassId} {name : String}

/-! ## The way from a class -/

/-- The classes whose members are visible from a class, the nearest first: its own lineage, then
those of the classes around it. -/
def visible (m : Model) (c : ClassId) : List ClassId := (m.outerChain c).flatMap m.lineage

theorem SameNames.visible {m' : Model} (h : m.SameNames m') (c : ClassId) :
    m'.visible c = m.visible c := by
  simp only [Model.visible, h.outerChain, funext h.lineage]

theorem findSome?_flatMap {α β γ : Type} (f : β → Option γ) (g : α → List β) (as : List α) :
    as.findSome? (fun a => (g a).findSome? f) = (as.flatMap g).findSome? f := by
  induction as with
  | nil => rfl
  | cons a as ih =>
    rw [List.findSome?_cons, List.flatMap_cons, List.findSome?_append, ← ih]
    cases (g a).findSome? f <;> rfl

theorem field?_eq_findSome? (m : Model) (c : ClassId) (name : String) :
    m.field? c name = (m.visible c).findSome? fun owner => do
      let cls ← m.class? owner
      let ty ← cls.fieldType? name
      return (owner, ty) :=
  findSome?_flatMap _ _ _

/-- The lock that is declared under the name of a class. -/
def lockOf? (m : Model) (c : ClassId) (name : String) : Option LockId := do
  let cls ← m.class? c
  m.locks.find? (cls.qualifiedName ++ "." ++ name)

theorem fieldLock?_eq_findSome? (m : Model) (c : ClassId) (name : String) :
    m.fieldLock? c name = (m.visible c).findSome? fun owner => m.lockOf? owner name :=
  findSome?_flatMap _ _ _

/-- The nearest class under whose name a lock is declared. -/
def lockHolder? (m : Model) (c : ClassId) (name : String) : Option ClassId :=
  (m.visible c).find? fun owner => (m.lockOf? owner name).isSome

theorem fieldLock?_eq_bind (m : Model) (c : ClassId) (name : String) :
    m.fieldLock? c name = (m.lockHolder? c name).bind fun owner => m.lockOf? owner name := by
  rw [fieldLock?_eq_findSome?, lockHolder?]
  induction m.visible c with
  | nil => rfl
  | cons owner rest ih =>
    rw [List.findSome?_cons, List.find?_cons, ih]
    cases hlock : m.lockOf? owner name with
    | none => simp
    | some id => simp [hlock]

/-- A name is found by one lock. -/
theorem name_eq_of_find?_locks (h : ofUnits units = .ok m) {full full' : String} {id : LockId}
    (hfind : m.locks.find? full = some id) (hfind' : m.locks.find? full' = some id) :
    full = full' := by
  have hbooks := (LockTable.kept_after ((allLockDecls m).map .declare) []).books
  rw [← locks_of_ofUnits h] at hbooks
  obtain ⟨lock, hget, hname⟩ := hbooks.find?_eq_some_iff.mp hfind
  obtain ⟨lock', hget', hname'⟩ := hbooks.find?_eq_some_iff.mp hfind'
  cases hget.symm.trans hget'
  rw [← hname, hname']

theorem className_of_class? {cls : Class} (h : m.class? c = some cls) :
    m.className c = cls.qualifiedName := by
  rw [className, h]

theorem lockOf?_eq_some_iff {id : LockId} : m.lockOf? c name = some id ↔
    ∃ cls, m.class? c = some cls ∧ m.locks.find? (cls.qualifiedName ++ "." ++ name) = some id := by
  rw [lockOf?]
  cases m.class? c <;> simp

theorem exists_class?_of_lockHolder? (h : m.lockHolder? c name = some o) :
    ∃ cls, m.class? o = some cls := by
  have hsome := List.find?_some h
  obtain ⟨id, hid⟩ := Option.isSome_iff_exists.mp hsome
  obtain ⟨cls, hcls, -⟩ := lockOf?_eq_some_iff.mp hid
  exact ⟨cls, hcls⟩

/-- The lock under the name of a class is found from another one exactly if the nearest class with a
lock of the name is called like it. -/
theorem fieldLock?_eq_some_iff_holder (h : ofUnits units = .ok m) {owner : Class} {id : LockId}
    (hlock : m.locks.find? (owner.qualifiedName ++ "." ++ name) = some id) :
    m.fieldLock? c name = some id ↔
      ∃ x, m.lockHolder? c name = some x ∧ m.className x = owner.qualifiedName := by
  rw [fieldLock?_eq_bind, Option.bind_eq_some_iff]
  refine exists_congr fun x => and_congr_right fun hx => ?_
  rw [lockOf?_eq_some_iff]
  constructor
  · rintro ⟨cls, hcls, hfind⟩
    have hfull := name_eq_of_find?_locks h hfind hlock
    rw [className_of_class? hcls]
    exact String.append_left_inj _ |>.mp (String.append_left_inj _ |>.mp hfull)
  · intro heq
    obtain ⟨cls, hcls⟩ := exists_class?_of_lockHolder? hx
    rw [className_of_class? hcls] at heq
    exact ⟨cls, hcls, heq ▸ hlock⟩

/-! ## Plain names -/

/-- Every class has a name of its own, and no variable has a point in its name. -/
structure PlainNames (m : Model) : Prop where
  classes : (m.classes.toList.map (·.qualifiedName)).Nodup
  fields : ∀ cls ∈ m.classes, ∀ v ∈ cls.decl.fields, '.' ∉ v.name.toList
  locals : ∀ fn ∈ m.functions, ∀ v ∈ fn.decl.locals, '.' ∉ v.name.toList

theorem PlainNames.eq_of_qualifiedName_eq (h : m.PlainNames) {d : ClassId} {cls cls' : Class}
    (hc : m.class? c = some cls) (hd : m.class? d = some cls')
    (heq : cls.qualifiedName = cls'.qualifiedName) : c = d := by
  have hc' : (m.classes.toList.map (·.qualifiedName))[c]? = some cls.qualifiedName := by
    rw [List.getElem?_map, Array.getElem?_toList, show m.classes[c]? = _ from hc]
    rfl
  have hd' : (m.classes.toList.map (·.qualifiedName))[d]? = some cls.qualifiedName := by
    rw [List.getElem?_map, Array.getElem?_toList, show m.classes[d]? = _ from hd, heq]
    rfl
  obtain ⟨hlt, -⟩ := List.getElem?_eq_some_iff.mp hc'
  exact (List.getElem?_inj hlt h.classes).mp (hc'.trans hd'.symm)

/-- Whether names are plain is seen before types. -/
theorem PlainNames.of_bare {bare : Model} (h : bare.PlainNames) (hbare : Bare units bare m) :
    m.PlainNames := by
  have hview : ∀ m : Model, m.classes.toList.map (·.qualifiedName) =
      (m.classes.map Class.untyped).toList.map (·.qualifiedName) := by
    intro m
    simp [Class.untyped]
  refine ⟨?_, fun cls hcls v hv => ?_, fun fn hfn v hv => ?_⟩
  · rw [hview, hbare.names.classes, ← hview]
    exact h.classes
  · obtain ⟨c, hc⟩ := Array.mem_iff_getElem?.mp hcls
    obtain ⟨before, hbefore, -, -, -, hdecl⟩ := hbare.outline.class? hc
    exact h.fields before (Array.mem_of_getElem? hbefore) v (hdecl ▸ hv)
  · obtain ⟨f, hf⟩ := Array.mem_iff_getElem?.mp hfn
    obtain ⟨before, hbefore, -, -, hdecl⟩ := hbare.outline.function? hf
    exact h.locals before (Array.mem_of_getElem? hbefore) v (hdecl ▸ hv)

theorem PlainNames.holdsLock (h : m.PlainNames)
    (hholds : m.FieldHoldsLock c name ∨ m.LocalHoldsLock c name) : '.' ∉ name.toList := by
  rcases hholds with ⟨cls, hcls, v, hv, rfl, -⟩ | ⟨f, fn, hf, -, v, hv, rfl, -⟩
  · exact h.fields cls (Array.mem_of_getElem? hcls) v hv
  · exact h.locals fn (Array.mem_of_getElem? hf) v hv

theorem exists_class?_of_holdsLock (h : ofUnits units = .ok m)
    (hholds : m.FieldHoldsLock c name ∨ m.LocalHoldsLock c name) :
    ∃ cls, m.class? c = some cls := by
  rcases hholds with ⟨cls, hcls, -⟩ | ⟨f, fn, hf, rfl, -⟩
  · exact ⟨cls, hcls⟩
  · have hlt := (wellNested_of_ofUnits h).cls_lt hf
    exact ⟨m.classes[fn.cls], Array.getElem?_eq_getElem hlt⟩

theorem isSome_lockOf?_of_holdsLock (h : ofUnits units = .ok m)
    (hholds : m.FieldHoldsLock c name ∨ m.LocalHoldsLock c name) :
    (m.lockOf? c name).isSome = true := by
  obtain ⟨cls, hcls⟩ := exists_class?_of_holdsLock h hholds
  rw [lockOf?, hcls]
  exact (isSome_find?_locks_iff h).mpr ⟨c, name, hholds, by rw [className_of_class? hcls]⟩

/-- Under plain names a lock is declared under the name of a class by its own variables. -/
theorem isSome_lockOf?_iff (h : ofUnits units = .ok m) (hplain : m.PlainNames)
    (hname : '.' ∉ name.toList) : (m.lockOf? c name).isSome = true ↔
      m.FieldHoldsLock c name ∨ m.LocalHoldsLock c name := by
  refine ⟨fun hsome => ?_, isSome_lockOf?_of_holdsLock h⟩
  obtain ⟨id, hid⟩ := Option.isSome_iff_exists.mp hsome
  obtain ⟨cls, hcls, hfind⟩ := lockOf?_eq_some_iff.mp hid
  obtain ⟨d, name', hholds, hfull⟩ :=
    (isSome_find?_locks_iff h).mp (Option.isSome_of_eq_some hfind)
  obtain ⟨hclass, rfl⟩ := eq_of_append_last_mark_eq (hplain.holdsLock hholds) hname hfull
  obtain ⟨cls', hcls'⟩ := exists_class?_of_holdsLock h hholds
  rw [className_of_class? hcls'] at hclass
  rwa [hplain.eq_of_qualifiedName_eq hcls hcls' hclass.symm]

/-- The classes that are nearer than another one. -/
def nearer (m : Model) (c o : ClassId) : List ClassId := (m.visible c).takeWhile (· != o)

theorem memberOf_eq_some_iff {a : ClassId} {ty : TypeId} :
    (do let cls ← m.class? a; let ty ← cls.fieldType? name; return (a, ty)) = some (o, ty) ↔
      a = o ∧ ∃ cls, m.class? o = some cls ∧ cls.fieldType? name = some ty := by
  constructor
  · intro h
    simp only [Option.bind_eq_bind, Option.bind_eq_some_iff, Option.pure_def, Option.some.injEq,
      Prod.mk.injEq] at h
    obtain ⟨cls, hcls, _, hty, rfl, rfl⟩ := h
    exact ⟨rfl, cls, hcls, hty⟩
  · rintro ⟨rfl, cls, hcls, hty⟩
    simp [hcls, hty]

/-- The field of a name is in the first class that has one. -/
theorem visible_of_field? {ty : TypeId} (h : m.field? c name = some (o, ty)) :
    (∃ rest, m.visible c = m.nearer c o ++ o :: rest) ∧
      ∀ x ∈ m.nearer c o, ∀ cls, m.class? x = some cls → cls.fieldType? name = none := by
  rw [field?_eq_findSome?] at h
  obtain ⟨before, a, rest, hvisible, ha, hbefore⟩ := List.findSome?_eq_some_iff.mp h
  have hnone : ∀ x ∈ before, ∀ cls, m.class? x = some cls → cls.fieldType? name = none := by
    intro x hx cls hcls
    have hx := hbefore x hx
    cases hty : cls.fieldType? name with
    | none => rfl
    | some ty => simp [hcls, hty] at hx
  obtain ⟨rfl, owner, howner, hty⟩ := memberOf_eq_some_iff.mp ha
  have hnot : a ∉ before := by
    intro hmem
    rw [hnone a hmem owner howner] at hty
    cases hty
  have hnearer : m.nearer c a = before := by
    rw [nearer, hvisible, List.takeWhile_append_of_pos fun x hx => ?_]
    · simp
    · simp only [bne_iff_ne, ne_eq]
      rintro rfl
      exact hnot hx
  rw [hnearer]
  exact ⟨⟨rest, hvisible⟩, hnone⟩

theorem exists_class?_of_field? {ty : TypeId} (h : m.field? c name = some (o, ty)) :
    ∃ owner, m.class? o = some owner ∧ owner.fieldType? name = some ty := by
  rw [field?_eq_findSome?] at h
  obtain ⟨_, _, _, -, ha, -⟩ := List.findSome?_eq_some_iff.mp h
  exact (memberOf_eq_some_iff.mp ha).2

theorem exists_decl_iff_fieldType? (h : ofUnits units = .ok m) {cls : Class}
    (hc : m.class? c = some cls) :
    (∃ v ∈ cls.decl.fields, v.name = name) ↔ (cls.fieldType? name).isSome = true := by
  obtain ⟨bare, written, hfinished⟩ := exists_finished h
  have hfields := hfinished.classes (le_refl _) hfinished.ready.interned hc
  rw [hfields.fieldType?, Option.isSome_map]
  simp [List.find?_isSome]

theorem lockHolder?_eq_some_iff {rest : List ClassId}
    (hvisible : m.visible c = m.nearer c o ++ o :: rest)
    (hlock : (m.lockOf? o name).isSome = true) :
    m.lockHolder? c name = some o ↔ ∀ x ∈ m.nearer c o, ¬(m.lockOf? x name).isSome = true := by
  have hnot : o ∉ m.nearer c o := by
    intro hmem
    simpa using List.mem_takeWhile_imp hmem
  rw [lockHolder?, hvisible, List.find?_append, List.find?_cons, hlock]
  cases hfind : (m.nearer c o).find? fun x => (m.lockOf? x name).isSome with
  | none => simpa using List.find?_eq_none.mp hfind
  | some x =>
    have hx := List.mem_of_find?_eq_some hfind
    have hsome := List.find?_some hfind
    refine iff_of_false ?_ fun hall => hall x hx hsome
    rw [Option.some_or, Option.some.injEq]
    rintro rfl
    exact hnot hx

/-- Under plain names the lock of a field is found unless a nearer class has a method with a local
lock of the same name. -/
theorem fieldLock?_eq_some_iff_locals (h : ofUnits units = .ok m) (hplain : m.PlainNames)
    {ty : TypeId} {owner : Class} {id : LockId} (hfield : m.field? c name = some (o, ty))
    (howner : m.class? o = some owner)
    (hlock : m.locks.find? (owner.qualifiedName ++ "." ++ name) = some id) :
    m.fieldLock? c name = some id ↔ ∀ x ∈ m.nearer c o, ¬m.LocalHoldsLock x name := by
  obtain ⟨⟨rest, hvisible⟩, hnone⟩ := visible_of_field? hfield
  have hown := lockOf?_eq_some_iff.mpr ⟨owner, howner, hlock⟩
  have hname : '.' ∉ name.toList := by
    obtain ⟨_, howner', hty⟩ := exists_class?_of_field? hfield
    cases howner.symm.trans howner'
    obtain ⟨v, hv, rfl⟩ := (exists_decl_iff_fieldType? h howner).mpr (Option.isSome_of_eq_some hty)
    exact hplain.fields owner (Array.mem_of_getElem? howner) v hv
  calc
    m.fieldLock? c name = some id ↔ m.lockHolder? c name = some o := by
      rw [fieldLock?_eq_some_iff_holder h hlock]
      constructor
      · rintro ⟨x, hx, hclass⟩
        obtain ⟨cls, hcls⟩ := exists_class?_of_lockHolder? hx
        rw [className_of_class? hcls] at hclass
        rw [hx, hplain.eq_of_qualifiedName_eq hcls howner hclass]
      · intro hx
        exact ⟨o, hx, className_of_class? howner⟩
    _ ↔ ∀ x ∈ m.nearer c o, ¬(m.lockOf? x name).isSome = true :=
      lockHolder?_eq_some_iff hvisible (Option.isSome_of_eq_some hown)
    _ ↔ ∀ x ∈ m.nearer c o, ¬m.LocalHoldsLock x name := by
      refine forall₂_congr fun x hx => ?_
      rw [isSome_lockOf?_iff h hplain hname, not_or, and_iff_right]
      rintro ⟨cls, hcls, v, hv, hvname, -⟩
      have hsome := (exists_decl_iff_fieldType? h hcls).mp ⟨v, hv, hvname⟩
      rw [hnone x hx cls hcls] at hsome
      cases hsome

/-! ## The lock of a field -/

/-- When a field that has a lock of its own is found with it: always if the nearest class with a
lock of the name is called like the class of the field; under plain names, if no nearer class has
a method with a local lock of the name. -/
theorem fieldLock_eq_own_iff (h : ofUnits units = .ok m) {ty : TypeId} {owner : Class}
    {id : LockId} (hfield : m.field? c name = some (o, ty)) (howner : m.class? o = some owner)
    (hlock : m.locks.find? (owner.qualifiedName ++ "." ++ name) = some id) :
    (m.fieldLock? c name = some id ↔
      ∃ x, m.lockHolder? c name = some x ∧ m.className x = owner.qualifiedName) ∧
    (m.PlainNames →
      (m.fieldLock? c name = some id ↔ ∀ x ∈ m.nearer c o, ¬m.LocalHoldsLock x name)) :=
  ⟨fieldLock?_eq_some_iff_holder h hlock,
    fun hplain => fieldLock?_eq_some_iff_locals h hplain hfield howner hlock⟩

/-- A class with a lock and two below it, one of which has a local lock of the same name. -/
def doors : List SourceUnit :=
  let guard : VariableDecl := { type := "ReentrantLock", name := "guard" }
  let door : ClassDecl := { name := "Door", fields := [guard] }
  let gate : ClassDecl :=
    { name := "Gate", supertypes := ["Door"], methods := [{ name := "pass", locals := [guard] }] }
  let porch : ClassDecl := { name := "Porch", supertypes := ["Door"] }
  [{ path := "Door.java", classes := [door, gate, porch] }]

def doorsBare : Model := (declared doors).withHierarchy [[], [0], [0]]

theorem exists_doors : ∃ m written, ofUnits doors = .ok m ∧ Finished doors doorsBare m written := by
  have hsupers : (declared doors).namedSupers = #[[], [0], [0]] := by decide +kernel
  refine exists_finished_of_flatten ?_
  rw [hsupers]
  cbv

theorem plainNames_doors : doorsBare.PlainNames :=
  ⟨by decide +kernel, by decide +kernel, by decide +kernel⟩

theorem members_doors : (doorsBare.class? 0).map (·.decl.fields) =
      some [{ type := "ReentrantLock", name := "guard" }] ∧
    (∀ c ∈ [1, 2], doorsBare.visible c = [c, 0] ∧
      (doorsBare.class? c).map (·.decl.fields) = some []) ∧
    doorsBare.functions.toList.map (fun fn => (fn.cls, fn.decl.locals)) =
      [(1, [{ type := "ReentrantLock", name := "guard" }])] := by
  decide +kernel

theorem types_doors : (∀ c ∈ [0, 1], (lockTypeName? doorsBare c "ReentrantLock").isSome = true) ∧
    doorsBare.textTree 0 [] "ReentrantLock" = .primitive .lock := by
  decide +kernel

section

variable (hm : ofUnits doors = .ok m) {written : Registry} (h : Finished doors doorsBare m written)
include h

theorem localHoldsLock_doors : m.LocalHoldsLock c "guard" ↔ c = 1 := by
  constructor
  · rintro ⟨f, fn, hf, rfl, -⟩
    obtain ⟨before, hbefore, hcls, -⟩ := h.underlies.outline.function? hf
    have hmem := List.mem_map_of_mem (f := fun fn => (fn.cls, fn.decl.locals))
      (Array.mem_toList_iff.mpr (Array.mem_of_getElem? hbefore))
    rw [members_doors.2.2, List.mem_singleton] at hmem
    rw [hcls, (Prod.mk.inj hmem).1]
  · rintro rfl
    have hmem : (1, [{ type := "ReentrantLock", name := "guard" }]) ∈
        doorsBare.functions.toList.map fun fn => (fn.cls, fn.decl.locals) := by
      simp [members_doors.2.2]
    obtain ⟨before, hbefore, heq⟩ := List.mem_map.mp hmem
    obtain ⟨f, hf⟩ := Array.mem_iff_getElem?.mp (Array.mem_toList_iff.mp hbefore)
    obtain ⟨fn, hfn, hcls, -, hdecl⟩ := h.underlies.outline.symm.function? hf
    obtain ⟨hcls', hlocals⟩ := Prod.mk.inj heq
    refine ⟨f, fn, hfn, by rw [← hcls, hcls'],
      { type := "ReentrantLock", name := "guard" }, ?_, rfl, ?_⟩
    · rw [← hdecl, hlocals]
      exact List.mem_singleton_self _
    · rw [h.underlies.names.lockTypeName?]
      exact types_doors.1 1 (by simp)

include hm

/-- Both lower classes see the field, and a lock of its own is declared for it. -/
theorem guard_doors : ∃ ty owner id, m.registry.kindOf ty = .lock ∧ m.class? 0 = some owner ∧
    m.locks.find? (owner.qualifiedName ++ "." ++ "guard") = some id ∧
    ∀ c ∈ [1, 2], m.field? c "guard" = some (0, ty) ∧ m.nearer c 0 = [c] := by
  obtain ⟨hdoor, hlower, -⟩ := members_doors
  have hnames := h.underlies.names
  have hadds := h.adds_members
  have hready := h.ready.mono hadds.le hadds.interned
  obtain ⟨door, hdoor, hfields⟩ := h.underlies.exists_class? (fun _ => rfl) hdoor
  have htypes := h.classes hadds.le hadds.interned hdoor
  have hmem : { type := "ReentrantLock", name := "guard" } ∈ door.decl.fields := by simp [hfields]
  obtain ⟨hcovers, htree⟩ := (htypes.texts _ hmem).type hready
  have hlock : (m.lockOf? 0 "guard").isSome = true := by
    refine isSome_lockOf?_of_holdsLock hm (.inl ⟨door, hdoor, _, hmem, rfl, ?_⟩)
    rw [hnames.lockTypeName?]
    exact types_doors.1 0 (by simp)
  obtain ⟨id, hid⟩ := Option.isSome_iff_exists.mp hlock
  obtain ⟨_, hdoor', hfind⟩ := lockOf?_eq_some_iff.mp hid
  cases hdoor.symm.trans hdoor'
  refine ⟨m.typeIn m.registry 0 [] "ReentrantLock", door, id, ?_, hdoor, hfind, fun c hc => ?_⟩
  · rw [hready.interned.kindOf_eq hcovers, htree, hnames.textTree, types_doors.2]
    rfl
  · obtain ⟨hvisible, hclass⟩ := hlower c hc
    rw [← hnames.visible] at hvisible
    obtain ⟨cls, hcls, hnone⟩ := h.underlies.exists_class? (fun _ => rfl) hclass
    have hlowerTypes := h.classes hadds.le hadds.interned hcls
    constructor
    · rw [field?_eq_findSome?, hvisible]
      simp [hcls, hlowerTypes.fieldType?, hnone, hdoor, htypes.fieldType?, hfields]
    · have hne : c ≠ 0 := by
        rintro rfl
        simp at hc
      simp [nearer, hvisible, hne]

end

/-- The field is found with its own lock from the class without a local lock. -/
theorem doors_fieldLock : ∃ m ty owner id, ofUnits doors = .ok m ∧ m.PlainNames ∧
    m.field? 2 "guard" = some (0, ty) ∧ m.class? 0 = some owner ∧
    m.locks.find? (owner.qualifiedName ++ "." ++ "guard") = some id ∧
    m.fieldLock? 2 "guard" = some id := by
  obtain ⟨m, written, hm, h⟩ := exists_doors
  obtain ⟨ty, owner, id, -, howner, hlock, hsees⟩ := guard_doors hm h
  obtain ⟨hfield, hnearer⟩ := hsees 2 (by simp)
  have hplain := plainNames_doors.of_bare h.underlies
  refine ⟨m, ty, owner, id, hm, hplain, hfield, howner, hlock, ?_⟩
  refine ((fieldLock_eq_own_iff hm hfield howner hlock).2 hplain).mpr fun x hx => ?_
  rw [hnearer, List.mem_singleton] at hx
  rw [localHoldsLock_doors h, hx]
  decide

/-- From the class with the local lock it is found with that one. -/
theorem doors_fieldLock_ne : ∃ m ty owner id, ofUnits doors = .ok m ∧ m.PlainNames ∧
    m.field? 1 "guard" = some (0, ty) ∧ m.registry.kindOf ty = .lock ∧ m.class? 0 = some owner ∧
    m.locks.find? (owner.qualifiedName ++ "." ++ "guard") = some id ∧
    m.fieldLock? 1 "guard" ≠ some id := by
  obtain ⟨m, written, hm, h⟩ := exists_doors
  obtain ⟨ty, owner, id, hkind, howner, hlock, hsees⟩ := guard_doors hm h
  obtain ⟨hfield, hnearer⟩ := hsees 1 (by simp)
  have hplain := plainNames_doors.of_bare h.underlies
  refine ⟨m, ty, owner, id, hm, hplain, hfield, hkind, howner, hlock, ?_⟩
  rw [Ne, fieldLock?_eq_some_iff_locals hm hplain hfield howner hlock]
  intro hall
  exact hall 1 (by simp [hnearer]) ((localHoldsLock_doors h).mpr rfl)

end Interlock.Program.Model
