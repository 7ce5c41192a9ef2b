import Interlock.Proofs.Program.Hierarchy
import Interlock.Proofs.Program.Lookup
import Interlock.Proofs.Program.Numbering
import Interlock.Proofs.Program.Typing

/-! Finished models. Resolution takes the numbered declarations through several steps, and each of
them touches only what it is there for: the declarations stay as they were numbered, the hierarchy
is without cycles once it is linked, and every type is known to the registry that the model ends
with. -/

namespace Interlock.Program

open Interlock.Types

namespace Model

variable {units : List SourceUnit} {m : Model} {r : Registry}

/-! ## The steps -/

/-- All declarations, numbered, with the imports of their files. -/
def declared (units : List SourceUnit) : Model :=
  let m := (Numbered.ofUnits units).toModel
  { m with imports := (units.map fun u => u.imports.map (importTarget m)).toArray }

/-- All declarations, with the types of the classes, and the registry that holds these. -/
def registered (units : List SourceUnit) : Model × Registry :=
  let (classes, r) := mapIdxThrough registerClass (declared units).classes .initial
  ({ declared units with classes }, r)

/-- The types of all fields and signatures, and the registry that holds these. -/
def signed (m : Model) (r : Registry) : Model × Registry :=
  let (classes, r) := mapIdxThrough (resolveFields m) m.classes r
  let (functions, r) := mapIdxThrough (fun _ => resolveSignature m) m.functions r
  ({ m with classes, functions }, r)

/-- The types of all call sites; the registry is complete then. -/
def withCalls (m : Model) (r : Registry) : Model :=
  let (functions, r) := mapIdxThrough (fun _ => resolveCalls m) m.functions r
  let m := { m with functions }
  { m with registry := instantiateMembers m r }

def withTypes (m : Model) (r : Registry) : Model := (m.signed r).1.withCalls (m.signed r).2

def withLocks (m : Model) : Model :=
  { m with locks := (allLockDecls m).foldl (fun t d => (t.declare d).2) m.locks }

def withEntryPoints (m : Model) : Model :=
  { m with functions := m.functions.map fun f => { f with isRunnable := isRunnable m f } }

theorem ofUnits_eq (units : List SourceUnit) :
    ofUnits units = (linkSupertypes (registered units).1).map fun m =>
      ((m.withTypes (registered units).2).withLocks).withEntryPoints := by
  unfold ofUnits
  rfl

/-- A finished model is a linked one with types, locks and entry points. -/
theorem linked_of_ofUnits (h : ofUnits units = .ok m) :
    ∃ linked, linkSupertypes (registered units).1 = .ok linked ∧
      m = ((linked.withTypes (registered units).2).withLocks).withEntryPoints := by
  rw [ofUnits_eq] at h
  cases hlinked : linkSupertypes (registered units).1 with
  | error fault => simp [hlinked, Except.map] at h
  | ok linked =>
    rw [hlinked] at h
    cases h
    exact ⟨linked, rfl, rfl⟩

/-- A step over all classes or functions that keeps some of their data. -/
theorem map_mapIdxThrough {α β σ : Type} {f : Nat → α → σ → α × σ} {g : α → β}
    (hstep : ∀ i a s, g (f i a s).1 = g a) (as : Array α) (s : σ) :
    (mapIdxThrough f as s).1.map g = as.map g := by
  obtain ⟨-, hsize, hall⟩ := mapIdxThrough_spec (R := fun _ _ => True)
    (P := fun _ a b _ => g b = g a) (fun _ => trivial) (fun _ _ => trivial) (fun h _ => h) as s
    fun i a _ s _ => ⟨trivial, hstep i a s⟩
  refine Array.ext (by simpa using hsize) fun i hi hi' => ?_
  simp only [Array.size_map] at hi hi'
  obtain ⟨a, ha, hg⟩ := hall i _ (Array.getElem?_eq_getElem hi)
  rw [Array.getElem?_eq_getElem hi'] at ha
  cases ha
  simpa using hg

/-- The supertypes that the classes of a model name. -/
def namedSupers (m : Model) : Supertypes := m.classes.mapIdx fun id c => supertypesOf m id c

/-- The named supertypes as the hierarchy, with the ancestors of each class. -/
def withHierarchy (m : Model) (ancestors : List (List ClassId)) : Model :=
  { m with
    supers := m.namedSupers
    classes := m.classes.mapIdx fun id c =>
      { c with supertypes := m.namedSupers.of id, ancestors := (ancestors[id]?).getD [] } }

theorem class?_withHierarchy (m : Model) (ancestors : List (List ClassId)) (c : ClassId) :
    (m.withHierarchy ancestors).class? c = (m.class? c).map fun cls =>
      { cls with supertypes := m.namedSupers.of c, ancestors := (ancestors[c]?).getD [] } :=
  Array.getElem?_mapIdx

/-- Linking succeeds where the hierarchy is accepted, and adds nothing but the hierarchy. -/
theorem linkSupertypes_eq_ok {linked : Model} (h : linkSupertypes m = .ok linked) :
    ∃ ancestors, m.namedSupers.flatten = .ok ancestors ∧ linked = m.withHierarchy ancestors := by
  unfold linkSupertypes at h
  dsimp only at h
  split at h
  · cases h
  · next ancestors hflatten =>
    cases h
    exact ⟨ancestors, hflatten, rfl⟩

/-! ## Declarations -/

theorem sameOutline_registered (units : List SourceUnit) :
    (declared units).SameOutline (registered units).1 where
  classes := map_mapIdxThrough (fun _ _ _ => rfl) _ _
  functions := rfl

theorem sameOutline_linked {linked : Model} (h : linkSupertypes m = .ok linked) :
    m.SameOutline linked := by
  obtain ⟨ancestors, -, rfl⟩ := linkSupertypes_eq_ok h
  refine ⟨Array.ext (by simp [withHierarchy]) fun i hi hi' => ?_, rfl⟩
  simp [withHierarchy, Class.outline]

theorem outline_resolveFields (id : ClassId) (c : Class) (r : Registry) :
    (resolveFields m id c r).1.outline = c.outline := by
  obtain ⟨fields, heq, -⟩ := Class.foldl_setField (P := fun _ => True)
    (m.resolveVariables id [] c.decl.fields r).1 (by simp) c (by simp)
  show (List.foldl _ c (m.resolveVariables id [] c.decl.fields r).1).outline = c.outline
  rw [heq]
  rfl

theorem sameOutline_signed (m : Model) (r : Registry) : m.SameOutline (m.signed r).1 := by
  refine ⟨map_mapIdxThrough outline_resolveFields _ _, ?_⟩
  exact map_mapIdxThrough (f := fun _ => resolveSignature m) (fun _ _ _ => rfl) m.functions _

theorem sameOutline_withCalls (m : Model) (r : Registry) : m.SameOutline (m.withCalls r) where
  classes := rfl
  functions := map_mapIdxThrough (f := fun _ => resolveCalls m) (fun _ _ _ => rfl) m.functions r

theorem sameOutline_withEntryPoints (m : Model) : m.SameOutline m.withEntryPoints where
  classes := rfl
  functions := by simp [withEntryPoints, Function.outline]

/-- Resolution leaves classes and functions where they were numbered. -/
theorem sameOutline_of_ofUnits (h : ofUnits units = .ok m) :
    (Numbered.ofUnits units).toModel.SameOutline m := by
  obtain ⟨linked, hlinked, rfl⟩ := linked_of_ofUnits h
  have hdeclared : (Numbered.ofUnits units).toModel.SameOutline (declared units) := ⟨rfl, rfl⟩
  have htyped : linked.SameOutline (linked.withTypes (registered units).2) :=
    (sameOutline_signed linked _).trans (sameOutline_withCalls _ _)
  have hlocked : (linked.withTypes (registered units).2).SameOutline
      (linked.withTypes (registered units).2).withLocks := ⟨rfl, rfl⟩
  exact hdeclared.trans <| (sameOutline_registered units).trans <|
    (sameOutline_linked hlinked).trans <| htyped.trans <| hlocked.trans <|
    sameOutline_withEntryPoints _

theorem wellNested_of_ofUnits (h : ofUnits units = .ok m) : m.WellNested :=
  (wellNested_toModel (Numbered.sound_ofUnits units) (Numbered.filed_ofUnits units)).congr
    (sameOutline_of_ofUnits h)

/-! ## Hierarchy -/

/-- The classes stand in a hierarchy without cycles, each with its supertypes and with all classes
that these lead to. -/
structure Layered (m : Model) : Prop where
  size_supers : m.supers.size = m.classes.size
  inRange : m.supers.InRange
  wellFounded : WellFounded fun s c => m.supers.Names c s
  supertypes : ∀ {c cls}, m.class? c = some cls → cls.supertypes = m.supers.of c
  ancestors : ∀ {c cls}, m.class? c = some cls → cls.ancestors = m.supers.ancestorsOf c

theorem lt_size_of_mem_supertypesOf {id s : ClassId} {c : Class} (h : s ∈ supertypesOf m id c) :
    s < m.classes.size := by
  unfold supertypesOf at h
  refine List.foldlRecOn (motive := fun found => s ∈ found → s < m.classes.size) _ _ (by simp)
    (fun found ih text _ => ?_) h
  split
  · next located hlocated =>
    split
    · intro hs
      rcases List.mem_append.mp hs with hs | hs
      · exact ih hs
      · exact List.mem_singleton.mp hs ▸ lt_size_of_locate? hlocated
    · exact ih
  · exact ih

theorem inRange_namedSupers (m : Model) : m.namedSupers.InRange := by
  intro c s hs
  have hc := hs.lt_size
  simp only [Supertypes.Names, Supertypes.of, Array.getElem?_eq_getElem hc, Option.getD_some] at hs
  simp only [namedSupers, Array.getElem_mapIdx] at hs
  simpa [namedSupers] using lt_size_of_mem_supertypesOf hs

theorem layered_linked {linked : Model} (h : linkSupertypes m = .ok linked) : linked.Layered := by
  obtain ⟨ancestors, hflatten, rfl⟩ := linkSupertypes_eq_ok h
  obtain ⟨hwf, rfl⟩ := Supertypes.flatten_eq_ok hflatten
  have hsize : m.namedSupers.size = m.classes.size := by simp [namedSupers]
  refine ⟨by simp [withHierarchy, hsize], inRange_namedSupers m, hwf, fun {c cls} hc => ?_,
    fun {c cls} hc => ?_⟩
  · rw [class?_withHierarchy] at hc
    obtain ⟨before, -, rfl⟩ := Option.map_eq_some_iff.mp hc
    rfl
  · rw [class?_withHierarchy] at hc
    obtain ⟨before, hbefore, rfl⟩ := Option.map_eq_some_iff.mp hc
    have hlt : c < m.namedSupers.size := hsize ▸ lt_size_of_class? hbefore
    simp [withHierarchy, List.getElem?_range hlt]

/-- Steps that leave the hierarchy alone. -/
theorem Layered.congr {m' : Model} (h : m.Layered) (hsupers : m'.supers = m.supers)
    (hclasses : m'.classes.map (fun c => (c.supertypes, c.ancestors)) =
      m.classes.map fun c => (c.supertypes, c.ancestors)) : m'.Layered := by
  have hbefore : ∀ {c cls}, m'.class? c = some cls → ∃ before, m.class? c = some before ∧
      cls.supertypes = before.supertypes ∧ cls.ancestors = before.ancestors := by
    intro c cls hc
    obtain ⟨before, hbefore, heq⟩ := getElem?_of_map_eq hclasses hc
    simp only [Prod.mk.injEq] at heq
    exact ⟨before, hbefore, heq.1, heq.2⟩
  have hsize : m'.classes.size = m.classes.size := by simpa using congrArg Array.size hclasses
  refine ⟨?_, hsupers ▸ h.inRange, hsupers ▸ h.wellFounded, fun hc => ?_, fun hc => ?_⟩
  · rw [hsupers, hsize, h.size_supers]
  · obtain ⟨before, hget, heq, -⟩ := hbefore hc
    rw [heq, hsupers, h.supertypes hget]
  · obtain ⟨before, hget, -, heq⟩ := hbefore hc
    rw [heq, hsupers, h.ancestors hget]

theorem layered_of_ofUnits (h : ofUnits units = .ok m) : m.Layered := by
  obtain ⟨linked, hlinked, rfl⟩ := linked_of_ofUnits h
  refine (layered_linked hlinked).congr rfl (map_mapIdxThrough (fun id c s => ?_) _ _)
  obtain ⟨fields, heq, -⟩ := Class.foldl_setField (P := fun _ => True)
    (linked.resolveVariables id [] c.decl.fields s).1 (by simp) c (by simp)
  rw [show (resolveFields linked id c s).1 = { c with fields } from heq]

/-! ### Which programs have a model -/

theorem untyped_registered (units : List SourceUnit) :
    (registered units).1.untyped = (declared units).untyped := by
  have hclasses : (registered units).1.classes.map Class.untyped =
      (declared units).classes.map Class.untyped := map_mapIdxThrough (fun _ _ _ => rfl) _ _
  unfold untyped
  rw [hclasses]
  rfl

theorem namedSupers_untyped (m : Model) : m.untyped.namedSupers = m.namedSupers := by
  have hnamed : ∀ id (c : Class), supertypesOf m.untyped id c.untyped = supertypesOf m id c := by
    intro id c
    simp only [supertypesOf, locate?_untyped]
    rfl
  refine Array.ext (by simp [namedSupers]) fun i hi hi' => ?_
  simp only [namedSupers, Array.getElem_mapIdx]
  rw [← hnamed]
  simp [untyped]

/-- A program has a model if and only if its hierarchy, as the declarations name it, is without
cycles; then the model has that hierarchy. -/
theorem exists_ofUnits_iff (units : List SourceUnit) :
    (∃ m, ofUnits units = .ok m ∧ m.supers = (declared units).namedSupers) ↔
      ∃ ancestors, (declared units).namedSupers.flatten = .ok ancestors := by
  have hsupers : (registered units).1.namedSupers = (declared units).namedSupers := by
    rw [← namedSupers_untyped, untyped_registered, namedSupers_untyped]
  constructor
  · rintro ⟨m, hm, -⟩
    obtain ⟨linked, hlinked, -⟩ := linked_of_ofUnits hm
    obtain ⟨ancestors, hflatten, -⟩ := linkSupertypes_eq_ok hlinked
    exact ⟨ancestors, hsupers ▸ hflatten⟩
  · rintro ⟨ancestors, hflatten⟩
    have hlinked : ∃ linked, linkSupertypes (registered units).1 = .ok linked := by
      unfold linkSupertypes
      rw [← hsupers] at hflatten
      simp only [namedSupers] at hflatten
      simp only [hflatten]
      exact ⟨_, rfl⟩
    obtain ⟨linked, hlinked⟩ := hlinked
    obtain ⟨_, -, heq⟩ := linkSupertypes_eq_ok hlinked
    refine ⟨((linked.withTypes (registered units).2).withLocks).withEntryPoints, ?_, ?_⟩
    · rw [ofUnits_eq, hlinked]
      rfl
    · show linked.supers = _
      rw [heq, ← hsupers]
      rfl

/-! ## Types -/

/-- Classes that have types of their own, but none of their fields. -/
structure Prepared (m : Model) (r : Registry) : Prop where
  initial_le : .initial ≤ r
  classes : ∀ {c cls}, m.class? c = some cls → cls.TypedIn r c ∧ cls.fields = []
  functions : ∀ {f fn}, m.function? f = some fn → fn.locals = []

theorem prepared_registered (units : List SourceUnit) :
    (registered units).1.Prepared (registered units).2 := by
  have hsound := Numbered.sound_ofUnits units
  obtain ⟨hle, -, hall⟩ := mapIdxThrough_spec (f := registerClass) (R := (· ≤ ·))
    (P := fun c before after r => r.key? after.type = some (.declared c) ∧
      after.fields = before.fields)
    le_refl le_trans (fun h hle => ⟨Registry.key?_mono h.1 hle, h.2⟩)
    (declared units).classes .initial fun c cls _ r _ => by
      obtain ⟨hgrow, hkey, _, _, heq⟩ := registerClass_spec c cls r
      exact ⟨hgrow, hkey, by rw [heq]⟩
  refine ⟨hle, fun {c cls} hc => ?_, fun hf => hsound.locals hf⟩
  obtain ⟨before, hbefore, hkey, hsame⟩ := hall c cls hc
  rw [hsound.fields hbefore] at hsame
  exact ⟨⟨hkey, by simp [hsame]⟩, hsame⟩

theorem Prepared.withHierarchy (h : m.Prepared r) (ancestors : List (List ClassId)) :
    (m.withHierarchy ancestors).Prepared r := by
  refine ⟨h.initial_le, fun {c cls} hc => ?_, h.functions⟩
  rw [class?_withHierarchy] at hc
  obtain ⟨before, hbefore, rfl⟩ := Option.map_eq_some_iff.mp hc
  obtain ⟨htyped, hfields⟩ := h.classes hbefore
  exact ⟨⟨htyped.type, htyped.fields⟩, hfields⟩

/-- Classes with the types of their fields, and functions with the types of their signatures. -/
structure Signed (m : Model) (r : Registry) : Prop where
  initial_le : .initial ≤ r
  classes : ∀ {c cls}, m.class? c = some cls → cls.TypedIn r c
  functions : ∀ {f fn}, m.function? f = some fn → fn.TypedIn r

/-- Every type of a model is in its registry. -/
structure Typed (m : Model) : Prop where
  classes : ∀ {c cls}, m.class? c = some cls → cls.TypedIn m.registry c
  functions : ∀ {f fn}, m.function? f = some fn →
    fn.TypedIn m.registry ∧ fn.CallsTypedIn m.registry

theorem Prepared.fields (h : m.Prepared r) :
    r ≤ (mapIdxThrough (resolveFields m) m.classes r).2 ∧
      ∀ (c : ClassId) cls, (mapIdxThrough (resolveFields m) m.classes r).1[c]? = some cls →
        cls.TypedIn (mapIdxThrough (resolveFields m) m.classes r).2 c := by
  obtain ⟨hle, -, hall⟩ := mapIdxThrough_spec (f := resolveFields m) (R := (· ≤ ·))
    (P := fun c _ after r => after.TypedIn r c) le_refl le_trans
    (fun h hle => h.mono hle) m.classes r fun c cls hc s hs => by
      obtain ⟨htyped, hnil⟩ := h.classes hc
      obtain ⟨hgrow, fields, heq, hknown⟩ := resolveFields_spec m c (le_trans h.initial_le hs) hnil
      refine ⟨hgrow, ?_⟩
      rw [heq]
      exact ⟨Registry.key?_mono htyped.type (le_trans hs hgrow), hknown⟩
  refine ⟨hle, fun c cls hc => ?_⟩
  obtain ⟨-, -, htyped⟩ := hall c cls hc
  exact htyped

theorem Prepared.signed (h : m.Prepared r) : (m.signed r).1.Signed (m.signed r).2 := by
  obtain ⟨hfields, hclasses⟩ := h.fields
  have htypes : ∀ {s}, r ≤ s → ∀ c ∈ m.classes, s.Knows c.type := by
    intro s hs cls hcls
    obtain ⟨c, hc⟩ := Array.mem_iff_getElem?.mp hcls
    exact (Registry.knows_of_key? (h.classes hc).1.type).mono hs
  obtain ⟨hle, -, hall⟩ := mapIdxThrough_spec (f := fun _ => resolveSignature m) (R := (· ≤ ·))
    (P := fun _ _ after r => after.TypedIn r) le_refl le_trans (fun h hle => h.mono hle)
    m.functions (mapIdxThrough (resolveFields m) m.classes r).2 fun f fn hf s hs => by
      have hrs := le_trans hfields hs
      obtain ⟨hgrow, htyped, -⟩ := resolveSignature_spec m (le_trans h.initial_le hrs)
        (htypes hrs) (h.functions hf)
      exact ⟨hgrow, htyped⟩
  refine ⟨le_trans h.initial_le (le_trans hfields hle), fun {c cls} hc => ?_, fun {f fn} hf => ?_⟩
  · exact (hclasses c cls hc).mono hle
  · obtain ⟨-, -, htyped⟩ := hall f fn hf
    exact htyped

/-- Call sites are resolved last; the types of fields and signatures stay. -/
theorem Signed.withCalls (h : m.Signed r) : (m.withCalls r).Typed := by
  obtain ⟨hle, -, hall⟩ := mapIdxThrough_spec (f := fun _ => resolveCalls m) (R := (· ≤ ·))
    (P := fun _ _ after r => after.TypedIn r ∧ after.CallsTypedIn r) le_refl le_trans
    (fun h hle => ⟨h.1.mono hle, h.2.mono hle⟩) m.functions r fun f fn hf s hs => by
      obtain ⟨hgrow, hcalls, calls, heq⟩ := resolveCalls_spec m fn (le_trans h.initial_le hs)
      refine ⟨hgrow, ?_, hcalls⟩
      have htyped := (h.functions hf).mono (le_trans hs hgrow)
      rw [heq]
      exact ⟨htyped.arity, htyped.params, htyped.returnType, htyped.locals⟩
  have hmembers : (mapIdxThrough (fun _ => resolveCalls m) m.functions r).2 ≤
      (m.withCalls r).registry := le_instantiateMembers _ _
  refine ⟨fun {c cls} hc => ?_, fun {f fn} hf => ?_⟩
  · exact (h.classes hc).mono (le_trans hle hmembers)
  · obtain ⟨-, -, hsignature, hcalls⟩ := hall f fn hf
    exact ⟨hsignature.mono hmembers, hcalls.mono hmembers⟩

theorem Typed.withLocks (h : m.Typed) : m.withLocks.Typed := ⟨h.classes, h.functions⟩

theorem Typed.withEntryPoints (h : m.Typed) : m.withEntryPoints.Typed := by
  refine ⟨h.classes, fun {f fn} hf => ?_⟩
  simp only [Model.withEntryPoints, function?, Array.getElem?_map] at hf
  obtain ⟨before, hbefore, rfl⟩ := Option.map_eq_some_iff.mp hf
  obtain ⟨hsignature, hcalls⟩ := h.functions hbefore
  exact ⟨⟨hsignature.arity, hsignature.params, hsignature.returnType, hsignature.locals⟩, hcalls⟩

theorem typed_of_ofUnits (h : ofUnits units = .ok m) : m.Typed := by
  obtain ⟨linked, hlinked, rfl⟩ := linked_of_ofUnits h
  obtain ⟨ancestors, -, rfl⟩ := linkSupertypes_eq_ok hlinked
  have htyped := ((prepared_registered units).withHierarchy ancestors).signed.withCalls
  exact htyped.withLocks.withEntryPoints

/-! ## Finished models -/

/-- A model whose references fit together. Classes and functions carry the numbers of their
positions, and so do the types of the classes. -/
structure Closed (m : Model) : Prop where
  nested : m.WellNested
  /-- The way out of a class goes on until no class is around. -/
  outerChain_eq : ∀ {c cls}, m.class? c = some cls →
    m.outerChain c = c :: (cls.outer.map m.outerChain).getD []
  /-- A local name is looked for until no function is around. -/
  local?_eq : ∀ {f fn}, m.function? f = some fn → ∀ name,
    m.local? f name = (fn.localType? name).or (fn.parent.bind fun p => m.local? p name)
  /-- The lists of methods hold every function once. -/
  methods_perm : (m.classes.toList.flatMap (·.methods)).Perm (List.range m.functions.size)
  supertypes_lt : ∀ {c cls}, m.class? c = some cls → ∀ s ∈ cls.supertypes, s < m.classes.size
  ancestors_lt : ∀ {c cls}, m.class? c = some cls → ∀ a ∈ cls.ancestors, a < m.classes.size
  mem_ancestors : ∀ {c cls}, m.class? c = some cls → ∀ a,
    a ∈ cls.ancestors ↔ Relation.TransGen m.supers.Names c a
  not_mem_ancestors : ∀ {c cls}, m.class? c = some cls → c ∉ cls.ancestors
  mem_subclasses : ∀ c d, d ∈ m.supers.subclasses c ↔
    ∃ cls, m.class? d = some cls ∧ c ∈ cls.supertypes
  typed : m.Typed

namespace Layered

variable {c d : ClassId} {cls : Class}

theorem mem_ancestors (h : m.Layered) (hc : m.class? c = some cls) (a : ClassId) :
    a ∈ cls.ancestors ↔ Relation.TransGen m.supers.Names c a := by
  rw [h.ancestors hc, Supertypes.mem_ancestorsOf h.inRange]

theorem ancestors_lt (h : m.Layered) (hc : m.class? c = some cls) (a : ClassId)
    (ha : a ∈ cls.ancestors) : a < m.classes.size := by
  obtain ⟨s, -, hs⟩ := Relation.TransGen.tail'_iff.mp ((h.mem_ancestors hc a).mp ha)
  exact h.size_supers ▸ h.inRange s a hs

theorem names_iff (h : m.Layered) :
    m.supers.Names d c ↔ ∃ cls, m.class? d = some cls ∧ c ∈ cls.supertypes := by
  constructor
  · intro hd
    have hlt : d < m.classes.size := h.size_supers ▸ hd.lt_size
    have hget : m.class? d = some m.classes[d] := Array.getElem?_eq_getElem hlt
    exact ⟨_, hget, h.supertypes hget ▸ hd⟩
  · rintro ⟨cls, hcls, hd⟩
    rwa [h.supertypes hcls] at hd

end Layered

/-- Every finished model is closed. -/
theorem closed_of_ofUnits (h : ofUnits units = .ok m) : m.Closed := by
  have hnested := wellNested_of_ofUnits h
  have hlayered := layered_of_ofUnits h
  refine
    { nested := hnested
      outerChain_eq := hnested.outerChain_eq
      local?_eq := fun hf name => hnested.local?_eq name hf
      methods_perm := hnested.methods_perm
      supertypes_lt := fun {c cls} hc s hs => ?_
      ancestors_lt := hlayered.ancestors_lt
      mem_ancestors := hlayered.mem_ancestors
      not_mem_ancestors := fun {c cls} hc hself => ?_
      mem_subclasses := fun c d => ?_
      typed := typed_of_ofUnits h }
  · rw [hlayered.supertypes hc] at hs
    exact hlayered.size_supers ▸ hlayered.inRange c s hs
  · have hcycle := (hlayered.mem_ancestors hc c).mp hself
    exact Supertypes.not_transGen_self hlayered.wellFounded c hcycle
  · rw [Supertypes.mem_subclasses hlayered.inRange, hlayered.names_iff]

/-- An interface with a class that implements it, a class below that one which only calls, and a
nested class whose method has a local function. -/
def shapes : List SourceUnit :=
  let area : MethodDecl := { name := "area", returns := some "int" }
  let shape : ClassDecl :=
    { name := "Shape", kind := .interface, methods := [{ area with isAbstract := true }] }
  let lockCall (name : String) : Expr := .callOn (.ident "guard") name []
  let square : ClassDecl :=
    { name := "Square", supertypes := ["Shape"]
      fields := [{ type := "ReentrantLock", name := "guard" }]
      methods := [{ area with calls := [lockCall "lock", lockCall "unlock"] }] }
  let step : MethodDecl := { name := "step", calls := [.call "walk" []] }
  let edge : ClassDecl :=
    { name := "Edge"
      methods := [{ name := "walk", nested := [step], calls := [.call "step" []] }] }
  let paint : MethodDecl :=
    { name := "paint", params := [{ type := "Shape", name := "shape" }]
      calls := [.callOn (.ident "shape") "area" [.new { text := "Edge" } []]] }
  let tile : ClassDecl :=
    { name := "Tile", supertypes := ["Square"], methods := [paint], nested := [edge] }
  [{ path := "Shape.java", package := "draw", classes := [shape] },
   { path := "Tile.java", package := "draw", classes := [square, tile] }]

/-- The example is accepted, with the hierarchy that it writes. -/
theorem exists_shapes : ∃ m, ofUnits shapes = .ok m ∧ m.supers = #[[], [0], [1], []] := by
  have hsupers : (declared shapes).namedSupers = #[[], [0], [1], []] := by decide +kernel
  rw [← hsupers]
  refine (exists_ofUnits_iff shapes).mpr ?_
  rw [hsupers]
  exact ⟨_, rfl⟩

theorem shapes_closed :
    ∃ m, ofUnits shapes = .ok m ∧ m.supers = #[[], [0], [1], []] ∧ m.Closed := by
  obtain ⟨m, hm, hsupers⟩ := exists_shapes
  exact ⟨m, hm, hsupers, closed_of_ofUnits hm⟩

end Model

end Interlock.Program
