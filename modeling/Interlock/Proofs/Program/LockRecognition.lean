import Interlock.Proofs.Program.GenericMembers
import Interlock.Proofs.Program.LockHistory

/-! Lock variables are recognized twice: by the name of their type when locks are declared, and by
the kind of their type when calls are resolved. The two agree on a text unless it is one of four
sorts, and every variable that a finished model declares is decided by this. -/

namespace Interlock.Types

open Interlock.Text

/-! ## Lock types of the library -/

/-- The names of the library types of one kind. -/
def namesOfKind (kind : TypeKind) : List String :=
  (kindNames.filter fun row => row.1 = kind).flatMap (·.2)

theorem mem_namesOfKind (name : String) (h : kindNamed name ≠ .none) :
    name ∈ namesOfKind (kindNamed name) := by
  unfold kindNamed at h ⊢
  cases hrow : kindNames.find? fun row => row.2.contains name with
  | none =>
    rw [hrow] at h
    exact absurd rfl h
  | some row =>
    have hname := List.find?_some hrow
    refine List.mem_flatMap.mpr ⟨row, ?_, List.contains_iff_mem.mp hname⟩
    exact List.mem_filter.mpr ⟨List.mem_of_find?_eq_some hrow, by simp⟩

/-- Lock types of the library are followed, and they have no identity of their own. -/
theorem lockNames_shared : ∀ name ∈ namesOfKind .lock,
    name ∉ untrackedNames ∧ name ∉ builtinNames ∧ name ≠ "lock" := by
  simp only [builtinNames, Ordered.mem_ofList]
  decide +kernel

theorem lockName_shared {name : String} (h : kindNamed name = .lock) :
    name ∉ untrackedNames ∧ name ∉ builtinNames ∧ name ≠ "lock" := by
  have hmem := mem_namesOfKind name (by simp [h])
  rw [h] at hmem
  exact lockNames_shared name hmem

theorem kind_primitive_eq_lock_iff {p : Primitive} :
    (TypeTree.primitive p).kind = .lock ↔ p = .lock := by
  cases p <;> simp [TypeTree.kind]

theorem primitiveNamed?_ne_lock (name : String) : primitiveNamed? name ≠ some .lock := by
  intro h
  obtain ⟨row, hrow, hlock⟩ := Option.map_eq_some_iff.mp h
  have hall : ∀ row ∈ primitiveNames, row.1 ≠ .lock := by decide
  exact hall row (List.mem_of_find?_eq_some hrow) hlock

/-- Of the names that nothing declares one has the kind of locks: that of the primitive type which
all of them share. -/
theorem kind_ofName_eq_lock_iff {name : String} :
    (TypeTree.ofName name).kind = .lock ↔ name = "lock" := by
  constructor
  · unfold TypeTree.ofName
    cases hprimitive : primitiveNamed? name with
    | some p =>
      intro hkind
      rw [kind_primitive_eq_lock_iff] at hkind
      exact absurd (hkind ▸ hprimitive) (primitiveNamed?_ne_lock name)
    | none =>
      cases hfind : Primitive.all.find? fun p => p.name == name with
      | some p =>
        intro hkind
        rw [kind_primitive_eq_lock_iff] at hkind
        have hname := List.find?_some hfind
        rw [hkind] at hname
        exact (eq_of_beq hname).symm
      | none =>
        intro hkind
        dsimp only at hkind
        split at hkind
        · rw [TypeTree.kind] at hkind
          split at hkind
          next hbuiltin =>
            exact absurd (List.contains_iff_mem.mp hbuiltin) (lockName_shared hkind).2.1
          next => cases hkind
        · cases hkind
  · rintro rfl
    decide

end Interlock.Types

namespace Interlock.Program.Model

open Interlock.Types Interlock.Types.Registry Interlock.Text

variable {units : List SourceUnit} {m : Model} {scope : ClassId} {methodParams : List String}

/-! ## The two readings of a text -/

/-- A name that stands for a type parameter, of the function or of a class around it. -/
def NamesParam (m : Model) (scope : ClassId) (methodParams : List String) (name : String) : Prop :=
  '.' ∉ name.toList ∧ (name ∈ methodParams ∨
    ∃ c ∈ m.outerChain scope, ∃ cls, m.class? c = some cls ∧ name ∈ cls.decl.typeParams)

theorem isSome_paramTree?_iff {name : String} : (m.paramTree? scope name).isSome = true ↔
    ∃ c ∈ m.outerChain scope, ∃ cls, m.class? c = some cls ∧ name ∈ cls.decl.typeParams := by
  rw [paramTree?, List.findSome?_isSome_iff]
  refine exists_congr fun c => and_congr_right fun _ => ?_
  cases m.class? c with
  | none => simp
  | some cls =>
    have hindex : (cls.decl.typeParams.findIdx? (· == name)).isSome = true ↔
        name ∈ cls.decl.typeParams := by
      simp [List.findIdx?_isSome]
    cases h : cls.decl.typeParams.findIdx? (· == name) <;> simp [h] at hindex ⊢ <;> exact hindex

/-- What stands for no class has no kind. -/
theorem kind_specialTree? {name : String} {generic : Bool} {τ : TypeTree}
    (h : m.specialTree? scope methodParams name generic = some τ) : τ.kind = .none := by
  unfold specialTree? at h
  split at h
  · cases h
    rfl
  · split at h
    · cases h
    · split at h
      · cases h
        rfl
      · obtain ⟨c, -, hc⟩ := List.exists_of_findSome?_eq_some h
        cases hcls : m.class? c with
        | none => simp [hcls] at hc
        | some cls =>
          cases hindex : cls.decl.typeParams.findIdx? (· == name) with
          | none => simp [hcls, hindex] at hc
          | some index =>
            simp only [hcls, hindex, Option.bind_eq_bind, Option.bind_some, Option.pure_def,
              Option.some.injEq] at hc
            subst hc
            rfl

theorem specialTree?_eq_none_iff {name : String} {generic : Bool} :
    m.specialTree? scope methodParams name generic = none ↔
      ¬(!generic && name == "void" || name == "?") = true ∧
        ¬m.NamesParam scope methodParams name := by
  rw [specialTree?, NamesParam, ← isSome_paramTree?_iff]
  by_cases hword : (!generic && name == "void" || name == "?") = true
  · rw [if_pos hword]
    exact iff_of_false (by simp) fun h => h.1 hword
  · rw [if_neg hword]
    by_cases hdot : '.' ∈ name.toList
    · simp only [List.contains_iff_mem.mpr hdot, if_true, hdot, not_true_eq_false, false_and,
        not_false_eq_true, and_true, true_iff]
      exact hword
    · by_cases hparam : name ∈ methodParams <;> simp_all

theorem kind_arrayTree_eq_lock_iff {dims : Nat} {τ : TypeTree} :
    (arrayTree dims τ).kind = .lock ↔ dims = 0 ∧ τ.kind = .lock := by
  cases dims with
  | zero => simp [arrayTree]
  | succ dims => simp [arrayTree, TypeTree.kind]

theorem kind_baseTree_eq_lock_iff (scope : ClassId) (t : TypeExpr) :
    (m.baseTree scope t).kind = .lock ↔
      kindNamed t.simpleName = .lock ∨
        t.simpleName = "lock" ∧ m.locate? t.name (some scope) = none := by
  unfold baseTree
  by_cases huntracked : t.simpleName ∈ untrackedNames
  · rw [if_pos (List.contains_iff_mem.mpr huntracked), kind_ofName_eq_lock_iff]
    have hkind : kindNamed t.simpleName ≠ .lock := fun h => (lockName_shared h).1 huntracked
    have hname : t.simpleName ≠ "lock" := by
      intro h
      rw [h] at huntracked
      revert huntracked
      decide
    simp [hkind, hname]
  · rw [if_neg (by simpa using huntracked)]
    cases hkind : kindNamed t.simpleName with
    | lock => simp [TypeTree.kind]
    | script =>
      have hname : t.simpleName ≠ "lock" := by
        intro h
        rw [h] at hkind
        revert hkind
        decide
      simp [TypeTree.kind, hname]
    | _ =>
      cases m.locate? t.name (some scope) with
      | some c => simp [TypeTree.kind]
      | none => simp [kind_ofName_eq_lock_iff]

/-- The resolved type is a lock: an undimensioned name of a library lock, or the name of the shared
primitive where no class takes it; a type parameter is none. -/
theorem kind_writtenTree_eq_lock_iff {t : TypeExpr} :
    (m.writtenTree scope methodParams t).kind = .lock ↔
      t.dims = 0 ∧ ¬m.NamesParam scope methodParams t.name ∧ (kindNamed t.simpleName = .lock ∨
        t.simpleName = "lock" ∧ m.locate? t.name (some scope) = none) := by
  have hwords : ∀ word ∈ ["void", "?"], kindNamed (lastPiece '.' word) ≠ .lock ∧
      lastPiece '.' word ≠ "lock" := by decide +kernel
  have hname : t.name ∈ ["void", "?"] → ¬(kindNamed t.simpleName = .lock ∨
      t.simpleName = "lock" ∧ m.locate? t.name (some scope) = none) := by
    rintro hmem (hkind | ⟨hlock, -⟩)
    · exact (hwords t.name hmem).1 hkind
    · exact (hwords t.name hmem).2 hlock
  obtain ⟨name, args, dims⟩ := t
  rw [writtenTree]
  cases hspecial : m.specialTree? scope methodParams name (!args.isEmpty) with
  | some τ =>
    simp only [kind_arrayTree_eq_lock_iff, kind_specialTree? hspecial]
    refine iff_of_false (by simp) ?_
    rintro ⟨-, hparam, hlock⟩
    have hword : ¬m.specialTree? scope methodParams name (!args.isEmpty) = none := by
      simp [hspecial]
    rw [specialTree?_eq_none_iff] at hword
    refine hname ?_ hlock
    by_contra hmem
    simp only [TypeExpr.name, List.mem_cons, List.not_mem_nil, or_false, not_or] at hmem hparam
    exact hword ⟨by simp [hmem], hparam⟩
  | none =>
    have hparam := (specialTree?_eq_none_iff.mp hspecial).2
    have hbase := kind_baseTree_eq_lock_iff (m := m) scope (.mk name args dims)
    simp only [TypeExpr.name, TypeExpr.dims, hparam, not_false_eq_true, true_and] at hbase ⊢
    cases args with
    | nil => rw [kind_arrayTree_eq_lock_iff, hbase]
    | cons arg rest =>
      simp only [kind_arrayTree_eq_lock_iff, TypeTree.kind, TypeTree.lastKind_eq,
        List.getLast?_append, List.getLast?_singleton, Option.some_or, Option.map_some,
        Option.getD_some, hbase]

/-- The name of the type is that of a lock: an undimensioned name that no class takes. -/
theorem isSome_lockTypeName?_iff {text : String} :
    (lockTypeName? m scope text).isSome = true ↔ ∃ t, TypeExpr.parse? text = some t ∧ t.dims = 0 ∧
      m.locate? t.name (some scope) = none ∧ isLockName t.simpleName = true := by
  rw [lockTypeName?]
  cases TypeExpr.parse? text with
  | none => simp
  | some t =>
    simp only [Option.bind_eq_bind, Option.bind_some, Option.some.injEq, exists_eq_left']
    by_cases hdims : t.dims = 0
    · cases m.locate? t.name (some scope) with
      | some c => simp
      | none => by_cases hname : isLockName t.simpleName = true <;> simp [hdims, hname]
    · have hpos : 0 < t.dims := Nat.pos_of_ne_zero hdims
      simp [hdims, hpos]

/-- The undimensioned types that one reading takes for a lock and the other does not. -/
inductive Disputed (m : Model) (scope : ClassId) (methodParams : List String) (t : TypeExpr) :
    Prop where
  /-- A type parameter that is called like a lock is declared as one. -/
  | parameter (param : m.NamesParam scope methodParams t.name)
      (free : m.locate? t.name (some scope) = none) (name : isLockName t.simpleName = true)
  /-- A class that is called like a library lock is resolved to the library. -/
  | shadowed (param : ¬m.NamesParam scope methodParams t.name)
      (taken : m.locate? t.name (some scope) ≠ none) (name : kindNamed t.simpleName = .lock)
  /-- A lock by its name alone is declared, and has an unknown type. -/
  | uncatalogued (param : ¬m.NamesParam scope methodParams t.name)
      (free : m.locate? t.name (some scope) = none) (other : kindNamed t.simpleName ≠ .lock)
      (name : contains "Lock" t.simpleName = true)
  /-- The name of the primitive type of locks is resolved, and no lock is declared. -/
  | primitive (param : ¬m.NamesParam scope methodParams t.name)
      (free : m.locate? t.name (some scope) = none) (name : t.simpleName = "lock")

def DisputedText (m : Model) (scope : ClassId) (methodParams : List String)
    (text : String) : Prop :=
  ∃ t, TypeExpr.parse? text = some t ∧ t.dims = 0 ∧ m.Disputed scope methodParams t

theorem not_isLockName_lock : kindNamed "lock" ≠ .lock ∧ contains "Lock" "lock" = false := by
  decide +kernel

/-- The two readings agree on every text that is not disputed, and on no other. -/
theorem agree_iff_not_disputed {text : String} :
    ((lockTypeName? m scope text).isSome = true ↔
        (m.textTree scope methodParams text).kind = .lock) ↔
      ¬m.DisputedText scope methodParams text := by
  rw [isSome_lockTypeName?_iff, textTree, DisputedText]
  cases TypeExpr.parse? text with
  | none => simp [TypeTree.kind]
  | some t =>
    simp only [Option.some.injEq, exists_eq_left', kind_writtenTree_eq_lock_iff]
    have hlock : isLockName t.simpleName = true ↔
        kindNamed t.simpleName = .lock ∨ contains "Lock" t.simpleName = true := by
      simp [isLockName]
    by_cases hdims : t.dims = 0
    · simp only [hdims, true_and]
      constructor
      · intro hagree
        rintro (⟨hparam, hfree, hname⟩ | ⟨hparam, htaken, hname⟩ | ⟨hparam, hfree, hother, hname⟩ |
          ⟨hparam, hfree, hname⟩)
        · exact (hagree.mp ⟨hfree, hname⟩).1 hparam
        · exact htaken (hagree.mpr ⟨hparam, .inl hname⟩).1
        · rcases (hagree.mp ⟨hfree, hlock.mpr (.inr hname)⟩).2 with hkind | ⟨heq, -⟩
          · exact hother hkind
          · rw [heq, not_isLockName_lock.2] at hname
            cases hname
        · have hname' := (hagree.mpr ⟨hparam, .inr ⟨hname, hfree⟩⟩).2
          rw [hname] at hname'
          revert hname'
          simp [isLockName, not_isLockName_lock]
      · intro hagree
        constructor
        · rintro ⟨hfree, hname⟩
          by_cases hparam : m.NamesParam scope methodParams t.name
          · exact absurd (.parameter hparam hfree hname) hagree
          · refine ⟨hparam, .inl ?_⟩
            by_contra hother
            exact hagree (.uncatalogued hparam hfree hother
              ((hlock.mp hname).resolve_left hother))
        · rintro ⟨hparam, hname | ⟨hname, hfree⟩⟩
          · refine ⟨?_, hlock.mpr (.inl hname)⟩
            by_contra htaken
            exact hagree (.shadowed hparam htaken hname)
          · exact absurd (.primitive hparam hfree hname) hagree
    · simp [hdims]

/-! ## Declared locks -/

theorem SameNames.lockTypeName? {m' : Model} (h : m.SameNames m') (text : String) :
    lockTypeName? m' scope text = lockTypeName? m scope text := by
  simp only [Program.lockTypeName?, h.locate?]

theorem allLockDecls_withEntryPoints (m : Model) :
    allLockDecls m.withLocks.withEntryPoints = allLockDecls m := by
  have hdecls : lockDecls m.withLocks.withEntryPoints = lockDecls m := by
    funext c vs
    have hname : m.withLocks.withEntryPoints.className c = m.className c := rfl
    simp only [lockDecls, (sameNames_withEntryPoints m).lockTypeName?, hname]
  rw [allLockDecls, hdecls, allLockDecls]
  congr 1
  simp only [withEntryPoints, withLocks, Array.toList_map, List.flatMap_map]

/-- The locks of a finished model are those of its declarations. -/
theorem locks_of_ofUnits (h : ofUnits units = .ok m) :
    m.locks = LockTable.after ((allLockDecls m).map .declare) := by
  obtain ⟨linked, hlinked, rfl⟩ := linked_of_ofUnits h
  have hlocks : linked.locks = {} := by
    obtain ⟨ancestors, -, rfl⟩ := linkSupertypes_eq_ok hlinked
    rfl
  have hempty : (linked.withTypes (registered units).2).locks = {} := hlocks
  generalize linked.withTypes (registered units).2 = typed at hempty ⊢
  rw [allLockDecls_withEntryPoints, LockTable.after, List.foldl_map, ← hempty]
  rfl

/-- A class has a field of this name whose declaration holds a lock. -/
def FieldHoldsLock (m : Model) (c : ClassId) (name : String) : Prop :=
  ∃ cls, m.class? c = some cls ∧ ∃ v ∈ cls.decl.fields,
    v.name = name ∧ (lockTypeName? m c v.type).isSome = true

/-- A class has a function with a local variable of this name whose declaration holds a lock. -/
def LocalHoldsLock (m : Model) (c : ClassId) (name : String) : Prop :=
  ∃ f fn, m.function? f = some fn ∧ fn.cls = c ∧ ∃ v ∈ fn.decl.locals,
    v.name = name ∧ (lockTypeName? m c v.type).isSome = true

theorem exists_mem_lockDecls_iff {c : ClassId} {vs : List VariableDecl} {full : String} :
    (∃ d ∈ lockDecls m c vs, d.name = full) ↔ ∃ v ∈ vs,
      (lockTypeName? m c v.type).isSome = true ∧ m.className c ++ "." ++ v.name = full := by
  constructor
  · rintro ⟨d, hd, rfl⟩
    obtain ⟨v, hv, hd⟩ := List.mem_filterMap.mp hd
    obtain ⟨typeName, hname, rfl⟩ := Option.map_eq_some_iff.mp hd
    exact ⟨v, hv, by simp [hname], rfl⟩
  · rintro ⟨v, hv, hlock, rfl⟩
    obtain ⟨typeName, hname⟩ := Option.isSome_iff_exists.mp hlock
    exact ⟨_, List.mem_filterMap.mpr ⟨v, hv, Option.map_eq_some_iff.mpr ⟨_, hname, rfl⟩⟩, rfl⟩

/-- A lock is found under a name exactly if a field or a local variable declares one. -/
theorem isSome_find?_locks_iff (h : ofUnits units = .ok m) {full : String} :
    (m.locks.find? full).isSome = true ↔
      ∃ c name, (m.FieldHoldsLock c name ∨ m.LocalHoldsLock c name) ∧
        m.className c ++ "." ++ name = full := by
  have hnames : (m.locks.find? full).isSome = true ↔ ∃ d ∈ allLockDecls m, d.name = full := by
    rw [Option.isSome_iff_ne_none, Ne, LockTable.find?_eq_none_iff, not_not, locks_of_ofUnits h,
      LockTable.names_after, List.mem_eraseDups, List.map_map]
    exact List.mem_map
  rw [hnames]
  constructor
  · rintro ⟨d, hd, hname⟩
    rcases List.mem_append.mp hd with hd | hd
    · obtain ⟨⟨cls, c⟩, hcls, hd⟩ := List.mem_flatMap.mp hd
      obtain ⟨v, hv, hlock, hfull⟩ := exists_mem_lockDecls_iff.mp ⟨d, hd, hname⟩
      have hget : m.class? c = some cls := by
        simpa [class?] using List.mem_zipIdx_iff_getElem?.mp hcls
      exact ⟨c, v.name, .inl ⟨cls, hget, v, hv, rfl, hlock⟩, hfull⟩
    · obtain ⟨fn, hfn, hd⟩ := List.mem_flatMap.mp hd
      obtain ⟨v, hv, hlock, hfull⟩ := exists_mem_lockDecls_iff.mp ⟨d, hd, hname⟩
      obtain ⟨f, hf⟩ := List.mem_iff_getElem?.mp hfn
      refine ⟨fn.cls, v.name, .inr ⟨f, fn, ?_, rfl, v, hv, rfl, hlock⟩, hfull⟩
      simpa [function?] using hf
  · rintro ⟨c, name, ⟨cls, hcls, v, hv, rfl, hlock⟩ | ⟨f, fn, hfn, rfl, v, hv, rfl, hlock⟩, hfull⟩
    · obtain ⟨d, hd, hname⟩ := exists_mem_lockDecls_iff.mpr ⟨v, hv, hlock, hfull⟩
      refine ⟨d, List.mem_append_left _ (List.mem_flatMap.mpr ⟨(cls, c), ?_, hd⟩), hname⟩
      rw [List.mem_zipIdx_iff_getElem?]
      simpa [class?] using hcls
    · obtain ⟨d, hd, hname⟩ := exists_mem_lockDecls_iff.mpr ⟨v, hv, hlock, hfull⟩
      refine ⟨d, List.mem_append_right _ (List.mem_flatMap.mpr ⟨fn, ?_, hd⟩), hname⟩
      exact List.mem_iff_getElem?.mpr ⟨f, by simpa [function?] using hfn⟩

/-! ## Finished models -/

/-- What becomes of a declared variable: it has the type of its text, a lock has its name if the
declaration holds one, and exactly then the type is one of locks, unless the text is disputed. -/
structure Recognized (m : Model) (c : ClassId) (methodParams : List String) (v : VariableDecl)
    (ty : TypeId) : Prop where
  resolved : m.resolveText c methodParams v.type m.registry = (ty, m.registry)
  declared : (lockTypeName? m c v.type).isSome = true →
    (m.locks.find? (m.className c ++ "." ++ v.name)).isSome = true
  agree_iff : ((lockTypeName? m c v.type).isSome = true ↔ m.registry.kindOf ty = .lock) ↔
    ¬m.DisputedText c methodParams v.type

theorem recognized_of_settled {c : ClassId} {v : VariableDecl} (hready : m.Ready m.registry)
    (hsettled : m.Settled m.registry c methodParams v.type)
    (hdeclared : (lockTypeName? m c v.type).isSome = true →
      (m.locks.find? (m.className c ++ "." ++ v.name)).isSome = true) :
    m.Recognized c methodParams v (m.typeIn m.registry c methodParams v.type) := by
  obtain ⟨hcovers, htree⟩ := hsettled.type hready
  refine ⟨Prod.ext rfl hsettled, hdeclared, ?_⟩
  rw [hready.interned.kindOf_eq hcovers, htree]
  exact agree_iff_not_disputed

/-- In a finished model every field and every local variable is recognized, with the type that the
model keeps for it. -/
theorem recognized_of_ofUnits (h : ofUnits units = .ok m) :
    (∀ c cls, m.class? c = some cls → ∀ v ∈ cls.decl.fields, ∃ ty, m.Recognized c [] v ty ∧
      ((cls.decl.fields.reverse.find? fun w => w.name == v.name) = some v →
        cls.fieldType? v.name = some ty)) ∧
    (∀ f fn, m.function? f = some fn → ∀ v ∈ fn.decl.locals,
      ∃ ty ∈ fn.locals.typesOf v.name, m.Recognized fn.cls fn.decl.typeParams v ty) := by
  obtain ⟨bare, written, hfinished⟩ := exists_finished h
  have hadds := hfinished.adds_members
  have hready := hfinished.ready.mono hadds.le hadds.interned
  refine ⟨fun c cls hc v hv => ?_, fun f fn hf v hv => ?_⟩
  · have hfields := hfinished.classes hadds.le hadds.interned hc
    refine ⟨_, recognized_of_settled hready (hfields.texts v hv) fun hlock => ?_, fun hlast => ?_⟩
    · exact (isSome_find?_locks_iff h).mpr ⟨c, v.name, .inl ⟨cls, hc, v, hv, rfl, hlock⟩, rfl⟩
    · rw [hfields.fieldType?, hlast, Option.map_some]
  · have hsignature := hfinished.functions hadds.le hadds.interned hf
    have hmem := List.mem_append_right fn.decl.params hv
    refine ⟨_, hsignature.locals.mpr ⟨v, hmem, rfl, rfl⟩,
      recognized_of_settled hready (hsignature.texts v hmem) fun hlock => ?_⟩
    exact (isSome_find?_locks_iff h).mpr
      ⟨fn.cls, v.name, .inr ⟨f, fn, hf, rfl, v, hv, rfl, hlock⟩, rfl⟩

/-- A class with a lock whose type no catalogue has. -/
def leases : List SourceUnit :=
  let lease : ClassDecl :=
    { name := "Lease", fields := [{ type := "DistributedLock", name := "guard" }] }
  [{ path := "Lease.java", classes := [lease] }]

theorem exists_leases : ∃ m written, ofUnits leases = .ok m ∧
    Finished leases ((declared leases).withHierarchy [[]]) m written := by
  have hsupers : (declared leases).namedSupers = #[[]] := by decide +kernel
  refine exists_finished_of_flatten ?_
  rw [hsupers]
  cbv

theorem class?_leases : (((declared leases).withHierarchy [[]]).class? 0).map (·.decl.fields) =
    some [{ type := "DistributedLock", name := "guard" }] := by
  decide +kernel

theorem leases_recognized : ∃ m, ofUnits leases = .ok m ∧ ∃ cls, m.class? 0 = some cls ∧
    cls.decl.fields = [{ type := "DistributedLock", name := "guard" }] ∧
      ∀ v ∈ cls.decl.fields, ∃ ty, m.Recognized 0 [] v ty := by
  obtain ⟨m, written, hm, hfinished⟩ := exists_leases
  obtain ⟨cls, hc, hdecl⟩ := hfinished.underlies.exists_class? (fun _ => rfl) class?_leases
  refine ⟨m, hm, cls, hc, hdecl, fun v hv => ?_⟩
  obtain ⟨ty, hty, -⟩ := (recognized_of_ofUnits hm).1 0 cls hc v hv
  exact ⟨ty, hty⟩

/-- The lock of the example is declared, and nothing is known of its type. -/
theorem leases_disagree : ∃ m, ofUnits leases = .ok m ∧ ∃ cls v ty, m.class? 0 = some cls ∧
    v ∈ cls.decl.fields ∧ cls.fieldType? v.name = some ty ∧
      (lockTypeName? m 0 v.type).isSome = true ∧ m.registry.kindOf ty ≠ .lock := by
  obtain ⟨m, written, hm, hfinished⟩ := exists_leases
  have hadds := hfinished.adds_members
  have hready := hfinished.ready.mono hadds.le hadds.interned
  obtain ⟨cls, hc, hdecl⟩ := hfinished.underlies.exists_class? (fun _ => rfl) class?_leases
  have hfields := hfinished.classes hadds.le hadds.interned hc
  have hmem : { type := "DistributedLock", name := "guard" } ∈ cls.decl.fields := by simp [hdecl]
  refine ⟨m, hm, cls, _, m.typeIn m.registry 0 [] "DistributedLock", hc, hmem, ?_, ?_, ?_⟩
  · rw [hfields.fieldType?, hdecl]
    simp
  · rw [hfinished.underlies.names.lockTypeName?]
    decide +kernel
  · obtain ⟨hcovers, htree⟩ := (hfields.texts _ hmem).type hready
    have hparse : TypeExpr.parse? "DistributedLock" = some (.plain "DistributedLock") := rfl
    have hname : (TypeExpr.plain "DistributedLock").simpleName = "DistributedLock" := by
      decide +kernel
    rw [hready.interned.kindOf_eq hcovers, htree, textTree, hparse]
    dsimp only
    rw [Ne, kind_writtenTree_eq_lock_iff, hname]
    rintro ⟨-, -, hkind | ⟨hlock, -⟩⟩
    · revert hkind
      decide +kernel
    · revert hlock
      decide

end Interlock.Program.Model
