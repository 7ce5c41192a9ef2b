import Interlock.Proofs.Program.ResolvedTypes

/-! The types that a finished model stores. They are those of the texts that declare them: a field
has the type of its last declaration, a local name those of all its declarations, and a function the
type of its result. Each of them is in the registry with the tree of its text. -/

namespace Interlock.Program

open Interlock.Types Interlock.Types.Registry Interlock.Text

/-- What holds of the result of each step in every later registry holds of the elements of the array
after the run. -/
theorem settled_mapIdxThrough {α : Type} {f : Nat → α → Registry → α × Registry}
    {Q : Nat → α → α → Registry → Prop} {r : Registry} (as : Array α) (h : r.Interned)
    (hstep : ∀ (i : Nat) a, as[i]? = some a → ∀ s, r ≤ s → s.Interned →
      s ≤ (f i a s).2 ∧ (f i a s).2.Interned ∧
        ∀ t, (f i a s).2 ≤ t → t.Interned → Q i a (f i a s).1 t) {i : Nat} {b : α}
    (hb : (mapIdxThrough f as r).1[i]? = some b) : ∃ a, as[i]? = some a ∧
      ∀ t, (mapIdxThrough f as r).2 ≤ t → t.Interned → Q i a b t := by
  obtain ⟨-, -, hall⟩ := mapIdxThrough_spec
    (R := fun s t => s ≤ t ∧ (s.Interned → t.Interned))
    (P := fun i a b s => ∀ t, s ≤ t → t.Interned → Q i a b t)
    (fun s => ⟨le_refl s, id⟩) (fun h k => ⟨le_trans h.1 k.1, k.2 ∘ h.2⟩)
    (fun hb hst t ht hti => hb t (le_trans hst.1 ht) hti) as r fun i a ha s hs => by
      obtain ⟨hle, hinterned, hQ⟩ := hstep i a ha s hs.1 (hs.2 h)
      exact ⟨⟨hle, fun _ => hinterned⟩, hQ⟩
  exact hall i b hb

/-! ## Tables of fields and of local names -/

namespace Class

theorem find?_replace (fs : List (String × TypeId)) (n : String) (ty : TypeId) (name : String) :
    ((fs.map fun f => if f.1 == n then (n, ty) else f).find? fun f => f.1 == name).map (·.2) =
      (fs.find? fun f => f.1 == name).map fun f => if n = name then ty else f.2 := by
  induction fs with
  | nil => rfl
  | cons f fs ih => by_cases hf : f.1 = n <;> by_cases hn : n = name <;> grind

theorem fieldType?_setField (c : Class) (n : String) (ty : TypeId) (name : String) :
    (c.setField n ty).fieldType? name = if n = name then some ty else c.fieldType? name := by
  unfold setField
  by_cases hsome : (c.fieldType? n).isSome = true
  · rw [if_pos hsome, fieldType?, find?_replace]
    by_cases hn : n = name
    · subst hn
      obtain ⟨old, hold⟩ := Option.isSome_iff_exists.mp hsome
      obtain ⟨f, hf, -⟩ := Option.map_eq_some_iff.mp hold
      simp [hf]
    · simp [hn, fieldType?]
  · rw [if_neg hsome, fieldType?, List.find?_append]
    by_cases hn : n = name
    · subst hn
      have hnone : c.fields.find? (fun f => f.1 == n) = none :=
        Option.map_eq_none_iff.mp (Option.not_isSome_iff_eq_none.mp hsome)
      simp [hnone]
    · simp [hn, fieldType?]

/-- Of several declarations of a field the last one counts. -/
theorem fieldType?_foldl_setField (vs : List VariableDecl) (typeOf : VariableDecl → TypeId)
    (c : Class) (name : String) :
    (vs.foldl (fun (c : Class) v => c.setField v.name (typeOf v)) c).fieldType? name =
      ((vs.reverse.find? fun v => v.name == name).map typeOf).or (c.fieldType? name) := by
  induction vs generalizing c with
  | nil => rfl
  | cons v vs ih =>
    rw [List.foldl_cons, ih, fieldType?_setField, List.reverse_cons, List.find?_append]
    cases vs.reverse.find? fun v => v.name == name with
    | some w => rfl
    | none => by_cases hv : v.name = name <;> simp [hv]

theorem mem_fields_setField {c : Class} {n : String} {ty : TypeId} {f : String × TypeId}
    (hf : f ∈ (c.setField n ty).fields) : f = (n, ty) ∨ f ∈ c.fields := by
  unfold setField at hf
  split at hf
  · obtain ⟨g, hg, rfl⟩ := List.mem_map.mp hf
    split
    · exact .inl rfl
    · exact .inr hg
  · rcases List.mem_append.mp hf with hf | hf
    · exact .inr hf
    · exact .inl (List.mem_singleton.mp hf)

theorem mem_fields_foldl_setField {vs : List VariableDecl} (typeOf : VariableDecl → TypeId)
    {c : Class} {f : String × TypeId}
    (hf : f ∈ (vs.foldl (fun (c : Class) v => c.setField v.name (typeOf v)) c).fields) :
    (∃ v ∈ vs, f = (v.name, typeOf v)) ∨ f ∈ c.fields := by
  induction vs generalizing c with
  | nil => exact .inr hf
  | cons v vs ih =>
    rcases ih hf with ⟨w, hw, rfl⟩ | hf
    · exact .inl ⟨w, List.mem_cons_of_mem _ hw, rfl⟩
    · exact (mem_fields_setField hf).imp_left fun hf => ⟨v, List.mem_cons_self, hf⟩

end Class

namespace Locals

theorem find?_bindKey (ls : Locals) (key : UInt64) (ty : TypeId) (k : UInt64) :
    (((bindKey key ty ls).find? fun l => l.1 == k).map (·.2)).getD [] =
      let types := ((ls.find? fun l => l.1 == k).map (·.2)).getD []
      if key = k then Ordered.insert ty types else types := by
  induction ls with
  | nil => by_cases hk : key = k <;> simp [bindKey, hk, Ordered.insert]
  | cons l ls ih =>
    rw [bindKey]
    by_cases hl : l.1 = key <;> by_cases hk : l.1 = k <;> grind

theorem typesOf_eq (ls : Locals) (name : String) :
    ls.typesOf name = ((ls.find? fun l => l.1 == fingerprint name).map (·.2)).getD [] := by
  rw [typesOf]
  cases ls.find? fun l => l.1 == fingerprint name <;> rfl

theorem mem_typesOf_bind (ls : Locals) (n : String) (ty : TypeId) {name : String} {x : TypeId} :
    x ∈ (ls.bind n ty).typesOf name ↔
      x ∈ ls.typesOf name ∨ fingerprint n = fingerprint name ∧ ty = x := by
  rw [typesOf_eq, typesOf_eq, bind]
  generalize fingerprint n = key
  generalize fingerprint name = k
  rw [find?_bindKey]
  by_cases hk : key = k
  · simp only [hk, if_true, Ordered.mem_insert]
    grind
  · simp [hk]

/-- A local name has the types of all its declarations. -/
theorem mem_typesOf_foldl_bind (vs : List VariableDecl) (typeOf : VariableDecl → TypeId)
    (ls : Locals) {name : String} {x : TypeId} :
    x ∈ (vs.foldl (fun (ls : Locals) v => ls.bind v.name (typeOf v)) ls).typesOf name ↔
      x ∈ ls.typesOf name ∨
        ∃ v ∈ vs, fingerprint v.name = fingerprint name ∧ typeOf v = x := by
  induction vs generalizing ls with
  | nil => simp
  | cons v vs ih =>
    rw [List.foldl_cons, ih, mem_typesOf_bind, or_assoc]
    simp only [List.mem_cons, exists_eq_or_imp]

end Locals

/-- A function without its call sites. -/
def Function.signature (fn : Function) : Function := { fn with calls := [], isRunnable := false }

namespace Model

variable {m : Model} {r : Registry}

/-! ## Stored types -/

/-- The type of a text in a registry that holds it. -/
def typeIn (m : Model) (r : Registry) (scope : ClassId) (methodParams : List String)
    (text : String) : TypeId :=
  (m.resolveText scope methodParams text r).1

/-- A registry that holds the type of a text. -/
def Settled (m : Model) (r : Registry) (scope : ClassId) (methodParams : List String)
    (text : String) : Prop :=
  (m.resolveText scope methodParams text r).2 = r

theorem Settled.type {scope : ClassId} {methodParams : List String} {text : String}
    (h : m.Settled r scope methodParams text) (hready : m.Ready r) :
    r.Covers (m.typeIn r scope methodParams text) ∧
      r.tree (m.typeIn r scope methodParams text) = m.textTree scope methodParams text := by
  have hmade := makes_resolveText scope methodParams text hready
  have hsame : (m.resolveText scope methodParams text r).2 = r := h
  have hcovers := hmade.covers
  have htree := hmade.tree
  rw [hsame] at hcovers htree
  exact ⟨hcovers, htree⟩

/-- Where names mean the same, texts have the same types. -/
theorem SameNames.resolveText {m' : Model} (h : m.SameNames m') (hready : m.Ready r)
    (hready' : m'.Ready r) {scope : ClassId} {methodParams : List String} {text : String}
    (hsettled : m.Settled r scope methodParams text) :
    m'.resolveText scope methodParams text r = m.resolveText scope methodParams text r := by
  obtain ⟨hcovers, htree⟩ := hsettled.type hready
  have hmade := makes_resolveText scope methodParams text hready'
  rw [h.textTree, ← htree] at hmade
  rw [hmade.again hready.interned hcovers]
  exact Prod.ext rfl (Eq.symm hsettled)

/-- Variables that have been resolved have the types of their texts in every later registry. -/
theorem resolveVariables_settled {scope : ClassId} {methodParams : List String}
    (vs : List VariableDecl) (h : m.Ready r) {t : Registry}
    (ht : (m.resolveVariables scope methodParams vs r).2 ≤ t) (hti : t.Interned) :
    (m.resolveVariables scope methodParams vs r).1 =
        vs.map (fun v => (v.name, m.typeIn t scope methodParams v.type)) ∧
      ∀ v ∈ vs, m.Settled t scope methodParams v.type := by
  have hlater := (resolves_resolveVariables scope methodParams vs h).again t ht hti
  obtain ⟨hmap, hsame⟩ := resolveVariables_again scope methodParams vs h ht hti
  rw [hmap] at hlater
  exact ⟨(congrArg Prod.fst hlater).symm, hsame⟩

theorem resolveReturn_settled {f : Function} (h : m.Ready r) {t : Registry}
    (ht : (m.resolveReturn f r).2 ≤ t) (hti : t.Interned) :
    (∀ text, f.decl.returns = some text → m.Settled t f.cls f.decl.typeParams text ∧
      (m.resolveReturn f r).1 = m.typeIn t f.cls f.decl.typeParams text) ∧
    (f.decl.returns = none → ∀ {cls}, m.class? f.cls = some cls →
      (m.resolveReturn f r).1 = cls.type) := by
  constructor
  · intro text htext
    have heq : m.resolveReturn f = m.resolveText f.cls f.decl.typeParams text := by
      funext r
      rw [resolveReturn, htext]
    have hlater := (resolves_resolveReturn h f).again t ht hti
    rw [heq] at hlater ⊢
    exact ⟨by rw [Settled, hlater], by rw [typeIn, hlater]⟩
  · intro hnone cls hcls
    rw [resolveReturn, hnone, hcls]

/-- The fields of a class have the types of their texts. -/
structure FieldTypes (m : Model) (r : Registry) (c : ClassId) (cls : Class) : Prop where
  fieldType? : ∀ name, cls.fieldType? name =
    (cls.decl.fields.reverse.find? fun v => v.name == name).map fun v => m.typeIn r c [] v.type
  fields : ∀ f ∈ cls.fields, ∃ v ∈ cls.decl.fields, f = (v.name, m.typeIn r c [] v.type)
  texts : ∀ v ∈ cls.decl.fields, m.Settled r c [] v.type

/-- The parameters, the local variables and the result of a function have the types of their
texts. -/
structure Signature (m : Model) (r : Registry) (fn : Function) : Prop where
  params : fn.params =
    fn.decl.params.map fun v => m.typeIn r fn.cls fn.decl.typeParams v.type
  locals : ∀ {name ty}, ty ∈ fn.locals.typesOf name ↔ ∃ v ∈ fn.decl.params ++ fn.decl.locals,
    fingerprint v.name = fingerprint name ∧ m.typeIn r fn.cls fn.decl.typeParams v.type = ty
  texts : ∀ v ∈ fn.decl.params ++ fn.decl.locals,
    m.Settled r fn.cls fn.decl.typeParams v.type
  returnType : ∀ text, fn.decl.returns = some text →
    m.Settled r fn.cls fn.decl.typeParams text ∧
      fn.returnType = m.typeIn r fn.cls fn.decl.typeParams text
  constructor : fn.decl.returns = none → ∀ {cls}, m.class? fn.cls = some cls →
    fn.returnType = cls.type

theorem fieldTypes_signed (h : m.Ready r) (hfields : ∀ {c cls}, m.class? c = some cls →
    cls.fields = []) {c : ClassId} {cls : Class} (hc : (m.signed r).1.class? c = some cls)
    {t : Registry} (ht : (m.signed r).2 ≤ t) (hti : t.Interned) : m.FieldTypes t c cls := by
  obtain ⟨before, hbefore, hall⟩ := settled_mapIdxThrough (f := resolveFields m)
    (Q := fun c before cls t => cls = before.decl.fields.foldl
        (fun (cls : Class) v => cls.setField v.name (m.typeIn t c [] v.type)) before ∧
      ∀ v ∈ before.decl.fields, m.Settled t c [] v.type)
    m.classes h.interned (fun id before _ s hs hsi => by
      have hready := h.mono hs hsi
      have hadds := (resolves_resolveFields hready id before).adds
      refine ⟨hadds.le, hadds.interned, fun t ht hti => ?_⟩
      obtain ⟨hfields, hsettled⟩ := resolveVariables_settled before.decl.fields hready ht hti
      refine ⟨?_, hsettled⟩
      show List.foldl _ before (m.resolveVariables id [] before.decl.fields s).1 = _
      rw [hfields, List.foldl_map]) hc
  have hle := (adds_signatures (h.mono (adds_fields h).le (adds_fields h).interned)).le
  obtain ⟨hcls, htexts⟩ := hall t (le_trans hle ht) hti
  have hdecl : cls.decl = before.decl := by
    obtain ⟨after, hafter, -, -, -, hdecl⟩ := (sameOutline_signed m r).class? hc
    cases hafter.symm.trans hbefore
    exact hdecl
  have hempty : before.fields = [] := hfields hbefore
  refine ⟨fun name => ?_, fun f hf => ?_, hdecl ▸ htexts⟩
  · rw [hdecl, hcls, Class.fieldType?_foldl_setField before.decl.fields
      (fun v => m.typeIn t c [] v.type)]
    simp [Class.fieldType?, hempty]
  · rw [hcls] at hf
    rcases Class.mem_fields_foldl_setField (fun v => m.typeIn t c [] v.type) hf with
      hf | hf
    · exact hdecl ▸ hf
    · simp [hempty] at hf

theorem signature_signed (h : m.Ready r) (hlocals : ∀ {f fn}, m.function? f = some fn →
    fn.locals = []) {f : FunctionId} {fn : Function} (hf : (m.signed r).1.function? f = some fn)
    {t : Registry} (ht : (m.signed r).2 ≤ t) (hti : t.Interned) : m.Signature t fn := by
  have hfields := adds_fields h
  have hready := h.mono hfields.le hfields.interned
  suffices hstep : ∀ (i : Nat) before, m.functions[i]? = some before → ∀ s,
      (mapIdxThrough (resolveFields m) m.classes r).2 ≤ s → s.Interned →
      s ≤ (resolveSignature m before s).2 ∧ (resolveSignature m before s).2.Interned ∧
        ∀ t, (resolveSignature m before s).2 ≤ t → t.Interned →
          m.Signature t (resolveSignature m before s).1 by
    obtain ⟨-, -, hall⟩ := settled_mapIdxThrough (f := fun _ => resolveSignature m)
      (Q := fun _ _ fn t => m.Signature t fn) m.functions hfields.interned hstep hf
    exact hall t ht hti
  intro i before hbefore s hs hsi
  have hs := hready.mono hs hsi
  have hparams := resolves_resolveVariables before.cls before.decl.typeParams before.decl.params hs
  have hp := hs.mono hparams.adds.le hparams.adds.interned
  have hlocals' := resolves_resolveVariables before.cls before.decl.typeParams before.decl.locals hp
  have hl := hp.mono hlocals'.adds.le hlocals'.adds.interned
  have hreturn := resolves_resolveReturn hl before
  refine ⟨le_trans hparams.adds.le (le_trans hlocals'.adds.le hreturn.adds.le),
    hreturn.adds.interned, fun t ht hti => ?_⟩
  have htl := le_trans hreturn.adds.le ht
  obtain ⟨hps, hpt⟩ := resolveVariables_settled _ hs (le_trans hlocals'.adds.le htl) hti
  obtain ⟨hls, hlt⟩ := resolveVariables_settled _ hp htl hti
  obtain ⟨hrs, hconstructor⟩ := resolveReturn_settled hl ht hti
  refine ⟨?_, ?_, List.forall_mem_append.mpr ⟨hpt, hlt⟩, hrs, hconstructor⟩
  · show (m.resolveVariables _ _ before.decl.params s).1.map (·.2) = _
    rw [hps, List.map_map]
    rfl
  · intro name ty
    have heq : (resolveSignature m before s).1.locals =
        (before.decl.params ++ before.decl.locals).foldl (fun (ls : Locals) v =>
          ls.bind v.name (m.typeIn t before.cls before.decl.typeParams v.type)) [] := by
      show List.foldl _ before.locals
        ((m.resolveVariables before.cls before.decl.typeParams before.decl.params s).1 ++
          (m.resolveVariables before.cls before.decl.typeParams before.decl.locals
            (m.resolveVariables before.cls before.decl.typeParams before.decl.params s).2).1) = _
      rw [hps, hls, ← List.map_append, List.foldl_map, hlocals hbefore]
    rw [heq, Locals.mem_typesOf_foldl_bind _
      (fun v => m.typeIn t before.cls before.decl.typeParams v.type)]
    simp [Locals.typesOf, resolveSignature]

/-! ## Finished models -/

section

variable {m' : Model}

theorem SameNames.typeIn (h : m.SameNames m') (hready : m.Ready r) (hready' : m'.Ready r)
    {scope : ClassId} {methodParams : List String} {text : String}
    (hsettled : m.Settled r scope methodParams text) :
    m'.typeIn r scope methodParams text = m.typeIn r scope methodParams text :=
  congrArg Prod.fst (h.resolveText hready hready' hsettled)

theorem SameNames.settled (h : m.SameNames m') (hready : m.Ready r) (hready' : m'.Ready r)
    {scope : ClassId} {methodParams : List String} {text : String}
    (hsettled : m.Settled r scope methodParams text) : m'.Settled r scope methodParams text := by
  rw [Settled, h.resolveText hready hready' hsettled]
  exact hsettled

theorem FieldTypes.congr {c : ClassId} {cls : Class} (h : m.FieldTypes r c cls)
    (hnames : m.SameNames m') (hready : m.Ready r) (hready' : m'.Ready r) :
    m'.FieldTypes r c cls := by
  have hsame : ∀ v ∈ cls.decl.fields, m'.typeIn r c [] v.type = m.typeIn r c [] v.type :=
    fun v hv => hnames.typeIn hready hready' (h.texts v hv)
  refine ⟨fun name => ?_, fun f hf => ?_, fun v hv => ?_⟩
  · rw [h.fieldType?]
    refine Option.map_congr fun v hv => (hsame v ?_).symm
    exact List.mem_reverse.mp (List.mem_of_find?_eq_some hv)
  · obtain ⟨v, hv, rfl⟩ := h.fields f hf
    exact ⟨v, hv, by rw [hsame v hv]⟩
  · exact hnames.settled hready hready' (h.texts v hv)

theorem Signature.congr {fn fn' : Function} (h : m.Signature r fn)
    (hnames : m.SameNames m') (hready : m.Ready r) (hready' : m'.Ready r)
    (htypes : ∀ c, (m'.class? c).map (·.type) = (m.class? c).map (·.type))
    (hfn : fn'.signature = fn.signature) : m'.Signature r fn' := by
  simp only [Function.signature, Function.mk.injEq] at hfn
  obtain ⟨hdecl, hcls, -, hparams, hreturn, hlocals, -⟩ := hfn
  have hsame : ∀ v ∈ fn.decl.params ++ fn.decl.locals,
      m'.typeIn r fn.cls fn.decl.typeParams v.type = m.typeIn r fn.cls fn.decl.typeParams v.type :=
    fun v hv => hnames.typeIn hready hready' (h.texts v hv)
  refine ⟨?_, fun {name ty} => ?_, ?_, fun text htext => ?_, fun hnone {cls} hclass => ?_⟩
  · rw [hparams, hdecl, hcls, h.params]
    exact List.map_inj_left.mpr fun v hv => (hsame v (List.mem_append_left _ hv)).symm
  · rw [hlocals, hdecl, hcls, h.locals]
    refine exists_congr fun v => and_congr_right fun hv => ?_
    rw [hsame v hv]
  · rw [hdecl, hcls]
    exact fun v hv => hnames.settled hready hready' (h.texts v hv)
  · rw [hdecl] at htext
    obtain ⟨hsettled, heq⟩ := h.returnType text htext
    rw [hreturn, hdecl, hcls, heq]
    exact ⟨hnames.settled hready hready' hsettled, (hnames.typeIn hready hready' hsettled).symm⟩
  · rw [hdecl] at hnone
    rw [hcls] at hclass
    have htype := htypes fn.cls
    rw [hclass] at htype
    obtain ⟨before, hbefore, hsameType⟩ := Option.map_eq_some_iff.mp htype.symm
    rw [hreturn, h.constructor hnone hbefore, hsameType]

end

theorem instantiateMembers_congr (m m' : Model) (hc : ∀ c, m'.class? c = m.class? c)
    (hf : ∀ f, (m'.function? f).map (·.returnType) = (m.function? f).map (·.returnType))
    (r : Registry) : instantiateMembers m' r = instantiateMembers m r := by
  simp only [instantiateMembers, memberTypes, hc, hf]

/-- A finished model, what it was before types, and its registry when all texts were resolved. -/
structure Finished (units : List SourceUnit) (bare m : Model) (written : Registry) : Prop where
  underlies : Bare units bare m
  adds : Adds .initial written bare.programTrees
  ready : m.Ready written
  registry : m.registry = instantiateMembers m written
  members : ∀ {c cls}, m.class? c = some cls → ∀ ty ∈ memberTypes m cls, written.Covers ty
  classes : ∀ {t : Registry}, written ≤ t → t.Interned →
    ∀ {c cls}, m.class? c = some cls → m.FieldTypes t c cls
  functions : ∀ {t : Registry}, written ≤ t → t.Interned →
    ∀ {f fn}, m.function? f = some fn → m.Signature t fn

variable {units : List SourceUnit}

/-- Locks and entry points change nothing about signatures. -/
theorem signature_function?_finished (m : Model) (r : Registry) (f : FunctionId) :
    (((m.withTypes r).withLocks.withEntryPoints).function? f).map Function.signature =
      ((m.signed r).1.function? f).map Function.signature := by
  have hcalls : ((m.signed r).1.withCalls (m.signed r).2).functions.map Function.signature =
      (m.signed r).1.functions.map Function.signature :=
    map_mapIdxThrough (f := fun _ => resolveCalls (m.signed r).1) (fun _ _ _ => rfl) _ _
  have hentry : ∀ m : Model, m.withLocks.withEntryPoints.functions.map Function.signature =
      m.functions.map Function.signature := by
    intro m
    simp [withEntryPoints, withLocks, Function.signature]
  have hall := (hentry (m.withTypes r)).trans hcalls
  simpa [function?] using congrArg (·[f]?) hall

theorem registry_finished (m : Model) (r : Registry) :
    ((m.withTypes r).withLocks.withEntryPoints).registry =
      instantiateMembers ((m.withTypes r).withLocks.withEntryPoints) (m.writtenRegistry r) := by
  have hreturns : ∀ f, (((m.withTypes r).withLocks.withEntryPoints).function? f).map
      (·.returnType) = ((m.withTypes r).function? f).map (·.returnType) := by
    intro f
    generalize m.withTypes r = typed
    simp only [function?, withEntryPoints, withLocks, Array.getElem?_map, Option.map_map]
    rfl
  rw [instantiateMembers_congr (m.withTypes r)
    ((m.withTypes r).withLocks.withEntryPoints) (fun _ => rfl) hreturns]
  rfl

theorem sameOutline_finished (m : Model) (r : Registry) :
    m.SameOutline ((m.withTypes r).withLocks.withEntryPoints) := by
  have htyped : m.SameOutline (m.withTypes r) :=
    (sameOutline_signed m r).trans (sameOutline_withCalls _ _)
  have hlocked : ∀ m : Model, m.SameOutline m.withLocks := fun _ => ⟨rfl, rfl⟩
  exact (htyped.trans (hlocked _)).trans (sameOutline_withEntryPoints _)

theorem type_class?_signed (m : Model) (r : Registry) (c : ClassId) :
    ((m.signed r).1.class? c).map (·.type) = (m.class? c).map (·.type) := by
  have hall : (m.signed r).1.classes.map (·.type) = m.classes.map (·.type) :=
    map_mapIdxThrough (f := resolveFields m) (g := (·.type)) (fun id c s => by
      obtain ⟨fields, heq, -⟩ := Class.foldl_setField (P := fun _ => True)
        (m.resolveVariables id [] c.decl.fields s).1 (by simp) c (by simp)
      rw [show (resolveFields m id c s).1 = { c with fields } from heq]) _ _
  simpa [class?] using congrArg (·[c]?) hall

/-- The types of fields and of results are known before call sites are resolved. -/
theorem covers_memberTypes_finished {m : Model} {r t : Registry} (h : m.Prepared r)
    (ht : (m.signed r).2 ≤ t) {c : ClassId} {cls : Class}
    (hc : ((m.withTypes r).withLocks.withEntryPoints).class? c = some cls) {ty : TypeId}
    (hty : ty ∈ memberTypes ((m.withTypes r).withLocks.withEntryPoints) cls) : t.Covers ty := by
  have hsigned := h.signed
  rcases List.mem_append.mp hty with hty | hty
  · obtain ⟨f, hf, rfl⟩ := List.mem_map.mp hty
    exact (((hsigned.classes hc).fields f hf).mono ht).covers
  · obtain ⟨f, -, hty⟩ := List.mem_filterMap.mp hty
    obtain ⟨fn, hfn, rfl⟩ := Option.map_eq_some_iff.mp hty
    have hsame := signature_function?_finished m r f
    rw [hfn] at hsame
    obtain ⟨before, hbefore, heq⟩ := Option.map_eq_some_iff.mp hsame.symm
    rw [show fn.returnType = before.returnType from (congrArg Function.returnType heq).symm]
    exact ((hsigned.functions hbefore).returnType.mono ht).covers

theorem exists_finished (h : ofUnits units = .ok m) :
    ∃ bare written, Finished units bare m written := by
  obtain ⟨ancestors, hflatten, hm⟩ := exists_linked h
  have hbare := bare_of_flatten h hflatten hm
  have houtline := sameOutline_registered_linked hflatten
  have hready := (ready_registered units).congr houtline
  have hprepared : (linked units ancestors).Prepared (registered units).2 :=
    (prepared_registered units).withHierarchy ancestors
  have hwritten := adds_writtenRegistry hready
  have hadds : Adds .initial ((linked units ancestors).writtenRegistry (registered units).2)
      ((declared units).withHierarchy ancestors).programTrees := by
    rw [← (sameNames_linked units ancestors).programTrees rfl, programTrees,
      ((sameOutline_registered units).trans houtline).ownTrees]
    exact (adds_registered units).trans hwritten
  -- what follows holds of any linked declarations
  generalize linked units ancestors = linked, (registered units).2 = r at *
  subst hm
  have hnames := sameNames_finished linked r
  have hlater : ∀ {t}, linked.writtenRegistry r ≤ t → t.Interned → linked.Ready t ∧
      ((linked.withTypes r).withLocks.withEntryPoints).Ready t := by
    intro t ht hti
    have hlinked := hready.mono (le_trans hwritten.le ht) hti
    exact ⟨hlinked, hlinked.congr (sameOutline_finished linked r)⟩
  have hsigned := (adds_calls hready).le
  refine ⟨_, _, hbare, hadds, (hlater (le_refl _) hwritten.interned).2,
    registry_finished linked r, fun hc _ => covers_memberTypes_finished hprepared hsigned hc,
    fun {t} ht hti {c cls} hc => ?_, fun {t} ht hti {f fn} hf => ?_⟩
  · obtain ⟨hlinked, hfinished⟩ := hlater ht hti
    refine (fieldTypes_signed hready (fun hc => (hprepared.classes hc).2) hc
      (le_trans hsigned ht) hti).congr hnames hlinked hfinished
  · obtain ⟨hlinked, hfinished⟩ := hlater ht hti
    have hsame := signature_function?_finished linked r f
    rw [hf] at hsame
    obtain ⟨before, hbefore, heq⟩ := Option.map_eq_some_iff.mp hsame.symm
    refine (signature_signed hready hprepared.functions hbefore (le_trans hsigned ht) hti).congr
      hnames hlinked hfinished (fun c => type_class?_signed linked r c) heq.symm

/-- A program whose hierarchy is known has a finished model above its declarations. -/
theorem exists_finished_of_flatten {ancestors : List (List ClassId)}
    (h : (declared units).namedSupers.flatten = .ok ancestors) :
    ∃ m written, ofUnits units = .ok m ∧
      Finished units ((declared units).withHierarchy ancestors) m written := by
  obtain ⟨m, hm, -⟩ := (exists_ofUnits_iff units).mpr ⟨ancestors, h⟩
  obtain ⟨bare, written, hfinished⟩ := exists_finished hm
  have hbare : bare = (declared units).withHierarchy ancestors := by
    have hlink := hfinished.underlies.link
    rw [linkSupertypes_of_flatten h] at hlink
    exact (Except.ok.inj hlink).symm
  exact ⟨m, written, hm, hbare ▸ hfinished⟩

end Model

end Interlock.Program
