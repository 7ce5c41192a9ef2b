import Interlock.Program.Resolution
import Interlock.Proofs.Program.Lookup
import Interlock.Proofs.Types.Registry

/-! Every written type becomes a known one. Reading a type only adds to the registry, and what it
gives is registered there or unknown; so it is with the types of fields, parameters, local
variables and results, and with the types that are written inside expressions. -/

namespace Interlock.Program

open Interlock.Types Interlock.Types.Registry

/-- A type that was made of a registry: the registry has grown, and knows the type. -/
structure Registers (r : Registry) (made : TypeId × Registry) : Prop where
  le : r ≤ made.2
  knows : made.2.Knows made.1

namespace Registers

variable {r : Registry}

theorem same {ty : TypeId} (h : r.Knows ty) : Registers r (ty, r) := ⟨le_refl r, h⟩

theorem register (r : Registry) (key : TypeKey) : Registers r (r.register key) :=
  ⟨le_register r key, knows_register r key⟩

theorem after {t : Registry} {made : TypeId × Registry} (h : r ≤ t) (hm : Registers t made) :
    Registers r made :=
  ⟨le_trans h hm.le, hm.knows⟩

end Registers

namespace Model

variable (m : Model) {r : Registry}

/-! ## Written types -/

theorem registers_arrayType (dims : Nat) {ty : TypeId} (h : r.Knows ty) :
    Registers r (arrayType dims ty r) := by
  induction dims with
  | zero => exact .same h
  | succ dims ih => exact .after ih.le (.register _ _)

theorem knows_baseType (h : initial ≤ r) (scope : ClassId) (t : TypeExpr) :
    r.Knows (m.baseType r scope t) := by
  unfold baseType
  dsimp only
  split
  · exact knows_named? h _
  · split
    · exact knows_primitive h _
    · exact knows_primitive h _
    · split
      · exact knows_find? r _
      · exact knows_named? h _

theorem knows_paramIn? {c : ClassId} {name : String} {ty : TypeId}
    (h : m.paramIn? r c name = some ty) : r.Knows ty := by
  obtain ⟨scope, -, hscope⟩ := List.exists_of_findSome?_eq_some h
  obtain ⟨cls, -, hrest⟩ := Option.bind_eq_some_iff.mp hscope
  obtain ⟨index, -, hfind⟩ := Option.bind_eq_some_iff.mp hrest
  exact knows_of_key? (key?_of_find? hfind)

theorem knows_specialType? {scope : ClassId} {methodParams : List String} {name : String}
    {generic : Bool} {ty : TypeId}
    (h : m.specialType? r scope methodParams name generic = some ty) : r.Knows ty := by
  unfold specialType? at h
  split at h
  · cases h
    trivial
  · split at h
    · cases h
    · split at h
      · cases h
        trivial
      · exact m.knows_paramIn? h

section

variable (scope : ClassId) (methodParams : List String)

mutual

theorem registers_resolveType (t : TypeExpr) {r : Registry} (h : initial ≤ r) :
    Registers r (m.resolveType scope methodParams t r) := by
  obtain ⟨name, args, dims⟩ := t
  rw [resolveType]
  split
  · next hspecial => exact registers_arrayType dims (m.knows_specialType? hspecial)
  · have hbase := m.knows_baseType h scope (.mk name args dims)
    cases args with
    | nil => exact registers_arrayType dims hbase
    | cons arg rest =>
      have hfirst := registers_resolveType arg h
      have hrest := le_resolveTypes rest (le_trans h hfirst.le)
      refine .after (le_trans hfirst.le hrest) ?_
      have hcompound := le_register
        (m.resolveTypes scope methodParams rest (m.resolveType scope methodParams arg r).2).2
      exact .after (hcompound _) (registers_arrayType dims (knows_register _ _))

theorem le_resolveTypes (ts : List TypeExpr) {r : Registry} (h : initial ≤ r) :
    r ≤ (m.resolveTypes scope methodParams ts r).2 := by
  cases ts with
  | nil => exact le_refl r
  | cons t ts =>
    rw [resolveTypes]
    have hfirst := registers_resolveType t h
    exact le_trans hfirst.le (le_resolveTypes ts (le_trans h hfirst.le))

end

theorem registers_resolveText (text : String) (h : initial ≤ r) :
    Registers r (m.resolveText scope methodParams text r) := by
  unfold resolveText
  split
  · exact m.registers_resolveType scope methodParams _ h
  · exact .same trivial

/-! ## Variables -/

theorem resolveVariables_spec (vs : List VariableDecl) (h : initial ≤ r) :
    r ≤ (m.resolveVariables scope methodParams vs r).2 ∧
      ∀ v ∈ (m.resolveVariables scope methodParams vs r).1,
        (m.resolveVariables scope methodParams vs r).2.Knows v.2 := by
  obtain ⟨hle, hall⟩ := mapThrough_spec (R := (· ≤ ·)) (P := fun _ v r => r.Knows v.2)
    (f := fun (v : VariableDecl) r =>
      let made := m.resolveText scope methodParams v.type r
      ((v.name, made.1), made.2))
    le_refl le_trans Knows.mono vs r fun v _ s hs => by
      have hv := m.registers_resolveText scope methodParams v.type (le_trans h hs)
      exact ⟨hv.le, hv.knows⟩
  refine ⟨hle, fun v hv => ?_⟩
  obtain ⟨i, hi⟩ := List.mem_iff_getElem?.mp hv
  obtain ⟨-, -, hknows⟩ := hall i v hi
  exact hknows

end

end Model

/-! ## Types inside expressions -/

namespace Expr

variable {σ : Type} (step : TypeRef → σ → TypeRef × σ)

mutual

/-- Replacing the types of an expression is replacing the listed types one after the other. -/
theorem typeRefs_mapTypes (e : Expr) (s : σ) :
    mapThrough step e.typeRefs s = ((e.mapTypes step s).1.typeRefs, (e.mapTypes step s).2) := by
  cases e with
  | literal kind => rfl
  | ident name => rfl
  | this => rfl
  | super => rfl
  | classLiteral ty => rfl
  | new ty args => simp [mapTypes, typeRefs, mapThrough, typeRefsAll_mapTypesAll args]
  | newArray ty elements => simp [mapTypes, typeRefs, mapThrough, typeRefsAll_mapTypesAll elements]
  | cast ty operand => simp [mapTypes, typeRefs, mapThrough, typeRefs_mapTypes operand]
  | paren inner => simp [mapTypes, typeRefs, typeRefs_mapTypes inner]
  | index target indices =>
    simp [mapTypes, typeRefs, mapThrough_append, typeRefs_mapTypes target,
      typeRefsAll_mapTypesAll indices]
  | member target name => simp [mapTypes, typeRefs, typeRefs_mapTypes target]
  | call name args => simp [mapTypes, typeRefs, typeRefsAll_mapTypesAll args]
  | callOn target name args =>
    simp [mapTypes, typeRefs, mapThrough_append, typeRefs_mapTypes target,
      typeRefsAll_mapTypesAll args]
  | operation kind operands => simp [mapTypes, typeRefs, typeRefsAll_mapTypesAll operands]
  | other parts => simp [mapTypes, typeRefs, typeRefsAll_mapTypesAll parts]

theorem typeRefsAll_mapTypesAll (es : List Expr) (s : σ) :
    mapThrough step (typeRefsAll es) s =
      (typeRefsAll (mapTypesAll step es s).1, (mapTypesAll step es s).2) := by
  cases es with
  | nil => rfl
  | cons e es =>
    simp [mapTypesAll, typeRefsAll, mapThrough_append, typeRefs_mapTypes e,
      typeRefsAll_mapTypesAll es]

end

end Expr

/-- A type inside an expression that has been looked up. -/
def TypeRef.KnownIn (r : Registry) (t : TypeRef) : Prop := ∃ ty, t.resolved = some ty ∧ r.Knows ty

theorem TypeRef.KnownIn.mono {r r' : Registry} {t : TypeRef} (h : t.KnownIn r) (hle : r ≤ r') :
    t.KnownIn r' := by
  obtain ⟨ty, hty, hknows⟩ := h
  exact ⟨ty, hty, hknows.mono hle⟩

/-! ## Classes and functions -/

/-- All types of a class are known, and its own type stands for it. -/
structure Class.TypedIn (r : Registry) (id : ClassId) (c : Class) : Prop where
  type : r.key? c.type = some (.declared id)
  fields : ∀ v ∈ c.fields, r.Knows v.2

/-- All types of the signature and of the local names of a function are known. -/
structure Function.TypedIn (r : Registry) (f : Function) : Prop where
  arity : f.params.length = f.decl.params.length
  params : ∀ ty ∈ f.params, r.Knows ty
  returnType : r.Knows f.returnType
  locals : ∀ l ∈ f.locals, ∀ ty ∈ l.2, r.Knows ty

/-- All types that the call sites of a function write are known, at any depth. -/
def Function.CallsTypedIn (r : Registry) (f : Function) : Prop :=
  ∀ e ∈ f.calls, ∀ t ∈ e.typeRefs, t.KnownIn r

section

variable {r r' : Registry}

theorem Class.TypedIn.mono {id : ClassId} {c : Class} (h : c.TypedIn r id) (hle : r ≤ r') :
    c.TypedIn r' id :=
  ⟨key?_mono h.type hle, fun v hv => (h.fields v hv).mono hle⟩

theorem Function.TypedIn.mono {f : Function} (h : f.TypedIn r) (hle : r ≤ r') : f.TypedIn r' :=
  ⟨h.arity, fun ty hty => (h.params ty hty).mono hle, h.returnType.mono hle,
    fun l hl ty hty => (h.locals l hl ty hty).mono hle⟩

theorem Function.CallsTypedIn.mono {f : Function} (h : f.CallsTypedIn r) (hle : r ≤ r') :
    f.CallsTypedIn r' :=
  fun e he t ht => (h e he t ht).mono hle

end

theorem Class.setField_fields {P : TypeId → Prop} (name : String) {ty : TypeId} (hty : P ty)
    (c : Class) (hc : ∀ v ∈ c.fields, P v.2) :
    ∃ fields, c.setField name ty = { c with fields } ∧ ∀ v ∈ fields, P v.2 := by
  unfold Class.setField
  split
  · refine ⟨_, rfl, fun v hv => ?_⟩
    obtain ⟨w, hw, rfl⟩ := List.mem_map.mp hv
    split
    · exact hty
    · exact hc w hw
  · refine ⟨_, rfl, fun v hv => ?_⟩
    rcases List.mem_append.mp hv with hv | hv
    · exact hc v hv
    · rw [List.mem_singleton.mp hv]
      exact hty

theorem Class.foldl_setField {P : TypeId → Prop} (vs : List (String × TypeId))
    (hvs : ∀ v ∈ vs, P v.2) (c : Class) (hc : ∀ v ∈ c.fields, P v.2) :
    ∃ fields, vs.foldl (fun c f => c.setField f.1 f.2) c = { c with fields } ∧
      ∀ v ∈ fields, P v.2 := by
  induction vs generalizing c with
  | nil => exact ⟨c.fields, rfl, hc⟩
  | cons v vs ih =>
    obtain ⟨fields, heq, hfields⟩ := c.setField_fields v.1 (hvs v List.mem_cons_self) hc
    obtain ⟨all, heq', hall⟩ :=
      ih (fun w hw => hvs w (List.mem_cons_of_mem _ hw)) { c with fields } hfields
    exact ⟨all, by rw [List.foldl_cons, heq, heq'], hall⟩

theorem Locals.forall_bindKey {P : TypeId → Prop} {key : UInt64} {ty : TypeId} (hty : P ty)
    {ls : Locals} (hls : ∀ l ∈ ls, ∀ t ∈ l.2, P t) :
    ∀ l ∈ Locals.bindKey key ty ls, ∀ t ∈ l.2, P t := by
  induction ls with
  | nil => simpa [Locals.bindKey] using hty
  | cons first ls ih =>
    have hrest : ∀ l ∈ ls, ∀ t ∈ l.2, P t := fun l hl => hls l (List.mem_cons_of_mem _ hl)
    rw [Locals.bindKey]
    split
    · intro l hl t ht
      rcases List.mem_cons.mp hl with rfl | hl
      · rcases Ordered.mem_insert.mp ht with rfl | ht
        · exact hty
        · exact hls first List.mem_cons_self t ht
      · exact hrest l hl t ht
    · intro l hl t ht
      rcases List.mem_cons.mp hl with rfl | hl
      · exact hls l List.mem_cons_self t ht
      · exact ih hrest l hl t ht

theorem Locals.forall_foldl_bind {P : TypeId → Prop} {vs : List (String × TypeId)}
    (hvs : ∀ v ∈ vs, P v.2) {ls : Locals} (hls : ∀ l ∈ ls, ∀ t ∈ l.2, P t) :
    ∀ l ∈ vs.foldl (fun ls v => ls.bind v.1 v.2) ls, ∀ t ∈ l.2, P t := by
  induction vs generalizing ls with
  | nil => exact hls
  | cons v vs ih =>
    exact ih (fun w hw => hvs w (List.mem_cons_of_mem _ hw))
      (Locals.forall_bindKey (hvs v List.mem_cons_self) hls)

/-! ## The steps -/

variable {r : Registry}

/-- A class gets a type of its own; nothing else but types is touched. -/
theorem registerClass_spec (id : ClassId) (c : Class) (r : Registry) :
    r ≤ (registerClass id c r).2 ∧
      (registerClass id c r).2.key? (registerClass id c r).1.type = some (.declared id) ∧
      ∃ type paramTypes, (registerClass id c r).1 = { c with type, paramTypes } := by
  have hparams : ∀ t : Registry, t ≤ (mapThrough (fun index (r : Registry) =>
      r.register (.param id index)) (List.range c.decl.typeParams.length) t).2 := fun t =>
    mapThrough_keeps (I := (t ≤ ·)) (fun _ s hs => le_trans hs (le_register s _)) _ (le_refl t)
  have hown := key?_register r (.declared id)
  exact ⟨le_trans (le_register r _) (hparams _), key?_mono hown (hparams _), _, _, rfl⟩

theorem resolveFields_spec (m : Model) (id : ClassId) {c : Class} (h : initial ≤ r)
    (hc : c.fields = []) :
    r ≤ (resolveFields m id c r).2 ∧ ∃ fields, (resolveFields m id c r).1 = { c with fields } ∧
      ∀ v ∈ fields, (resolveFields m id c r).2.Knows v.2 := by
  obtain ⟨hle, hall⟩ := m.resolveVariables_spec id [] c.decl.fields h
  exact ⟨hle, Class.foldl_setField _ hall c (by simp [hc])⟩

theorem registers_resolveReturn (m : Model) (f : Function) (h : initial ≤ r)
    (hm : ∀ c ∈ m.classes, r.Knows c.type) : Registers r (m.resolveReturn f r) := by
  unfold Model.resolveReturn
  split
  · exact m.registers_resolveText _ _ _ h
  · split
    · next c hc => exact .same (hm c (Array.mem_of_getElem? hc))
    · exact .same trivial

theorem resolveSignature_spec (m : Model) {f : Function} (h : initial ≤ r)
    (hm : ∀ c ∈ m.classes, r.Knows c.type) (hf : f.locals = []) :
    r ≤ (resolveSignature m f r).2 ∧
      (resolveSignature m f r).1.TypedIn (resolveSignature m f r).2 ∧
      ∃ params returnType locals,
        (resolveSignature m f r).1 = { f with params, returnType, locals } := by
  obtain ⟨hparams, hp⟩ := m.resolveVariables_spec f.cls f.decl.typeParams f.decl.params h
  obtain ⟨hlocals, hl⟩ := m.resolveVariables_spec f.cls f.decl.typeParams f.decl.locals
    (le_trans h hparams)
  have hbefore := le_trans hparams hlocals
  have hreturn := registers_resolveReturn m f (le_trans h hbefore)
    fun c hc => (hm c hc).mono hbefore
  refine ⟨le_trans hbefore hreturn.le, ⟨?_, fun ty hty => ?_, hreturn.knows, ?_⟩, _, _, _, rfl⟩
  · simp [resolveSignature, Model.resolveVariables]
  · obtain ⟨v, hv, rfl⟩ := List.mem_map.mp hty
    exact (hp v hv).mono (le_trans hlocals hreturn.le)
  · refine Locals.forall_foldl_bind (fun v hv => ?_) (by simp [hf])
    rcases List.mem_append.mp hv with hv | hv
    · exact (hp v hv).mono (le_trans hlocals hreturn.le)
    · exact (hl v hv).mono hreturn.le

theorem resolveCalls_spec (m : Model) (f : Function) (h : initial ≤ r) :
    r ≤ (resolveCalls m f r).2 ∧
      (resolveCalls m f r).1.CallsTypedIn (resolveCalls m f r).2 ∧
      ∃ calls, (resolveCalls m f r).1 = { f with calls } := by
  let step (t : TypeRef) (r : Registry) : TypeRef × Registry :=
    let made := m.resolveText f.cls f.decl.typeParams t.text r
    ({ t with resolved := some made.1 }, made.2)
  -- one expression: its types are looked up in the order in which they are listed
  have hexpr : ∀ (e : Expr) (s : Registry), initial ≤ s → s ≤ (e.mapTypes step s).2 ∧
      ∀ t ∈ (e.mapTypes step s).1.typeRefs, t.KnownIn (e.mapTypes step s).2 := by
    intro e s hs
    obtain ⟨hle, hall⟩ := mapThrough_spec (R := (· ≤ ·)) (P := fun _ t r => t.KnownIn r)
      (f := step) le_refl le_trans TypeRef.KnownIn.mono e.typeRefs s fun t _ u hu => by
        have ht := m.registers_resolveText f.cls f.decl.typeParams t.text (le_trans hs hu)
        exact ⟨ht.le, _, rfl, ht.knows⟩
    rw [Expr.typeRefs_mapTypes] at hle hall
    refine ⟨hle, fun t ht => ?_⟩
    obtain ⟨i, hi⟩ := List.mem_iff_getElem?.mp ht
    obtain ⟨-, -, hknown⟩ := hall i t hi
    exact hknown
  obtain ⟨hle, hall⟩ := mapThrough_spec (R := (· ≤ ·))
    (P := fun _ e r => ∀ t ∈ e.typeRefs, t.KnownIn r) (f := Expr.mapTypes step) le_refl le_trans
    (fun ht hst t hmem => (ht t hmem).mono hst) f.calls r
    fun e _ s hs => hexpr e s (le_trans h hs)
  refine ⟨hle, fun e he => ?_, _, rfl⟩
  obtain ⟨i, hi⟩ := List.mem_iff_getElem?.mp he
  obtain ⟨-, -, hknown⟩ := hall i e hi
  exact hknown

theorem le_instantiateMembers (m : Model) (r : Registry) : r ≤ instantiateMembers m r := by
  have hmembers : ∀ (c : ClassId) (args types : List TypeId) (r : Registry),
      r ≤ types.foldl (fun r ty => (r.instantiate ty c args).2) r := by
    intro c args types r
    refine List.foldlRecOn types _ (le_refl r) fun s hs ty _ => ?_
    exact le_trans hs (le_instantiate s ty c args)
  unfold instantiateMembers
  refine List.foldlRecOn (instantiations r) _ (le_refl r) fun s hs p _ => ?_
  dsimp only
  split
  · exact le_trans hs (hmembers _ _ _ s)
  · exact hs

/-- What holds of a run over an array, position by position. -/
theorem mapIdxThrough_spec {α σ : Type} {f : Nat → α → σ → α × σ} {R : σ → σ → Prop}
    {P : Nat → α → α → σ → Prop} (refl : ∀ s, R s s) (trans : ∀ {s t u}, R s t → R t u → R s u)
    (keep : ∀ {i a b s t}, P i a b s → R s t → P i a b t) (as : Array α) (start : σ)
    (hstep : ∀ (i : Nat) a, as[i]? = some a → ∀ s, R start s →
      R s (f i a s).2 ∧ P i a (f i a s).1 (f i a s).2) :
    R start (mapIdxThrough f as start).2 ∧ (mapIdxThrough f as start).1.size = as.size ∧
      ∀ (i : Nat) b, (mapIdxThrough f as start).1[i]? = some b →
        ∃ a, as[i]? = some a ∧ P i a b (mapIdxThrough f as start).2 := by
  obtain ⟨hrun, hall⟩ := mapThrough_spec (R := R) (P := fun p b s => P p.2 p.1 b s)
    (f := fun (p : α × Nat) s => f p.2 p.1 s) refl trans keep as.toList.zipIdx start
    fun p hp s hs => hstep p.2 p.1 (by simpa using List.mem_zipIdx_iff_getElem?.mp hp) s hs
  refine ⟨hrun, by simp [mapIdxThrough], fun i b hb => ?_⟩
  obtain ⟨⟨a, j⟩, ha, hP⟩ := hall i b (by simpa [mapIdxThrough] using hb)
  simp only [List.getElem?_zipIdx, Option.map_eq_some_iff, Prod.mk.injEq] at ha
  obtain ⟨a', ha', rfl, rfl⟩ := ha
  exact ⟨a', by simpa using ha', by simpa [mapIdxThrough] using hP⟩

end Interlock.Program
