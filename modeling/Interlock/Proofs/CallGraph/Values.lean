import Interlock.Proofs.CallGraph.Build
import Interlock.Proofs.Program.MatchedTypes

/-! The values of expressions. Whatever an expression is, its value has a type, and each of its
types is registered or one of the two that no registration gives. A value that is a lock has a type
that locks have. A call or an object creation always comes to an answer: the mark for something
that no declaration matched is not among the types of its value. -/

namespace Interlock.Program.Expr

/-! ## Parts -/

/-- An expression or something inside it, at any depth. -/
inductive PartOf : Expr → Expr → Prop
  | self (e : Expr) : PartOf e e
  | part {p c e : Expr} (hc : c ∈ e.children) (h : PartOf p c) : PartOf p e

theorem typeRefsAll_eq_flatMap (es : List Expr) : typeRefsAll es = es.flatMap typeRefs := by
  induction es with
  | nil => rfl
  | cons e es ih => rw [typeRefsAll, List.flatMap_cons, ih]

theorem mem_typeRefs_of_mem_children {e c : Expr} (hc : c ∈ e.children) {t : TypeRef}
    (ht : t ∈ c.typeRefs) : t ∈ e.typeRefs := by
  have hbelow : t ∈ e.children.flatMap typeRefs := List.mem_flatMap.mpr ⟨c, hc, ht⟩
  cases e <;> simp_all [children, typeRefs, typeRefsAll_eq_flatMap]

theorem PartOf.typeRefs {p e : Expr} (h : p.PartOf e) : ∀ t ∈ p.typeRefs, t ∈ e.typeRefs := by
  induction h with
  | self => exact fun t ht => ht
  | part hc _ ih => exact fun t ht => mem_typeRefs_of_mem_children hc (ih t ht)

end Interlock.Program.Expr

namespace Interlock.Program

open Interlock.Types Interlock.Types.Registry

/-! ## Local names -/

/-- A local name has a known type; with several types it is unknown. -/
theorem Function.TypedIn.knows_localType? {r : Registry} {fn : Function} (h : fn.TypedIn r)
    {name : String} {ty : TypeId} (hty : fn.localType? name = some ty) : r.Knows ty := by
  unfold Function.localType? at hty
  split at hty
  · cases hty
  · next only htypes =>
    cases hty
    rw [Locals.typesOf] at htypes
    split at htypes
    · next l hl => exact h.locals l (List.mem_of_find?_eq_some hl) _ (by simp [htypes])
    · cases htypes
  · cases hty
    trivial

namespace Model

/-! ## Call sites of a finished model -/

/-- The call sites of a function are those that it had before, with their types looked up. -/
def CallsOf (fn before : Function) : Prop :=
  ∃ (step : TypeRef → Registry → TypeRef × Registry) (r : Registry),
    fn.calls = (mapThrough (Expr.mapTypes step) before.calls r).1

theorem exists_callsOf_withTypes (m : Model) (r : Registry) {f : FunctionId} {fn : Function}
    (hfn : (m.withTypes r).function? f = some fn) :
    ∃ before, m.function? f = some before ∧ CallsOf fn before := by
  unfold withTypes at hfn
  have hsame : (m.signed r).1.functions.map (·.calls) = m.functions.map (·.calls) :=
    map_mapIdxThrough (f := fun _ => resolveSignature m) (fun _ _ _ => rfl) _ _
  generalize m.signed r = signed at hfn hsame
  obtain ⟨-, -, hall⟩ := mapIdxThrough_spec (f := fun _ => resolveCalls signed.1)
    (R := fun _ _ => True) (P := fun _ a b _ => CallsOf b a) (fun _ => trivial)
    (fun _ _ => trivial) (fun h _ => h) signed.1.functions signed.2
    fun _ a _ s _ => ⟨trivial, _, s, rfl⟩
  obtain ⟨own, hown, hcalls⟩ := hall f fn hfn
  obtain ⟨before, hbefore, heq⟩ := getElem?_of_map_eq hsame hown
  exact ⟨before, hbefore, by rwa [CallsOf, ← heq]⟩

theorem exists_calls_of_ofUnits {units : List SourceUnit} {m : Model} (h : ofUnits units = .ok m)
    {f : FunctionId} {before : Function} (hbefore : (declared units).function? f = some before) :
    ∃ fn, m.function? f = some fn ∧ CallsOf fn before := by
  obtain ⟨linked, hlinked, rfl⟩ := linked_of_ofUnits h
  have hfunctions : linked.functions = (declared units).functions := by
    obtain ⟨ancestors, -, rfl⟩ := linkSupertypes_eq_ok hlinked
    rfl
  obtain ⟨fn, hfn, -⟩ := (sameOutline_of_ofUnits h).symm.function? hbefore
  refine ⟨fn, hfn, ?_⟩
  generalize (registered units).2 = r at hfn
  simp only [withEntryPoints, function?, Array.getElem?_map] at hfn
  obtain ⟨typed, htyped, rfl⟩ := Option.map_eq_some_iff.mp hfn
  obtain ⟨own, hown, hcalls⟩ := exists_callsOf_withTypes linked r htyped
  rw [function?, hfunctions] at hown
  obtain rfl : before = own := Option.some.inj (hbefore.symm.trans hown)
  exact hcalls

/-! ## Results of a dispatch -/

/-- A call by name that finds a declaration has results. -/
theorem results_dispatch {m : Model} {c : ClassId} {name : String} {args : ArgTypes}
    (hfound : (m.dispatch c name args).isEmpty = false) {r : Registry}
    (result : Function → TypeId)
    (hresult : ∀ {f fn}, m.function? f = some fn → r.Knows (result fn)) :
    let results := (m.dispatch c name args).typedBy.filterMap fun f =>
      (m.function? f).map result
    results ≠ [] ∧ ∀ ty ∈ results, r.Knows ty := by
  have hfunctions : ∀ f ∈ (m.dispatch c name args).typedBy, ∃ fn, m.function? f = some fn := by
    intro f hf
    unfold Dispatch.typedBy at hf
    split at hf
    · obtain ⟨fn, hfn, -⟩ := isMember_of_meaning? (Option.mem_toList.mp hf)
      exact ⟨fn, hfn⟩
    · obtain ⟨fn, hfn, -⟩ := isMember_of_mem_callees hf
      exact ⟨fn, hfn⟩
  have hnonempty : (m.dispatch c name args).typedBy ≠ [] := by
    unfold Dispatch.typedBy
    unfold Dispatch.isEmpty at hfound
    split
    · next hcallees =>
      rw [hcallees, Bool.true_and] at hfound
      cases hdeclared : (m.dispatch c name args).declared with
      | none => simp [hdeclared] at hfound
      | some f => simp
    · next hcallees => simpa using hcallees
  refine ⟨?_, fun ty hty => ?_⟩
  · obtain ⟨f, hf⟩ := List.exists_mem_of_ne_nil _ hnonempty
    obtain ⟨fn, hfn⟩ := hfunctions f hf
    exact List.ne_nil_of_mem (List.mem_filterMap.mpr ⟨f, hf, by rw [hfn, Option.map_some]⟩)
  · obtain ⟨f, -, hmap⟩ := List.mem_filterMap.mp hty
    obtain ⟨fn, hfn, rfl⟩ := Option.map_eq_some_iff.mp hmap
    exact hresult hfn

end Model

end Interlock.Program

namespace Interlock.CallGraph

open Interlock.Types Interlock.Types.Registry Interlock.Program

/-! ## Results by name -/

section

variable {r : Registry} {name : String} {ty : TypeId}

theorem knows_resultByName? (h : initial ≤ r) (name : String) {receiver : Option TypeId}
    (hreceiver : r.Knows (receiver.getD .unknown)) :
    r.Knows ((resultByName? name receiver).getD .unknown) := by
  have hunknown : r.Knows .unknown := trivial
  unfold resultByName?
  split
  any_goals first | exact knows_primitive h _ | exact hreceiver | exact hunknown
  split <;> exact hunknown

theorem knows_utilityResult? (h : initial ≤ r) {root : String}
    (hty : utilityResult? root name = some ty) : r.Knows ty := by
  unfold utilityResult? at hty
  split at hty
  · split at hty <;> cases hty <;> exact knows_primitive h _
  · split at hty <;> cases hty
    trivial

theorem knows_containerResult? (h : initial ≤ r)
    (hty : containerResult? r.objectSet name = some ty) : r.Knows ty := by
  have hunknown : r.Knows .unknown := trivial
  have hset : r.Knows r.objectSet := knows_find? r objectSetKey
  unfold containerResult? at hty
  split at hty <;> cases hty
  all_goals first | exact knows_primitive h _ | exact hset | exact hunknown

theorem knows_enumResult? (h : initial ≤ r) {self : TypeId} (hself : r.Knows self)
    (hty : enumResult? self name = some ty) : r.Knows ty := by
  have hunknown : r.Knows .unknown := trivial
  unfold enumResult? at hty
  split at hty <;> cases hty
  all_goals first | exact knows_primitive h _ | exact hself | exact hunknown

end

/-! ## Well-formed values -/

namespace Resolved

/-- A value as every expression has one. -/
structure WellFormed (r : Registry) (v : Resolved) : Prop where
  nonempty : v.types ≠ []
  types : ∀ ty ∈ v.types, ty = .unresolved ∨ r.Knows ty
  /-- A value that is a lock may be one by its types. -/
  lock : v.lock ≠ none → ∃ ty ∈ v.types, r.kindOf ty = .lock

/-- A value of which everything was matched. -/
structure Definite (r : Registry) (v : Resolved) : Prop extends WellFormed r v where
  resolved : .unresolved ∉ v.types

variable {r : Registry} {v : Resolved} {ty : TypeId}

theorem Definite.knows (h : v.Definite r) : ∀ ty ∈ v.types, r.Knows ty := by
  intro ty hty
  rcases h.types ty hty with rfl | hknows
  · exact absurd hty h.resolved
  · exact hknows

theorem definite_of_knows (hne : v.types ≠ []) (hknows : ∀ ty ∈ v.types, r.Knows ty)
    (hlock : v.lock ≠ none → ∃ ty ∈ v.types, r.kindOf ty = .lock) : v.Definite r :=
  ⟨⟨hne, fun ty hty => .inr (hknows ty hty), hlock⟩, hknows .unresolved⟩

theorem definite_single (htypes : v.types = [ty]) (h : r.Knows ty)
    (hlock : v.lock ≠ none → r.kindOf ty = .lock) : v.Definite r :=
  definite_of_knows (by simp [htypes]) (by simpa [htypes] using h)
    fun hsome => ⟨ty, by simp [htypes], hlock hsome⟩

theorem definite_of (h : r.Knows ty) : (of ty).Definite r := definite_single rfl h (absurd rfl)

theorem definite_typeName (h : r.Knows ty) : (typeName ty).Definite r :=
  definite_single rfl h (absurd rfl)

theorem definite_holding (h : r.Knows ty) (hkind : r.kindOf ty = .lock)
    (lock : Option LockTarget) : (holding ty lock).Definite r :=
  definite_single rfl h fun _ => hkind

theorem definite_ofAll {tys : List TypeId} (hne : tys ≠ []) (h : ∀ ty ∈ tys, r.Knows ty) :
    (ofAll tys).Definite r := by
  obtain ⟨ty, hty⟩ := List.exists_mem_of_ne_nil tys hne
  refine definite_of_knows (List.ne_nil_of_mem (Ordered.mem_ofList.mpr hty)) ?_ (by simp [ofAll])
  exact fun ty hty => h ty (Ordered.mem_ofList.mp hty)

theorem definite_unknown : unknown.Definite r := definite_of trivial

theorem wellFormed_unresolved : unresolved.WellFormed r :=
  ⟨by simp [unresolved, of], by simp [unresolved, of], by simp [unresolved, of]⟩

/-- Several values taken together. -/
theorem definite_union (vs : List Resolved) (hne : vs ≠ []) (h : ∀ v ∈ vs, v.Definite r)
    (isTypeName : Bool) :
    Definite r
      { types := Ordered.ofList (vs.flatMap (·.types))
        lock := vs.findSome? (·.lock)
        isTypeName } := by
  have hmem : ∀ {v ty}, v ∈ vs → ty ∈ v.types → ty ∈ Ordered.ofList (vs.flatMap (·.types)) :=
    fun hv hty => Ordered.mem_ofList.mpr (List.mem_flatMap.mpr ⟨_, hv, hty⟩)
  refine definite_of_knows ?_ ?_ ?_
  · obtain ⟨v, hv⟩ := List.exists_mem_of_ne_nil vs hne
    obtain ⟨ty, hty⟩ := List.exists_mem_of_ne_nil v.types (h v hv).nonempty
    exact List.ne_nil_of_mem (hmem hv hty)
  · intro ty hty
    obtain ⟨v, hv, hty⟩ := List.mem_flatMap.mp (Ordered.mem_ofList.mp hty)
    exact (h v hv).knows ty hty
  · intro hlock
    obtain ⟨target, htarget⟩ := Option.ne_none_iff_exists'.mp hlock
    obtain ⟨v, hv, htarget⟩ := List.exists_of_findSome?_eq_some htarget
    obtain ⟨ty, hty, hkind⟩ := (h v hv).lock (by simp [htarget])
    exact ⟨ty, hmem hv hty, hkind⟩

/-- A value that is not all unmatched has a type that was matched. -/
theorem exists_ne_unresolved (h : v.isUnresolved = false) : ∃ ty ∈ v.types, ty ≠ .unresolved := by
  simpa [isUnresolved] using h

theorem WellFormed.knows_single? (h : v.WellFormed r) (hresolved : v.isUnresolved = false) :
    r.Knows (v.single?.getD .unknown) := by
  obtain ⟨ty, hty, hne⟩ := exists_ne_unresolved hresolved
  unfold single?
  split
  · next only htypes =>
    obtain rfl : ty = only := by simpa [htypes] using hty
    exact (h.types ty hty).resolve_left hne
  · trivial

end Resolved

open Resolved

namespace Site

/-- What the resolution of expressions relies on. -/
structure Grounded (s : Site) : Prop where
  ready : s.model.Ready s.registry
  typed : s.model.Typed
  sealed : s.registry.Sealed

theorem grounded_of_ofUnits {units : List SourceUnit} {s : Site}
    (h : Model.ofUnits units = .ok s.model) : s.Grounded :=
  ⟨Model.ready_of_ofUnits h, Model.typed_of_ofUnits h, Model.sealed_of_ofUnits h⟩

variable {s : Site}

theorem definite_variableOf {ty : TypeId} (hty : s.registry.Knows ty) (lock : Option LockId) :
    (s.variableOf ty lock).Definite s.registry := by
  unfold variableOf
  split
  · next hlock => exact definite_holding hty (by simpa [isLock] using hlock) _
  · exact definite_of hty

variable (h : s.Grounded)

include h

/-! ## Types that are looked up -/

namespace Grounded

theorem knows_primitive (p : Primitive) : s.registry.Knows (primitive p) :=
  Registry.knows_primitive h.ready.initial_le p

theorem knows_classType (c : ClassId) : s.registry.Knows (s.classType c) := by
  unfold classType
  cases hc : s.model.class? c with
  | none => trivial
  | some cls => exact knows_of_key? (h.typed.classes hc).type

theorem knows_local? {f : FunctionId} {name : String} {ty : TypeId}
    (hlocal : s.model.local? f name = some ty) : s.registry.Knows ty := by
  have hat : ∀ fuel f, s.model.localAt? name fuel f = some ty → s.registry.Knows ty := by
    intro fuel
    induction fuel with
    | zero => simp [Model.localAt?]
    | succ fuel ih =>
      intro f hf
      rw [Model.localAt?] at hf
      split at hf
      · cases hf
      · next fn hfn =>
        split at hf
        · next hty => exact (h.typed.functions hfn).1.knows_localType? (hty.trans hf)
        · obtain ⟨p, -, hp⟩ := Option.bind_eq_some_iff.mp hf
          exact ih p hp
  exact hat _ f hlocal

theorem knows_memberField? {c owner : ClassId} {name : String} {ty : TypeId}
    (hfield : s.model.memberField? c name = some (owner, ty)) : s.registry.Knows ty := by
  obtain ⟨above, -, habove⟩ := List.exists_of_findSome?_eq_some hfield
  obtain ⟨cls, hc, hrest⟩ := Option.bind_eq_some_iff.mp habove
  obtain ⟨found, hfound, hpair⟩ := Option.bind_eq_some_iff.mp hrest
  cases hpair
  obtain ⟨v, hv, rfl⟩ := Option.map_eq_some_iff.mp hfound
  exact (h.typed.classes hc).fields v (List.mem_of_find?_eq_some hv)

theorem knows_field? {c owner : ClassId} {name : String} {ty : TypeId}
    (hfield : s.model.field? c name = some (owner, ty)) : s.registry.Knows ty := by
  obtain ⟨scope, -, hscope⟩ := List.exists_of_findSome?_eq_some hfield
  exact h.knows_memberField? hscope

theorem knows_named? {name : String} {ty : TypeId} (hty : s.registry.named? name = some ty) :
    s.registry.Knows ty := by
  have hnamed := Registry.knows_named? h.ready.initial_le name
  rwa [hty] at hnamed

theorem knows_returnType (f : FunctionId) : s.registry.Knows ((s.returnType f).getD .unknown) := by
  unfold returnType
  cases hfn : s.model.function? f with
  | none => trivial
  | some fn => exact (h.typed.functions hfn).1.returnType

/-- A member has a known type for every receiver. -/
theorem knows_substitute {member : TypeId} (hmember : s.registry.Knows member) (owner : ClassId)
    (receiver : TypeId) : s.registry.Knows (s.substitute member owner receiver) := by
  have hargs : ∀ arg ∈ ((s.registry.components? receiver).map List.dropLast).getD [],
      s.registry.Knows arg := by
    intro arg harg
    cases hcomponents : s.registry.components? receiver with
    | none => simp [hcomponents] at harg
    | some components =>
      have hparts := h.sealed.knows_parts h.ready.interned
        (components?_eq_some_iff.mp hcomponents)
      rw [hcomponents] at harg
      exact hparts arg (List.dropLast_subset components harg)
  unfold substitute
  split
  · exact hmember
  · cases hx : s.registry.instantiated? member owner _ with
    | none => trivial
    | some x => exact h.sealed.knows_instantiated? h.ready.interned hargs hmember hx

theorem knows_byRule (rule : ReturnRule) {receiver : TypeId}
    (hreceiver : s.registry.Knows receiver) : s.registry.Knows (byRule rule receiver) := by
  cases rule with
  | value p => exact h.knows_primitive p
  | receiver => exact hreceiver
  | unknown => trivial

theorem knows_wrapped (ty : TypeId) : s.registry.Knows (s.registry.wrapped ty) :=
  h.sealed.knows_wrapped h.ready.interned ty

theorem knows_elementOf (ty : TypeId) : s.registry.Knows (s.elementOf ty) := by
  unfold elementOf
  dsimp only
  split
  · next helement => exact h.sealed.knows_elementOf? h.ready.interned helement
  · split
    · exact h.knows_wrapped ty
    · split
      · exact h.knows_primitive .char
      · trivial

end Grounded

/-! ## Names and members -/

theorem wellFormed_plainName (name : String) : (s.plainName name).WellFormed s.registry := by
  unfold plainName
  dsimp only
  split
  · next hlocal => exact (definite_variableOf (h.knows_local? hlocal) _).toWellFormed
  · split
    · next hfield => exact (definite_variableOf (h.knows_field? hfield) _).toWellFormed
    · split
      · exact (definite_of (h.knows_classType _)).toWellFormed
      · split
        · next hnamed => exact (definite_typeName (h.knows_named? hnamed)).toWellFormed
        · split
          · exact (definite_typeName (h.knows_classType _)).toWellFormed
          · split
            · exact (definite_of (h.knows_classType _)).toWellFormed
            · exact wellFormed_unresolved

theorem wellFormed_name (mo : MonitorOf) (n : String) :
    (s.name mo n).WellFormed s.registry := by
  unfold name
  split
  · exact (definite_holding (h.knows_primitive .lock) h.ready.kindOf_lock _).toWellFormed
  · exact wellFormed_plainName h n

theorem definite_classMember {ty : TypeId} (hty : s.registry.Knows ty) (c : ClassId)
    (name : String) : (s.classMember ty c name).Definite s.registry := by
  unfold classMember
  split
  · exact definite_unknown
  · split
    · exact definite_of hty
    · split
      · exact definite_of (h.knows_primitive .int)
      · split
        · exact definite_of hty
        · split
          · next owner field hfield =>
            have hknows := h.knows_memberField? hfield
            split
            · next hlock => exact definite_holding hknows (by simpa [isLock] using hlock) _
            · exact definite_of (h.knows_substitute hknows owner ty)
          · split
            · exact definite_typeName (h.knows_classType _)
            · exact definite_unknown

/-- Nothing is asked of what no declaration matched, so that its members are unknown. -/
theorem definite_memberOf (name : String) {ty : TypeId}
    (hty : ty = .unresolved ∨ s.registry.Knows ty) :
    (s.memberOf name ty).Definite s.registry := by
  unfold memberOf
  dsimp only
  split
  · exact definite_unknown
  · next hmatched =>
    have hknows : s.registry.Knows ty := hty.resolve_left (by rintro rfl; simp at hmatched)
    split
    · split
      · exact definite_of (h.knows_primitive .int)
      · exact definite_unknown
    · split
      · exact definite_classMember h hknows _ name
      · split
        · exact definite_of (h.knows_byRule _ hknows)
        · split
          · exact definite_of (h.knows_primitive .int)
          · exact definite_unknown

section

variable {receiver : Resolved} (hreceiver : receiver.WellFormed s.registry)

include hreceiver

theorem wellFormed_member (name : String) :
    (s.member receiver name).WellFormed s.registry := by
  unfold member
  split
  · exact wellFormed_unresolved
  · refine (definite_union (receiver.types.map (s.memberOf name))
      (by simpa using hreceiver.nonempty) (fun v hv => ?_) _).toWellFormed
    obtain ⟨ty, hty, rfl⟩ := List.mem_map.mp hv
    exact definite_memberOf h name (hreceiver.types ty hty)

theorem wellFormed_index : (s.index receiver).WellFormed s.registry := by
  unfold index
  split
  · exact wellFormed_unresolved
  · refine (definite_ofAll (by simpa using hreceiver.nonempty) fun ty hty => ?_).toWellFormed
    obtain ⟨of, -, rfl⟩ := List.mem_map.mp hty
    exact h.knows_elementOf of

end

theorem wellFormed_operation (kind : OperationKind) {operands : List Resolved}
    (hoperands : ∀ v ∈ operands, v.WellFormed s.registry) :
    (operation kind operands).WellFormed s.registry := by
  have hoption : ∀ o : Option Resolved, (∀ v, o = some v → v ∈ operands) →
      (o.getD .unknown).WellFormed s.registry := by
    intro o ho
    cases o with
    | none => exact definite_unknown.toWellFormed
    | some v => exact hoperands v (ho v rfl)
  unfold operation
  split
  · exact (definite_of (h.knows_primitive .bool)).toWellFormed
  · exact hoption _ fun v hv => List.mem_of_getLast? hv
  · exact hoption _ fun v hv => List.mem_of_getElem? hv
  · split
    · exact (definite_of (h.knows_primitive .string)).toWellFormed
    · split
      · next first rest _ =>
        have hfirst := hoperands first List.mem_cons_self
        exact ⟨hfirst.nonempty, hfirst.types, fun hlock => absurd rfl hlock⟩
      · exact definite_unknown.toWellFormed

/-! ## Calls -/

theorem definite_fallback (call : Expr) (name : String) (receiver : Option TypeId)
    (hreceiver : s.registry.Knows (receiver.getD .unknown)) (kind : DiagnosticKind) :
    (s.fallback call name receiver kind).1.Definite s.registry := by
  unfold fallback
  split
  · next hresult =>
    have hknows := knows_resultByName? h.ready.initial_le name hreceiver
    exact definite_of (by rwa [hresult] at hknows)
  · split
    · next hresult =>
      obtain ⟨root, -, hresult⟩ := Option.bind_eq_some_iff.mp hresult
      exact definite_of (knows_utilityResult? h.ready.initial_le hresult)
    · exact definite_unknown

theorem definite_lockCall (call : Expr) (name : String) (lock : Option LockTarget) :
    (s.lockCall call name lock).1.Definite s.registry := by
  have hlock := h.knows_primitive .lock
  have htruth : (Resolved.of (primitive .bool)).Definite s.registry :=
    definite_of (h.knows_primitive .bool)
  unfold lockCall
  dsimp only
  split
  · dsimp only
    split
    · exact definite_of hlock
    · exact htruth
  · split
    · exact htruth
    · dsimp only
      split
      · exact definite_holding hlock h.ready.kindOf_lock _
      · exact htruth

theorem definite_superCall (name : String) (args : ArgTypes) :
    (s.superCall name args).1.Definite s.registry := by
  unfold superCall
  split
  · exact definite_of (h.knows_returnType _)
  · exact definite_of (knows_resultByName? h.ready.initial_le name trivial)

theorem definite_plainCall (call : Expr) (name : String) (args : ArgTypes) :
    (s.plainCall call name args).1.Definite s.registry := by
  unfold plainCall
  split
  · exact definite_of (h.knows_returnType _)
  · dsimp only
    split
    · exact definite_fallback h call name none trivial _
    · next hfound =>
      obtain ⟨hne, hknows⟩ := Model.results_dispatch (by simpa using hfound)
        (·.returnType) fun hfn => (h.typed.functions hfn).1.returnType
      exact definite_ofAll hne hknows

theorem knows_callOnClass {ty : TypeId} (hty : s.registry.Knows ty) {c : ClassId} {name : String}
    {args : ArgTypes} {found : List FunctionId × List TypeId}
    (hcall : s.callOnClass ty c name args = .ok found) :
    found.2 ≠ [] ∧ ∀ result ∈ found.2, s.registry.Knows result := by
  unfold callOnClass at hcall
  dsimp only at hcall
  split at hcall
  · next result hresult =>
    cases hcall
    have hknows : s.registry.Knows result := by
      split at hresult
      · exact knows_enumResult? h.ready.initial_le hty hresult
      · cases hresult
    simpa using hknows
  · split at hcall
    · cases hcall
    · next hfound =>
      cases hcall
      exact Model.results_dispatch (by simpa using hfound) _ fun hfn =>
        h.knows_substitute (h.typed.functions hfn).1.returnType _ ty

/-- A call on one type has results, unless nothing explains it. -/
theorem knows_callOnType {ty : TypeId} (hty : s.registry.Knows ty) {name : String}
    {args : ArgTypes} {found : List FunctionId × List TypeId}
    (hcall : s.callOnType name args ty = .ok found) :
    found.2 ≠ [] ∧ ∀ result ∈ found.2, s.registry.Knows result := by
  have hreturns : ∀ {result : TypeId}, returns result = .ok found → s.registry.Knows result →
      found.2 ≠ [] ∧ ∀ result ∈ found.2, s.registry.Knows result := by
    intro result hresult hknows
    cases hresult
    simpa using hknows
  have hname : s.registry.Knows ((resultByName? name (some ty)).getD .unknown) :=
    knows_resultByName? h.ready.initial_le name hty
  unfold callOnType at hcall
  dsimp only at hcall
  split at hcall
  · exact hreturns hcall hname
  · split at hcall
    · exact knows_callOnClass h hty hcall
    · split at hcall
      · split at hcall
        · exact hreturns hcall (h.knows_primitive .string)
        · exact hreturns hcall (h.knows_byRule _ hty)
      · split at hcall
        · refine hreturns hcall ?_
          cases hresult : containerResult? s.registry.objectSet name with
          | none => exact h.knows_wrapped ty
          | some result => exact knows_containerResult? h.ready.initial_le hresult
        · split at hcall
          · refine hreturns hcall ?_
            split
            · exact h.knows_wrapped ty
            · exact hname
          · split at hcall
            · exact hreturns hcall hname
            · cases hcall

section

variable {receiver : Resolved} (hreceiver : receiver.WellFormed s.registry)

include hreceiver

/-- If no type of the receiver explains the call, one of them tells why, and the name decides. -/
theorem definite_typedCall (call : Expr) (name : String) (args : ArgTypes)
    (hresolved : receiver.isUnresolved = false) :
    (s.typedCall call name args receiver).1.Definite s.registry := by
  have hok : ∀ {ty found}, ty ∈ receiver.types → ty ≠ .unresolved →
      s.callOnType name args ty = .ok found →
      found.2 ≠ [] ∧ ∀ result ∈ found.2, s.registry.Knows result := fun hty hne hcall =>
    knows_callOnType h ((hreceiver.types _ hty).resolve_left hne) hcall
  unfold typedCall
  dsimp only
  split
  · exact definite_fallback h call name _ (hreceiver.knows_single? hresolved) _
  · next hcase =>
    refine definite_ofAll (fun hnil => ?_) fun result hresult => ?_
    · -- the first type that was matched either has results or tells why not
      obtain ⟨ty, hty, hne⟩ := exists_ne_unresolved hresolved
      have houtcome : s.callOnType name args ty ∈
          (receiver.types.filter (· != .unresolved)).map (s.callOnType name args) :=
        List.mem_map_of_mem (List.mem_filter.mpr ⟨hty, by simpa using hne⟩)
      cases hcall : s.callOnType name args ty with
      | ok found =>
        rw [List.flatMap_eq_nil_iff] at hnil
        refine (hok hty hne hcall).1 (hnil found (List.mem_filterMap.mpr ⟨_, houtcome, ?_⟩))
        rw [hcall, Except.toOption]
      | error kind =>
        have hnone : ∀ kind, List.findSome? _ _ = some kind → False := fun kind hkind =>
          hcase kind hkind (by rw [hnil]; rfl)
        rw [← Option.eq_none_iff_forall_ne_some, List.findSome?_eq_none_iff] at hnone
        have hmissing := hnone _ houtcome
        rw [hcall] at hmissing
        cases hmissing
    · obtain ⟨found, hfound, hresult⟩ := List.mem_flatMap.mp hresult
      obtain ⟨outcome, houtcome, hsome⟩ := List.mem_filterMap.mp hfound
      obtain ⟨ty, hty, rfl⟩ := List.mem_map.mp houtcome
      obtain ⟨hty, hne⟩ := List.mem_filter.mp hty
      cases hcall : s.callOnType name args ty with
      | error kind => simp [hcall, Except.toOption] at hsome
      | ok found' =>
        obtain rfl : found' = found := by simpa [hcall, Except.toOption] using hsome
        exact (hok hty (by simpa using hne) hcall).2 result hresult

theorem definite_callOn (call : Expr) (name : String) (args : List Resolved) :
    (s.callOn call name receiver args).1.Definite s.registry := by
  unfold callOn
  split
  · exact definite_lockCall h call name receiver.lock
  · split
    · exact definite_unknown
    · split
      · exact definite_fallback h call name none trivial _
      · next hresolved =>
        exact definite_typedCall h hreceiver call name _ (by simpa using hresolved)

end

/-! ## Expressions -/

/-- The value of an expression from those of its parts. -/
theorem wellFormed_own (mo : MonitorOf) {e : Expr} (htypes : ∀ t ∈ e.typeRefs, t.KnownIn s.registry)
    {values : List Resolved} (hvalues : ∀ v ∈ values, v.WellFormed s.registry) :
    (s.own mo e values).1.WellFormed s.registry ∧
      (e.isInvocation = true → (s.own mo e values).1.Definite s.registry) := by
  have hboth : ∀ {v : Resolved}, v.Definite s.registry → v.WellFormed s.registry ∧
      (e.isInvocation = true → v.Definite s.registry) :=
    fun hv => ⟨hv.toWellFormed, fun _ => hv⟩
  have hhead : (values.headD .unknown).WellFormed s.registry := by
    cases values with
    | nil => exact definite_unknown.toWellFormed
    | cons v vs => exact hvalues v List.mem_cons_self
  have hwritten : ∀ {ty : TypeRef}, ty ∈ e.typeRefs →
      (Resolved.of (ty.resolved.getD .unknown)).Definite s.registry := by
    intro ty hty
    obtain ⟨made, hmade, hknows⟩ := htypes ty hty
    exact definite_of (by rwa [hmade])
  cases e with
  | literal kind => exact hboth (definite_of (h.knows_primitive _))
  | ident n => exact ⟨wellFormed_name h mo n, nofun⟩
  | this => exact hboth (definite_of (h.knows_classType _))
  | super =>
    refine hboth ?_
    unfold own
    dsimp only
    split
    · exact definite_of (h.knows_classType _)
    · exact definite_unknown
  | new ty args => exact hboth (hwritten List.mem_cons_self)
  | newArray ty elements => exact hboth (hwritten List.mem_cons_self)
  | cast ty operand => exact hboth (hwritten List.mem_cons_self)
  | paren inner => exact ⟨hhead, nofun⟩
  | index target indices => exact ⟨wellFormed_index h hhead, nofun⟩
  | member target n => exact ⟨wellFormed_member h hhead n, nofun⟩
  | call n args => exact hboth (definite_plainCall h _ n _)
  | callOn target n args =>
    cases target with
    | super => exact hboth (definite_superCall h n _)
    | _ => exact hboth (definite_callOn h hhead _ n _)
  | operation kind operands => exact ⟨wellFormed_operation h kind hvalues, nofun⟩
  | classLiteral _ | other _ => exact hboth definite_unknown

theorem wellFormed_expr (mo : MonitorOf) {e : Expr}
    (htypes : ∀ t ∈ e.typeRefs, t.KnownIn s.registry) :
    (s.expr mo e).1.WellFormed s.registry ∧
      (e.isInvocation = true → (s.expr mo e).1.Definite s.registry) := by
  induction e using Expr.partsInduction with
  | step e ih =>
    have hvalues : ∀ v ∈ e.children.map fun c => (s.expr mo c).1, v.WellFormed s.registry := by
      intro v hv
      obtain ⟨c, hc, rfl⟩ := List.mem_map.mp hv
      exact (ih c hc fun t ht => htypes t (Expr.mem_typeRefs_of_mem_children hc ht)).1
    rw [expr_eq]
    exact wellFormed_own h mo htypes hvalues

omit h

/-- Everywhere in the call sites of a function of a finished model, values are well-formed, and
those of calls and object creations are known. -/
theorem wellFormed_resolve {units : List SourceUnit} (h : Model.ofUnits units = .ok s.model)
    {fn : Function} (hfn : s.model.function? s.function = some fn) {call e : Expr}
    (hcall : call ∈ fn.calls) (he : e.PartOf call) :
    (s.resolve e).1.WellFormed s.registry ∧
      (e.isInvocation = true → .unresolved ∉ (s.resolve e).1.types) := by
  have hgrounded := grounded_of_ofUnits h
  have htypes : ∀ t ∈ e.typeRefs, t.KnownIn s.registry := fun t ht =>
    (hgrounded.typed.functions hfn).2 call hcall t (he.typeRefs t ht)
  obtain ⟨hvalue, hinvocation⟩ := wellFormed_expr hgrounded s.monitor htypes
  exact ⟨hvalue, fun hinvokes => (hinvocation hinvokes).resolved⟩

/-- The object that a method of the example creates for an argument of a call. -/
theorem shapes_wellFormed_resolve : ∃ (s : Site) (fn : Function) (ty : TypeRef),
    Model.ofUnits Model.shapes = .ok s.model ∧ s.model.function? s.function = some fn ∧
    .callOn (.ident "shape") "area" [.new ty []] ∈ fn.calls ∧
    (Expr.new ty []).PartOf (.callOn (.ident "shape") "area" [.new ty []]) ∧
    (s.resolve (.new ty [])).1.WellFormed s.registry ∧
    .unresolved ∉ (s.resolve (.new ty [])).1.types := by
  obtain ⟨m, hm, -⟩ := Model.exists_shapes
  have hpaint : ((Model.declared Model.shapes).function? 2).map (·.calls) =
      some [.callOn (.ident "shape") "area" [.new { text := "Edge" } []]] := by rfl
  obtain ⟨before, hbefore, hcalls⟩ := Option.map_eq_some_iff.mp hpaint
  obtain ⟨fn, hfn, step, r, hfinal⟩ := Model.exists_calls_of_ofUnits hm hbefore
  rw [hcalls] at hfinal
  let s : Site := siteOf m .java (fun _ => none) 2 fn
  have hcall : .callOn (.ident "shape") "area" [.new (step { text := "Edge" } r).1 []] ∈
      fn.calls := hfinal ▸ List.mem_singleton_self _
  have hpart : (Expr.new (step { text := "Edge" } r).1 []).PartOf
      (.callOn (.ident "shape") "area" [.new (step { text := "Edge" } r).1 []]) :=
    .part (by simp [Expr.children]) (.self _)
  obtain ⟨hvalue, hknown⟩ := wellFormed_resolve (s := s) hm hfn hcall hpart
  exact ⟨s, fn, _, hm, hfn, hcall, hpart, hvalue, hknown rfl⟩

end Site

end Interlock.CallGraph
