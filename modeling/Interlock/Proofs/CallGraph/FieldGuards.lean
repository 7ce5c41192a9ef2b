import Interlock.Proofs.CallGraph.Monitors

/-! Fields as guards. A field can be written by its name alone or as a member of the instance, and
both name the same monitor as long as no local name is found first. Local names are told apart by
their fingerprints, so that a local variable of another name can be found in place of the field. -/

namespace Interlock.Types.Registry

variable {r : Registry} {ty : TypeId} {c : ClassId}

/-- The type is a declared class or an instantiation of one. -/
def Instantiates (r : Registry) (ty : TypeId) (c : ClassId) : Prop :=
  r.key? ty = some (.declared c) ∨
    ∃ args base, r.key? ty = some (.compound (args ++ [base])) ∧ r.key? base = some (.declared c)

theorem genericBase?_eq_some_iff {base : TypeId} : r.genericBase? ty = some base ↔
    ∃ args, r.key? ty = some (.compound (args ++ [base])) := by
  rw [genericBase?, Option.bind_eq_some_iff]
  simp only [components?_eq_some_iff, List.getLast?_eq_some_iff]
  constructor
  · rintro ⟨_, hkey, args, rfl⟩
    exact ⟨args, hkey⟩
  · rintro ⟨args, hkey⟩
    exact ⟨_, hkey, args, rfl⟩

theorem isUntracked_of_declared (h : r.key? ty = some (.declared c)) :
    r.isUntracked ty = false := by
  cases ty with
  | id n => simp [isUntracked, isUntrackedAt, h]
  | unknown => cases h
  | unresolved => cases h

theorem elementOf?_of_declared (h : r.key? ty = some (.declared c)) : r.elementOf? ty = none := by
  rw [elementOf?, h]

theorem components?_of_declared (h : r.key? ty = some (.declared c)) :
    r.components? ty = none := by
  rw [components?, h]

end Interlock.Types.Registry

namespace Interlock.Program.Model

open Interlock.Types Interlock.Types.Registry Interlock.Text

variable {units : List SourceUnit} {m : Model} {f : FunctionId} {name : String}

/-! ## Local names -/

/-- A function stands in another one, at any depth, or is that one. -/
def StandsIn (m : Model) : FunctionId → FunctionId → Prop :=
  Relation.ReflTransGen fun f around => (m.function? f).bind (·.parent) = some around

/-- The function or one around it has a parameter or a local variable with a property. -/
def HasLocal (m : Model) (f : FunctionId) (p : VariableDecl → Prop) : Prop :=
  ∃ g fn, m.StandsIn f g ∧ m.function? g = some fn ∧
    ∃ v ∈ fn.decl.params ++ fn.decl.locals, p v

theorem localType?_eq_none_iff {fn : Function} {r : Registry} (h : m.Signature r fn) :
    fn.localType? name = none ↔
      ¬∃ v ∈ fn.decl.params ++ fn.decl.locals, fingerprint v.name = fingerprint name := by
  have hlocals : (∃ ty, ty ∈ fn.locals.typesOf name) ↔
      ∃ v ∈ fn.decl.params ++ fn.decl.locals, fingerprint v.name = fingerprint name := by
    simp only [h.locals]
    constructor
    · rintro ⟨ty, v, hv, hname, -⟩
      exact ⟨v, hv, hname⟩
    · rintro ⟨v, hv, hname⟩
      exact ⟨_, v, hv, hname, rfl⟩
  rw [← hlocals, Function.localType?]
  split
  · next hnil => simp [hnil]
  · next hone => simp [hone]
  · next hnil _ => simpa using List.exists_mem_of_ne_nil _ hnil

theorem hasLocal_iff {fn : Function} (hf : m.function? f = some fn) {p : VariableDecl → Prop} :
    m.HasLocal f p ↔ (∃ v ∈ fn.decl.params ++ fn.decl.locals, p v) ∨
      ∃ around, fn.parent = some around ∧ m.HasLocal around p := by
  constructor
  · rintro ⟨g, fn', hstands, hg, hlocal⟩
    obtain rfl | ⟨around, hparent, hrest⟩ := hstands.cases_head
    · cases hf.symm.trans hg
      exact .inl hlocal
    · rw [hf, Option.bind_some] at hparent
      exact .inr ⟨around, hparent, g, fn', hrest, hg, hlocal⟩
  · rintro (hlocal | ⟨around, hparent, g, fn', hrest, hg, hlocal⟩)
    · exact ⟨f, fn, .refl, hf, hlocal⟩
    · exact ⟨g, fn', .head (by rw [hf, Option.bind_some, hparent]) hrest, hg, hlocal⟩

/-- A local name is found exactly if some variable has its fingerprint. -/
theorem local?_eq_none_iff (h : ofUnits units = .ok m) :
    m.local? f name = none ↔ ¬m.HasLocal f fun v => fingerprint v.name = fingerprint name := by
  obtain ⟨bare, written, hfinished⟩ := exists_finished h
  have hnested := wellNested_of_ofUnits h
  have hready := hfinished.ready_registry
  -- from a function to the one around it, which has a smaller number
  induction f using Nat.strongRecOn with
  | ind f ih =>
    cases hf : m.function? f with
    | none =>
      refine iff_of_true (by simp [local?, localAt?, hf]) ?_
      rintro ⟨g, fn, hstands, hg, -⟩
      obtain rfl | ⟨around, hparent, -⟩ := hstands.cases_head
      · cases hf.symm.trans hg
      · rw [hf] at hparent
        cases hparent
    | some fn =>
      have hsignature := hfinished.functions hfinished.adds_members.le hready.interned hf
      rw [hnested.local?_eq name hf, Option.or_eq_none_iff, localType?_eq_none_iff hsignature,
        hasLocal_iff hf, not_or]
      refine and_congr_right fun _ => ?_
      cases hparent : fn.parent with
      | none => simp
      | some around => simpa using ih around (hnested.parent hf hparent).1

end Interlock.Program.Model

namespace Interlock.CallGraph.Site

open Interlock.Types Interlock.Types.Registry Interlock.Program

variable {units : List SourceUnit} {s : Site} {mo : MonitorOf} {name : String} {owner : ClassId}
  {ty : TypeId} {cls : Program.Class}

/-! ## Values -/

theorem userClass?_eq_some_iff {c : ClassId} :
    s.userClass? ty = some c ↔ s.registry.Instantiates ty c := by
  rw [userClass?, Option.or_eq_some_iff, classOf?_eq_some_iff, Instantiates]
  constructor
  · rintro (hkey | ⟨-, hbase⟩)
    · exact .inl hkey
    · obtain ⟨base, hbase, hkey⟩ := Option.bind_eq_some_iff.mp hbase
      obtain ⟨args, hargs⟩ := genericBase?_eq_some_iff.mp hbase
      exact .inr ⟨args, base, hargs, classOf?_eq_some_iff.mp hkey⟩
  · rintro (hkey | ⟨args, base, hargs, hkey⟩)
    · exact .inl hkey
    · refine .inr ⟨by rw [classOf?, hargs], Option.bind_eq_some_iff.mpr ⟨base, ?_, ?_⟩⟩
      · exact genericBase?_eq_some_iff.mpr ⟨args, hargs⟩
      · exact classOf?_eq_some_iff.mpr hkey

theorem types_variableOf (ty : TypeId) (lock : Option LockId) :
    (s.variableOf ty lock).types = [ty] ∧ (s.variableOf ty lock).isTypeName = false := by
  rw [variableOf]
  split <;> exact ⟨rfl, rfl⟩

/-- The value of a plain name that is a local variable. -/
theorem types_plainName_local (hlocal : s.model.local? s.function name = some ty) :
    (s.plainName name).types = [ty] ∧ (s.plainName name).isTypeName = false := by
  simp only [plainName, hlocal]
  exact s.types_variableOf ty _

/-- The value of a plain name that is a field and no local variable. -/
theorem types_plainName_field (hlocal : s.model.local? s.function name = none)
    (hfield : s.model.field? s.cls name = some (owner, ty)) :
    (s.plainName name).types = [ty] ∧ (s.plainName name).isTypeName = false := by
  simp only [plainName, hlocal, hfield]
  exact s.types_variableOf ty _

/-- The value of a field as a member of an instance without type arguments. -/
theorem types_classMember {c : ClassId} (hc : s.model.class? c = some cls)
    (hkey : s.registry.key? cls.type = some (.declared c)) (henum : cls.isEnum = false)
    (hthis : name ≠ "this") (hfield : s.model.memberField? c name = some (owner, ty)) :
    (s.classMember cls.type c name).types = [ty] ∧
      (s.classMember cls.type c name).isTypeName = false := by
  have hargs : s.substitute ty owner cls.type = ty := by
    rw [substitute, components?_of_declared hkey]
    rfl
  have hconstant : cls.hasEnumConstant name = false := by rw [Class.hasEnumConstant, henum]; rfl
  simp only [classMember, hc, if_neg hthis, henum, hconstant, hfield, hargs]
  simp only [Bool.false_and, Bool.false_eq_true, if_false]
  split <;> exact ⟨rfl, rfl⟩

theorem value_this (hc : s.model.class? s.cls = some cls) :
    (s.expr mo .this).1 = .of cls.type := by
  rw [expr, classType, hc]
  rfl

theorem valueClass?_this (hc : s.model.class? s.cls = some cls)
    (hkey : s.registry.key? cls.type = some (.declared s.cls)) :
    s.valueClass? mo .this = some s.cls := by
  rw [valueClass?, value_this hc]
  exact userClass?_eq_some_iff.mpr (.inl hkey)

theorem valueClass?_of_types {e : Expr} (h : (s.expr mo e).1.types = [ty])
    (hvalue : (s.expr mo e).1.isTypeName = false) : s.valueClass? mo e = s.userClass? ty := by
  simp only [valueClass?, hvalue, Bool.false_eq_true, if_false, Resolved.single?, h]
  rfl

/-- A member of the instance is a member of its class. -/
theorem types_member_this (mo : MonitorOf) (hc : s.model.class? s.cls = some cls)
    (hkey : s.registry.key? cls.type = some (.declared s.cls))
    (hmember : (s.classMember cls.type s.cls name).types = [ty])
    (hvalue : (s.classMember cls.type s.cls name).isTypeName = false) :
    (s.expr mo (.member .this name)).1.types = [ty] ∧
      (s.expr mo (.member .this name)).1.isTypeName = false := by
  have hresolved : (cls.type == .unresolved) = false := by
    rw [beq_eq_false_iff_ne]
    rintro heq
    rw [heq] at hkey
    cases hkey
  have hmemberOf : s.memberOf name cls.type = s.classMember cls.type s.cls name := by
    have hclass := userClass?_eq_some_iff.mpr (.inl hkey)
    simp only [memberOf, hresolved, isUntracked_of_declared hkey, elementOf?_of_declared hkey,
      hclass, Bool.or_self, Bool.false_eq_true, if_false, Option.isSome_none]
  have hexpr : (s.expr mo (.member .this name)).1 = s.member (.of cls.type) name := by
    show s.member (s.expr mo .this).1 name = _
    rw [value_this hc]
  rw [hexpr, member]
  simp [Resolved.of, Resolved.isUnresolved, hresolved, hmemberOf, hmember, hvalue,
    Ordered.ofList, Ordered.union, Ordered.insert]

/-! ## Monitors -/

/-- The monitor of a field of a type: that of the instance which the field holds, or one named by
the class that declares the field. -/
def fieldMonitor (s : Site) (name : String) (owner : ClassId) (ty : TypeId) : ClassId × String :=
  match s.userClass? ty with
  | some c => (c, "this")
  | none => (owner, name)

theorem fieldMonitor_eq_this {c : ClassId} (h : s.registry.Instantiates ty c) :
    s.fieldMonitor name owner ty = (c, "this") := by
  rw [fieldMonitor, userClass?_eq_some_iff.mpr h]

theorem fieldMonitor_eq_field (h : ∀ c, ¬s.registry.Instantiates ty c) :
    s.fieldMonitor name owner ty = (owner, name) := by
  have hclass : s.userClass? ty = none :=
    Option.eq_none_iff_forall_ne_some.mpr fun c hc => h c (userClass?_eq_some_iff.mp hc)
  rw [fieldMonitor, hclass]

section

variable (h : Model.ofUnits units = .ok s.model) (hc : s.model.class? s.cls = some cls)
  (hfield : s.model.memberField? s.cls name = some (owner, ty))

include h hc hfield

theorem field?_of_memberField? : s.model.field? s.cls name = some (owner, ty) := by
  rw [Model.field?, (Model.wellNested_of_ofUnits h).outerChain_eq hc, List.findSome?_cons, hfield]

/-- The monitor of a plain name is named by the class of the field, whatever the value is. -/
theorem guardMonitor?_ident {value : TypeId} (hmark : Expr.monitorGuard? name = none)
    (hvalue : (s.plainName name).types = [value] ∧ (s.plainName name).isTypeName = false) :
    s.guardMonitor? mo (.ident name) = some (s.fieldMonitor name owner value) := by
  have hname : (s.expr mo (.ident name)).1 = s.plainName name := by
    simp only [expr, Site.name, hmark]
  have hclass : s.valueClass? mo (.ident name) = s.userClass? value :=
    valueClass?_of_types (hname ▸ hvalue.1) (hname ▸ hvalue.2)
  simp only [guardMonitor?, hclass, field?_of_memberField? h hc hfield, fieldMonitor]
  cases s.userClass? value <;> rfl

theorem guardMonitor?_member_this (henum : cls.isEnum = false) (hthis : name ≠ "this") :
    s.guardMonitor? mo (.member .this name) = some (s.fieldMonitor name owner ty) := by
  have hkey : s.registry.key? cls.type = some (.declared s.cls) :=
    ((Model.typed_of_ofUnits h).classes hc).type
  obtain ⟨hmember, hvalue⟩ := types_classMember hc hkey henum hthis hfield
  obtain ⟨htypes, hvalue⟩ := types_member_this mo hc hkey hmember hvalue
  simp only [guardMonitor?, valueClass?_of_types htypes hvalue, valueClass?_this hc hkey,
    Option.bind_some, hfield, fieldMonitor]
  cases s.userClass? ty <;> rfl

end

/-- A field as a guard, by its name and as a member of the instance. -/
structure GuardsAlike (s : Site) (mo : MonitorOf) (name : String) (owner : ClassId) (ty : TypeId) :
    Prop where
  same : s.guardMonitor? mo (.ident name) = s.guardMonitor? mo (.member .this name)
  /-- The value of the field is an instance of a class, which is its own monitor. -/
  of_class : ∀ {c}, s.registry.Instantiates ty c →
    s.guardMonitor? mo (.ident name) = some (c, "this")
  /-- The field of any other type is named by the class that declares it. -/
  of_other : (∀ c, ¬s.registry.Instantiates ty c) →
    s.guardMonitor? mo (.ident name) = some (owner, name)

/-- Where no local name has its fingerprint, a field guards alike by its name and as a member of the
instance. -/
theorem guardsAlike_of_field (h : Model.ofUnits units = .ok s.model)
    (hc : s.model.class? s.cls = some cls) (henum : cls.isEnum = false)
    (hfield : s.model.memberField? s.cls name = some (owner, ty))
    (hlocal : ¬s.model.HasLocal s.function fun v =>
      Text.fingerprint v.name = Text.fingerprint name)
    (hmark : Expr.monitorGuard? name = none) (hthis : name ≠ "this") (mo : MonitorOf) :
    s.GuardsAlike mo name owner ty := by
  have hvalue := types_plainName_field ((Model.local?_eq_none_iff h).mpr hlocal)
    (field?_of_memberField? h hc hfield)
  have hident : s.guardMonitor? mo (.ident name) = some (s.fieldMonitor name owner ty) :=
    guardMonitor?_ident h hc hfield hmark hvalue
  refine ⟨?_, fun hinstance => ?_, fun hnone => ?_⟩
  · rw [hident, guardMonitor?_member_this h hc hfield henum hthis]
  · rw [hident, fieldMonitor_eq_this hinstance]
  · rw [hident, fieldMonitor_eq_field hnone]

/-! ## Two names with one fingerprint -/

/-- The names of a field and of a local variable, which have the same fingerprint. -/
def heldName : String := "monitor_aqewboav_of_the_account_in_this_aaaaauar_registered_here"

def localName : String := "monitor_pqkusyzz_of_the_account_in_this_scuaoaza_registered_here"

/-- An account with two vaults, and a method with a local variable. -/
def vaults : List SourceUnit :=
  let move : MethodDecl := { name := "move", locals := [{ type := "Object", name := localName }] }
  let account : ClassDecl :=
    { name := "Account"
      fields := [{ type := "Vault", name := heldName }, { type := "Vault", name := "vault" }]
      methods := [move] }
  [{ path := "Account.java", classes := [account, { name := "Vault" }] }]

def vaultsBare : Model := (Model.declared vaults).withHierarchy [[], []]

theorem exists_vaults : ∃ m written, Model.ofUnits vaults = .ok m ∧
    Model.Finished vaults vaultsBare m written := by
  have hsupers : (Model.declared vaults).namedSupers = #[[], []] := by decide +kernel
  refine Model.exists_finished_of_flatten ?_
  rw [hsupers]
  cbv

theorem declared_vaults :
    (vaultsBare.class? 0).map (fun cls => (cls.isEnum, cls.decl.fields)) =
        some (false, [{ type := "Vault", name := heldName }, { type := "Vault", name := "vault" }]) ∧
      vaultsBare.lineage 0 = [0] ∧
      vaultsBare.functions.toList.map
          (fun fn => (fn.cls, fn.parent, fn.decl.typeParams, fn.decl.params ++ fn.decl.locals)) =
        [(0, none, [], [{ type := "Object", name := localName }])] := by
  decide +kernel

theorem texts_vaults : vaultsBare.textTree 0 [] "Vault" = .declared 1 ∧
    vaultsBare.textTree 0 [] "Object" = .named "Object" := by
  decide +kernel

/-- One of the fields has the fingerprint of the local variable, the other has not. -/
theorem fingerprint_vaults : Text.fingerprint localName = Text.fingerprint heldName ∧
    Text.fingerprint localName ≠ Text.fingerprint "vault" := by
  decide +kernel

section

variable {m : Model} {written : Registry} (h : Model.Finished vaults vaultsBare m written)

include h

/-- Both fields hold a vault. -/
theorem fields_vaults : ∃ cls, m.class? 0 = some cls ∧ cls.isEnum = false ∧
    ∀ name ∈ [heldName, "vault"], ∃ ty, m.memberField? 0 name = some (0, ty) ∧
      m.registry.Instantiates ty 1 := by
  obtain ⟨hview, hlineage, -⟩ := declared_vaults
  obtain ⟨cls, hc, hview⟩ := h.underlies.exists_class? (fun _ => rfl) hview
  obtain ⟨henum, hdecl⟩ := Prod.mk.inj hview
  have hready := h.ready_registry
  have hfields := h.classes h.adds_members.le hready.interned hc
  have htype : ∀ v ∈ cls.decl.fields, v.type = "Vault" := by simp [hdecl]
  refine ⟨cls, hc, henum, fun name hname => ?_⟩
  have hfound : ∃ v, (cls.decl.fields.reverse.find? fun v => v.name == name) = some v := by
    rw [← Option.isSome_iff_exists, List.find?_isSome]
    obtain rfl | rfl : name = heldName ∨ name = "vault" := by simpa using hname
    · exact ⟨{ type := "Vault", name := heldName }, by simp [hdecl], by simp⟩
    · exact ⟨{ type := "Vault", name := "vault" }, by simp [hdecl], by simp⟩
  obtain ⟨v, hv⟩ := hfound
  have hmem : v ∈ cls.decl.fields := List.mem_reverse.mp (List.mem_of_find?_eq_some hv)
  obtain ⟨hcovers, htree⟩ := (hfields.texts v hmem).type hready
  refine ⟨m.typeIn m.registry 0 [] v.type, ?_, .inl ?_⟩
  · simp [Model.memberField?, h.underlies.names.lineage, hlineage, hc, hfields.fieldType?, hv]
  · rw [htype v hmem, h.underlies.names.textTree, texts_vaults.1] at htree
    rw [htype v hmem] at hcovers ⊢
    exact hready.interned.key?_of_tree hcovers (.declared 1) (f := m.registry.tree) rfl htree

theorem function_vaults : ∃ fn, m.function? 0 = some fn ∧ fn.cls = 0 ∧ fn.parent = none ∧
    fn.decl.typeParams = [] ∧
    fn.decl.params ++ fn.decl.locals = [{ type := "Object", name := localName }] := by
  obtain ⟨-, -, hview⟩ := declared_vaults
  have hget := congrArg (·[0]?) hview
  simp only [List.getElem?_map, Array.getElem?_toList, List.getElem?_cons_zero,
    Option.map_eq_some_iff, Prod.mk.injEq] at hget
  obtain ⟨before, hbefore, hcls', hparent', hdecl'⟩ := hget
  obtain ⟨fn, hfn, hcls, hparent, hdecl⟩ := h.underlies.outline.symm.function? hbefore
  rw [hcls] at hcls'
  rw [hparent] at hparent'
  rw [hdecl] at hdecl'
  exact ⟨fn, hfn, hcls', hparent', hdecl'⟩

theorem hasLocal_vaults {p : VariableDecl → Prop} :
    m.HasLocal 0 p ↔ p { type := "Object", name := localName } := by
  obtain ⟨fn, hfn, -, hparent, -, hlocals⟩ := function_vaults h
  simp [Model.hasLocal_iff hfn, hparent, hlocals]

/-- The name of the field finds the local variable, which holds no instance of a declared class. -/
theorem local_vaults (hm : Model.ofUnits vaults = .ok m) : ∃ value,
    m.local? 0 heldName = some value ∧ ∀ c, ¬m.registry.Instantiates value c := by
  obtain ⟨fn, hfn, hcls, hparent, hparams, hlocals⟩ := function_vaults h
  have hready := h.ready_registry
  have hsignature := h.functions h.adds_members.le hready.interned hfn
  have htypes : ∀ ty, ty ∈ fn.locals.typesOf heldName →
      m.registry.key? ty = some (.named "Object") := by
    intro ty hty
    obtain ⟨v, hv, -, rfl⟩ := hsignature.locals.mp hty
    obtain ⟨hcovers, htree⟩ := (hsignature.texts v hv).type hready
    rw [hlocals, List.mem_singleton] at hv
    rw [hv, hcls, hparams] at htree hcovers ⊢
    rw [h.underlies.names.textTree, texts_vaults.2] at htree
    exact hready.interned.key?_of_tree hcovers (.named "Object") (f := m.registry.tree) rfl htree
  obtain ⟨value, hvalue⟩ : ∃ value, m.local? 0 heldName = some value := by
    rw [← Option.ne_none_iff_exists', Ne, Model.local?_eq_none_iff hm, hasLocal_vaults h, not_not]
    exact fingerprint_vaults.1
  refine ⟨value, hvalue, fun c hinstance => ?_⟩
  rw [(Model.wellNested_of_ofUnits hm).local?_eq heldName hfn, hparent] at hvalue
  have hkey : m.registry.key? value = some (.named "Object") ∨ value = .unknown := by
    simp only [Option.bind_none, Option.or_none, Function.localType?] at hvalue
    split at hvalue
    · cases hvalue
    · next hone =>
      cases hvalue
      exact .inl (htypes value (by simp [hone]))
    · exact .inr (Option.some.inj hvalue).symm
  obtain hkey | rfl := hkey
  · obtain hclass | ⟨args, base, hargs, -⟩ := hinstance
    · cases hkey.symm.trans hclass
    · cases hkey.symm.trans hargs
  · obtain hclass | ⟨args, base, hargs, -⟩ := hinstance
    · cases hclass
    · cases hargs

end

theorem vaults_guardsAlike : ∃ s cls ty, Model.ofUnits vaults = .ok s.model ∧
    (∃ fn, s.model.function? 0 = some fn ∧ s = siteOf s.model .java (fun _ => none) 0 fn) ∧
    s.model.class? s.cls = some cls ∧ cls.isEnum = false ∧
    s.model.memberField? s.cls "vault" = some (0, ty) ∧
    (¬s.model.HasLocal s.function fun v =>
      Text.fingerprint v.name = Text.fingerprint "vault") ∧
    Expr.monitorGuard? "vault" = none ∧ "vault" ≠ "this" ∧
    s.GuardsAlike s.monitor "vault" 0 ty := by
  obtain ⟨m, written, hm, hfinished⟩ := exists_vaults
  obtain ⟨cls, hc, henum, hfields⟩ := fields_vaults hfinished
  obtain ⟨fn, hfn, hcls, -⟩ := function_vaults hfinished
  obtain ⟨ty, hfield, -⟩ := hfields "vault" (by simp)
  have hlocal : ¬m.HasLocal 0 fun v => Text.fingerprint v.name = Text.fingerprint "vault" := by
    rw [hasLocal_vaults hfinished]
    exact fingerprint_vaults.2
  have hmark : Expr.monitorGuard? "vault" = none := by decide +kernel
  have hthis : "vault" ≠ "this" := by decide
  let s : Site :=
    { model := m, language := .java, function := 0, cls := 0, readGuard := fun _ => none }
  exact ⟨s, cls, ty, hm, ⟨fn, hfn, by rw [siteOf, hcls]⟩, hc, henum, hfield, hlocal, hmark, hthis,
    guardsAlike_of_field hm hc henum hfield hlocal hmark hthis _⟩

/-- It is not enough that no local variable has the name of the field: by its name the field is taken
for the local variable of the same fingerprint. -/
theorem vaults_not_alike : ∃ s cls ty, Model.ofUnits vaults = .ok s.model ∧
    (∃ fn, s.model.function? 0 = some fn ∧ s = siteOf s.model .java (fun _ => none) 0 fn) ∧
    s.model.class? s.cls = some cls ∧ cls.isEnum = false ∧
    s.model.memberField? s.cls heldName = some (0, ty) ∧
    (¬s.model.HasLocal s.function fun v => v.name = heldName) ∧
    Expr.monitorGuard? heldName = none ∧ heldName ≠ "this" ∧
    s.guardMonitor? s.monitor (.ident heldName) = some (0, heldName) ∧
    s.guardMonitor? s.monitor (.member .this heldName) = some (1, "this") := by
  obtain ⟨m, written, hm, hfinished⟩ := exists_vaults
  obtain ⟨cls, hc, henum, hfields⟩ := fields_vaults hfinished
  obtain ⟨fn, hfn, hcls, -⟩ := function_vaults hfinished
  obtain ⟨ty, hfield, hinstance⟩ := hfields heldName (by simp)
  obtain ⟨value, hvalue, hnone⟩ := local_vaults hfinished hm
  have hmark : Expr.monitorGuard? heldName = none := by decide +kernel
  have hthis : heldName ≠ "this" := by decide
  have hlocal : ¬m.HasLocal 0 fun v => v.name = heldName := by
    rw [hasLocal_vaults hfinished]
    decide
  let s : Site :=
    { model := m, language := .java, function := 0, cls := 0, readGuard := fun _ => none }
  refine ⟨s, cls, ty, hm, ⟨fn, hfn, by rw [siteOf, hcls]⟩, hc, henum, hfield, hlocal, hmark, hthis,
    ?_, ?_⟩
  · rw [guardMonitor?_ident (s := s) hm hc hfield hmark (types_plainName_local hvalue),
      fieldMonitor_eq_field (s := s) hnone]
  · rw [guardMonitor?_member_this (s := s) hm hc hfield henum hthis,
      fieldMonitor_eq_this (s := s) hinstance]

end Interlock.CallGraph.Site
