import Interlock.CallGraph.Dispatch
import Interlock.Proofs.Program.Resolution
import Interlock.Proofs.Program.Subclasses

/-! Who may be called. Every look-up of a function gives one that the model has and that is of the
kind looked for. Where a call fans out, the walk over the classes below the receiver meets exactly
the classes that have it as an ancestor, so that no override is missed and none is made up. -/

namespace Interlock.Program

/-- A method that is declared directly in a class, under a name. -/
structure Function.IsMember (fn : Function) (name : String) : Prop where
  parent : fn.parent = none
  isConstructor : fn.isConstructor = false
  name_eq : fn.name = name

namespace Model

variable {units : List SourceUnit} {m : Model} {c d : ClassId} {f : FunctionId} {name : String}
  {args : ArgTypes}

/-! ## What is found is there -/

theorem mem_of_best? {candidates : List FunctionId} (h : m.best? candidates args = some f) :
    f ∈ candidates := by
  rcases Option.or_eq_some_iff.mp h with h | ⟨-, h⟩
  · exact List.mem_of_find?_eq_some h
  · exact List.mem_of_find?_eq_some h

theorem exists_of_mem_functionsWhere {p : Function → Bool} (h : f ∈ m.functionsWhere c p) :
    ∃ fn, m.function? f = some fn ∧ p fn = true := by
  have hp := (List.mem_filter.mp h).2
  cases hf : m.function? f with
  | none => simp [hf] at hp
  | some fn => exact ⟨fn, rfl, by simpa [hf] using hp⟩

theorem isMember_of_findInClass? (h : m.findInClass? name args c = some f) :
    ∃ fn, m.function? f = some fn ∧ fn.IsMember name := by
  obtain ⟨fn, hfn, hp⟩ := exists_of_mem_functionsWhere (mem_of_best? h)
  simp only [Bool.and_eq_true, Option.isNone_iff_eq_none, Bool.not_eq_true', beq_iff_eq] at hp
  exact ⟨fn, hfn, hp.1.1, hp.1.2, hp.2⟩

theorem hasBody_eq_true :
    m.hasBody f = true ↔ ∃ fn, m.function? f = some fn ∧ fn.isAbstract = false := by
  unfold hasBody
  cases m.function? f <;> simp

theorem bodyInClass?_eq_some :
    m.bodyInClass? name args c = some f ↔
      m.findInClass? name args c = some f ∧ m.hasBody f = true :=
  Option.filter_eq_some_iff

/-! ## The declaration that a call means -/

/-- The first match around a class, where each class is searched before the ones above it. -/
def meaning? (m : Model) (c : ClassId) (name : String) (args : ArgTypes) : Option FunctionId :=
  (m.outerChain c).findSome? fun scope => (m.lineage scope).findSome? (m.findInClass? name args)

theorem isMember_of_meaning? (h : m.meaning? c name args = some f) :
    ∃ fn, m.function? f = some fn ∧ fn.IsMember name := by
  obtain ⟨scope, -, hscope⟩ := List.exists_of_findSome?_eq_some h
  obtain ⟨owner, -, howner⟩ := List.exists_of_findSome?_eq_some hscope
  exact isMember_of_findInClass? howner

theorem isMember_of_implementation? (h : m.implementation? name args d = some f) :
    m.hasBody f = true ∧ ∃ fn, m.function? f = some fn ∧ fn.IsMember name := by
  obtain ⟨owner, -, howner⟩ := List.exists_of_findSome?_eq_some h
  obtain ⟨hfind, hbody⟩ := bodyInClass?_eq_some.mp howner
  exact ⟨hbody, isMember_of_findInClass? hfind⟩

/-- The body of a class itself comes before those above it. -/
theorem implementation?_of_findInClass? (h : m.findInClass? name args d = some f)
    (hbody : m.hasBody f = true) : m.implementation? name args d = some f := by
  unfold implementation? lineage
  rw [List.findSome?_cons, bodyInClass?_eq_some.mpr ⟨h, hbody⟩]

/-! ## Fan-out -/

/-- A call on a class goes to the classes below it: the class is an interface, or nothing with a
body was found. -/
def FansOut (m : Model) (c : ClassId) (name : String) (args : ArgTypes) : Prop :=
  (∃ cls, m.class? c = some cls ∧ cls.isInterface = true) ∨ m.meaning? c name args = none ∨
    ∃ f fn, m.meaning? c name args = some f ∧ m.function? f = some fn ∧ fn.isAbstract = true

theorem fansOut_iff :
    m.FansOut c name args ↔ ((m.class? c).any (·.isInterface) ||
      ((m.meaning? c name args).filter m.hasBody).toList.isEmpty) = true := by
  have hinterface : (∃ cls, m.class? c = some cls ∧ cls.isInterface = true) ↔
      (m.class? c).any (·.isInterface) = true := by
    cases m.class? c <;> simp
  rw [FansOut, Bool.or_eq_true, hinterface]
  refine or_congr_right ?_
  cases hfound : m.meaning? c name args with
  | none => simp
  | some f =>
    obtain ⟨fn, hfn, -⟩ := isMember_of_meaning? hfound
    cases habstract : fn.isAbstract <;> simp [hasBody, hfn, habstract, Option.filter]

/-- The callees of a call, as the walk over the classes below collects them. -/
theorem mem_callees_iff :
    f ∈ (m.dispatch c name args).callees ↔
      (m.meaning? c name args = some f ∧ m.hasBody f = true) ∨
        (m.FansOut c name args ∧
          ∃ d ∈ m.supers.transitiveSubclasses c, m.implementation? name args d = some f) := by
  have hcallees : (m.dispatch c name args).callees =
      Ordered.ofList (((m.meaning? c name args).filter m.hasBody).toList ++
        if ((m.class? c).any (·.isInterface) ||
          ((m.meaning? c name args).filter m.hasBody).toList.isEmpty) = true then
          (m.supers.transitiveSubclasses c).filterMap (m.implementation? name args)
        else []) := rfl
  have hown : f ∈ ((m.meaning? c name args).filter m.hasBody).toList ↔
      m.meaning? c name args = some f ∧ m.hasBody f = true := by
    rw [Option.mem_toList, Option.filter_eq_some_iff]
  rw [hcallees, Ordered.mem_ofList, List.mem_append, hown, fansOut_iff]
  refine or_congr_right ?_
  split
  · next hfan => simp only [hfan, List.mem_filterMap, true_and]
  · next hfan => simp only [hfan, List.not_mem_nil, Bool.false_eq_true, false_and]

/-- What the callees of a call are in a finished model. -/
structure Dispatches (m : Model) (c : ClassId) (name : String) (args : ArgTypes) : Prop where
  declared : (m.dispatch c name args).declared = m.meaning? c name args
  /-- A call that fans out runs what was found, if it has a body, and what the instances of the
  classes below run. -/
  fansOut : m.FansOut c name args → ∀ f, f ∈ (m.dispatch c name args).callees ↔
    (m.meaning? c name args = some f ∧ m.hasBody f = true) ∨
      ∃ d cls, m.class? d = some cls ∧ c ∈ cls.ancestors ∧ m.implementation? name args d = some f
  /-- A class below with a body of its own contributes it. -/
  overrides : m.FansOut c name args → ∀ {d cls f}, m.class? d = some cls → c ∈ cls.ancestors →
    m.findInClass? name args d = some f → m.hasBody f = true → f ∈ (m.dispatch c name args).callees
  /-- Any other call runs what was found. -/
  direct : ¬ m.FansOut c name args → ∀ f, f ∈ (m.dispatch c name args).callees ↔
    m.meaning? c name args = some f
  members : ∀ f ∈ (m.dispatch c name args).callees, ∃ fn, m.function? f = some fn ∧
    fn.isAbstract = false ∧ fn.IsMember name

theorem mem_transitiveSubclasses_iff (h : m.Layered) :
    d ∈ m.supers.transitiveSubclasses c ↔ ∃ cls, m.class? d = some cls ∧ c ∈ cls.ancestors := by
  rw [Supertypes.mem_transitiveSubclasses h.wellFounded]
  constructor
  · intro hc
    obtain ⟨s, hs, -⟩ := Relation.TransGen.head'_iff.mp
      ((Supertypes.mem_ancestorsOf h.inRange).mp hc)
    have hlt : d < m.classes.size := h.size_supers ▸ hs.lt_size
    have hget : m.class? d = some m.classes[d] := Array.getElem?_eq_getElem hlt
    exact ⟨_, hget, h.ancestors hget ▸ hc⟩
  · rintro ⟨cls, hcls, hc⟩
    exact h.ancestors hcls ▸ hc

theorem isMember_of_mem_callees (h : f ∈ (m.dispatch c name args).callees) :
    ∃ fn, m.function? f = some fn ∧ fn.isAbstract = false ∧ fn.IsMember name := by
  have hfound : m.hasBody f = true ∧ ∃ fn, m.function? f = some fn ∧ fn.IsMember name := by
    rcases mem_callees_iff.mp h with ⟨hmeaning, hbody⟩ | ⟨-, d, -, hd⟩
    · exact ⟨hbody, isMember_of_meaning? hmeaning⟩
    · exact isMember_of_implementation? hd
  obtain ⟨hbody, fn, hfn, hmember⟩ := hfound
  obtain ⟨fn', hfn', habstract⟩ := hasBody_eq_true.mp hbody
  obtain rfl : fn = fn' := Option.some.inj (hfn.symm.trans hfn')
  exact ⟨fn, hfn, habstract, hmember⟩

/-- Dispatch is complete and exact in every finished model. -/
theorem dispatches_of_ofUnits (h : ofUnits units = .ok m) (c : ClassId) (name : String)
    (args : ArgTypes) : m.Dispatches c name args := by
  have hlayered := layered_of_ofUnits h
  have hbelow : ∀ f, (∃ d ∈ m.supers.transitiveSubclasses c,
      m.implementation? name args d = some f) ↔
      ∃ d cls, m.class? d = some cls ∧ c ∈ cls.ancestors ∧
        m.implementation? name args d = some f := by
    intro f
    simp only [mem_transitiveSubclasses_iff hlayered]
    constructor
    · rintro ⟨d, ⟨cls, hcls, hc⟩, hd⟩
      exact ⟨d, cls, hcls, hc, hd⟩
    · rintro ⟨d, cls, hcls, hc, hd⟩
      exact ⟨d, ⟨cls, hcls, hc⟩, hd⟩
  refine ⟨rfl, fun hfan f => ?_, fun hfan d cls f hcls hc hd hbody => ?_, fun hdirect f => ?_,
    fun f hf => isMember_of_mem_callees hf⟩
  · rw [mem_callees_iff, hbelow]
    simp only [hfan, true_and]
  · refine mem_callees_iff.mpr (.inr ⟨hfan, (hbelow f).mpr ⟨d, cls, hcls, hc, ?_⟩⟩)
    exact implementation?_of_findInClass? hd hbody
  · rw [mem_callees_iff]
    simp only [hdirect, false_and, or_false]
    refine and_iff_left_of_imp fun hmeaning => ?_
    -- what was found has a body, or else the call would fan out
    obtain ⟨fn, hfn, -⟩ := isMember_of_meaning? hmeaning
    refine hasBody_eq_true.mpr ⟨fn, hfn, ?_⟩
    by_contra habstract
    exact hdirect (.inr (.inr ⟨f, fn, hmeaning, hfn, by simpa using habstract⟩))

/-- In the example, a call of `area` on the interface fans out to the body in the class below. -/
theorem shapes_dispatches : ∃ m, ofUnits shapes = .ok m ∧ m.FansOut 0 "area" [] ∧
    1 ∈ (m.dispatch 0 "area" []).callees ∧ m.Dispatches 0 "area" [] := by
  obtain ⟨m, hm, hsupers⟩ := exists_shapes
  have hdispatches := dispatches_of_ofUnits hm 0 "area" []
  have houtline := (sameOutline_of_ofUnits hm).symm
  have hshape : ((Numbered.ofUnits shapes).toModel.class? 0).map (·.isInterface) = some true := by
    decide +kernel
  obtain ⟨cls, hcls, hkind⟩ := Option.map_eq_some_iff.mp hshape
  obtain ⟨shape, hget, -, -, -, hdecl⟩ := houtline.class? hcls
  have hfan : m.FansOut 0 "area" [] :=
    .inl ⟨shape, hget, by simpa [Class.isInterface, hdecl] using hkind⟩
  have hsquare : ((Numbered.ofUnits shapes).toModel.class? 1).map (·.methods) = some [1] := by
    decide +kernel
  obtain ⟨cls, hcls, hmethods⟩ := Option.map_eq_some_iff.mp hsquare
  obtain ⟨square, hsquare, -, -, hsame, -⟩ := houtline.class? hcls
  have harea : ((Numbered.ofUnits shapes).toModel.function? 1).map (fun fn =>
      (fn.parent, fn.isConstructor, fn.name, fn.isAbstract, fn.decl.params.length)) =
      some (none, false, "area", false, 0) := by decide +kernel
  obtain ⟨fn, hfn, hfields⟩ := Option.map_eq_some_iff.mp harea
  obtain ⟨area, harea, -, hparent, hdecl⟩ := houtline.function? hfn
  simp only [Function.isConstructor, Function.name, Function.isAbstract, hparent, hdecl,
    Prod.mk.injEq] at hfields
  have hparams : area.params = [] := by
    have harity := ((typed_of_ofUnits hm).functions harea).1.arity
    rw [hfields.2.2.2.2] at harity
    exact List.eq_nil_of_length_eq_zero harity
  have hfind : m.findInClass? "area" [] 1 = some 1 := by
    simp [findInClass?, functionsWhere, hsquare, ← hsame, hmethods, harea, best?, fit?, paramsFit?,
      hparams, hfields, Function.isConstructor, Function.name]
  have habove : 0 ∈ square.ancestors := by
    refine ((layered_of_ofUnits hm).mem_ancestors hsquare 0).mpr (.single ?_)
    rw [Supertypes.Names, hsupers]
    decide
  have hbody : m.hasBody 1 = true := by
    simp [hasBody, harea, Function.isAbstract, hfields]
  exact ⟨m, hm, hfan, hdispatches.overrides hfan hsquare habove hfind hbody, hdispatches⟩

end Model

end Interlock.Program
