import Mathlib.Data.List.TakeWhile
import Interlock.Proofs.Program.QualifiedNames
import Interlock.Proofs.Program.StoredTypes

/-! Scopes of class names. Inside a class, a name without a point means the class that belongs to
the innermost scope around the place: the scope itself if it has the name, or else the first nested
class of the name along its lineage. A name is first looked for among the qualified names, though,
and the qualified name of a top-level class of the default package is its plain name; so such a
class takes the name away from every scope of the program. -/

namespace Interlock.Program.Model

open Interlock.Text

variable {units : List SourceUnit} {m : Model} {c d scope : ClassId} {name text : String}

/-! ## The scopes around a class -/

/-- The first of a list with a property. -/
def IsFirst (cs : List ClassId) (P : ClassId → Prop) (c : ClassId) : Prop :=
  ∃ before after, cs = before ++ c :: after ∧ P c ∧ ∀ d ∈ before, ¬P d

theorem IsFirst.holds {cs : List ClassId} {P : ClassId → Prop} (h : IsFirst cs P c) : P c := by
  obtain ⟨_, _, -, hc, -⟩ := h
  exact hc

theorem find?_eq_some_iff_isFirst {p : ClassId → Bool} {cs : List ClassId} :
    cs.find? p = some c ↔ IsFirst cs (fun d => p d = true) c := by
  rw [List.find?_eq_some_iff_append]
  constructor
  · rintro ⟨hc, before, after, hcs, hbefore⟩
    exact ⟨before, after, hcs, hc, fun d hd => by simpa using hbefore d hd⟩
  · rintro ⟨before, after, hcs, hc, hbefore⟩
    exact ⟨hc, before, after, hcs, fun d hd => by simpa using hbefore d hd⟩

/-- A search goes through the first element that it finds something at. -/
theorem findSome?_eq_some_iff_isFirst {f : ClassId → Option ClassId} {P : ClassId → Prop}
    (hP : ∀ a, (f a).isSome = true ↔ P a) {cs : List ClassId} :
    cs.findSome? f = some d ↔ ∃ a, IsFirst cs P a ∧ f a = some d := by
  rw [List.findSome?_eq_some_iff]
  constructor
  · rintro ⟨before, a, after, hcs, ha, hbefore⟩
    refine ⟨a, ⟨before, after, hcs, (hP a).mp (Option.isSome_of_eq_some ha), fun x hx => ?_⟩, ha⟩
    rw [← hP, hbefore x hx]
    exact Bool.false_ne_true
  · rintro ⟨a, ⟨before, after, hcs, -, hbefore⟩, ha⟩
    refine ⟨before, a, after, hcs, ha, fun x hx => ?_⟩
    have hnone := hbefore x hx
    rwa [← hP, Option.not_isSome_iff_eq_none] at hnone

/-- A class of a simple name. -/
def Named (m : Model) (name : String) (c : ClassId) : Prop :=
  ∃ cls, m.class? c = some cls ∧ cls.name = name

/-- A class with a nested class of a name. -/
def HasNested (m : Model) (name : String) (owner : ClassId) : Prop :=
  ∃ cls, m.class? owner = some cls ∧ ∃ n ∈ cls.nested, m.Named name n

/-- A class that offers a name as a scope: it is called so, or a nested class of it or of one above
it is. -/
def Offers (m : Model) (name : String) (scope : ClassId) : Prop :=
  m.Named name scope ∨ ∃ owner ∈ m.lineage scope, m.HasNested name owner

/-- The class of a name that belongs to a scope: the scope itself before nested classes, its own
ones before those of the classes above it. -/
inductive BelongsTo (m : Model) (name : String) (scope : ClassId) : ClassId → Prop
  | itself : m.Named name scope → BelongsTo m name scope scope
  | nested {owner c : ClassId} {cls : Class} : ¬m.Named name scope →
    IsFirst (m.lineage scope) (m.HasNested name) owner → m.class? owner = some cls →
    IsFirst cls.nested (m.Named name) c → BelongsTo m name scope c

/-- The class that a name means by the scopes around a class: the one that belongs to the innermost
scope that offers the name. -/
def InScope (m : Model) (c : ClassId) (name : String) (d : ClassId) : Prop :=
  ∃ scope, IsFirst (m.outerChain c) (m.Offers name) scope ∧ m.BelongsTo name scope d

theorem any_class?_iff_named :
    ((m.class? c).any fun cls => cls.name == name) = true ↔ m.Named name c := by
  simp [Named, Option.any_eq_true]

theorem nestedClass?_eq_some_iff : m.nestedClass? scope name = some c ↔
    ∃ owner cls, IsFirst (m.lineage scope) (m.HasNested name) owner ∧
      m.class? owner = some cls ∧ IsFirst cls.nested (m.Named name) c := by
  rw [nestedClass?, findSome?_eq_some_iff_isFirst (P := m.HasNested name) fun owner => ?_]
  · refine exists_congr fun owner => ?_
    simp only [Option.bind_eq_bind, Option.bind_eq_some_iff, find?_eq_some_iff_isFirst,
      any_class?_iff_named, exists_and_left]
  · cases hcls : m.class? owner with
    | none => simp [HasNested, hcls]
    | some cls => simp [HasNested, hcls, List.find?_isSome, any_class?_iff_named]

theorem exists_isFirst_iff {cs : List ClassId} {P : ClassId → Prop} :
    (∃ c, IsFirst cs P c) ↔ ∃ c ∈ cs, P c := by
  classical
  have hfind : (cs.find? fun c => decide (P c)).isSome = true ↔ ∃ c ∈ cs, P c := by simp
  rw [← hfind, Option.isSome_iff_exists]
  refine exists_congr fun c => ?_
  rw [find?_eq_some_iff_isFirst]
  simp only [decide_eq_true_eq]

theorem isSome_nestedClass?_iff : (m.nestedClass? scope name).isSome = true ↔
    ∃ owner ∈ m.lineage scope, m.HasNested name owner := by
  rw [Option.isSome_iff_exists, ← exists_isFirst_iff]
  simp only [nestedClass?_eq_some_iff]
  constructor
  · rintro ⟨_, owner, _, howner, -⟩
    exact ⟨owner, howner⟩
  · rintro ⟨owner, howner⟩
    obtain ⟨cls, hcls, hnested⟩ := howner.holds
    obtain ⟨c, hc⟩ := exists_isFirst_iff.mpr hnested
    exact ⟨c, owner, cls, howner, hcls, hc⟩

/-- The class that a scope gives for a name. -/
def offered? (m : Model) (name : String) (scope : ClassId) : Option ClassId :=
  match m.class? scope with
  | some cls => if cls.name == name then some scope else m.nestedClass? scope name
  | none => none

/-- Only a class of the model has nested classes, its own ones or inherited ones. -/
theorem nestedClass?_of_class?_none (h : m.class? scope = none) :
    m.nestedClass? scope name = none := by
  simp [nestedClass?, lineage, h]

theorem offered?_of_named (h : m.Named name scope) : m.offered? name scope = some scope := by
  obtain ⟨cls, hcls, hname⟩ := h
  simp [offered?, hcls, hname]

theorem offered?_of_not_named (h : ¬m.Named name scope) :
    m.offered? name scope = m.nestedClass? scope name := by
  unfold offered?
  cases hcls : m.class? scope with
  | none => exact (nestedClass?_of_class?_none hcls).symm
  | some cls =>
    have hname : cls.name ≠ name := fun hname => h ⟨cls, hcls, hname⟩
    simp [hname]

theorem offered?_eq_some_iff : m.offered? name scope = some c ↔ m.BelongsTo name scope c := by
  by_cases hnamed : m.Named name scope
  · rw [offered?_of_named hnamed, Option.some.injEq]
    constructor
    · rintro rfl
      exact .itself hnamed
    · intro hbelongs
      cases hbelongs with
      | itself => rfl
      | nested hnot => exact absurd hnamed hnot
  · rw [offered?_of_not_named hnamed, nestedClass?_eq_some_iff]
    constructor
    · rintro ⟨owner, cls, howner, hcls, hc⟩
      exact .nested hnamed howner hcls hc
    · intro hbelongs
      cases hbelongs with
      | itself hself => exact absurd hself hnamed
      | nested _ howner hcls hc => exact ⟨_, _, howner, hcls, hc⟩

theorem isSome_offered?_iff : (m.offered? name scope).isSome = true ↔ m.Offers name scope := by
  by_cases hnamed : m.Named name scope
  · rw [offered?_of_named hnamed]
    exact iff_of_true rfl (.inl hnamed)
  · rw [offered?_of_not_named hnamed, isSome_nestedClass?_iff]
    exact ⟨.inr, fun hoffers => hoffers.resolve_left hnamed⟩

/-- The search through the scopes finds the class of the innermost one. -/
theorem scoped?_eq_some_iff : m.scoped? c name = some d ↔ m.InScope c name d := by
  have hscoped : m.scoped? c name = (m.outerChain c).findSome? (m.offered? name) := rfl
  rw [hscoped, findSome?_eq_some_iff_isFirst fun _ => isSome_offered?_iff]
  simp only [offered?_eq_some_iff, InScope]

theorem exists_class?_of_scoped? (h : m.scoped? c name = some d) :
    ∃ origin, m.class? c = some origin := by
  cases hc : m.class? c with
  | some origin => exact ⟨origin, rfl⟩
  | none =>
    have hchain : m.outerChain c = [c] := by
      unfold outerChain
      cases m.classes.size <;> simp [outerChainAt, hc]
    simp [scoped?, hchain, hc] at h

theorem exists_offers_of_scoped? (h : m.scoped? c name = some d) :
    ∃ scope ∈ m.outerChain c, m.Offers name scope := by
  obtain ⟨scope, hscope, -⟩ := scoped?_eq_some_iff.mp h
  exact exists_isFirst_iff.mp ⟨scope, hscope⟩

/-- A name that some scope around a class offers means exactly one class by these scopes. -/
theorem exists_scoped?_of_offers (h : ∃ scope ∈ m.outerChain c, m.Offers name scope) :
    ∃ d, m.scoped? c name = some d ∧ ∀ e, m.InScope c name e ↔ e = d := by
  obtain ⟨scope, hscope⟩ := exists_isFirst_iff.mpr h
  obtain ⟨d, hd⟩ := Option.isSome_iff_exists.mp (isSome_offered?_iff.mpr hscope.holds)
  have hscoped := scoped?_eq_some_iff.mpr ⟨scope, hscope, offered?_eq_some_iff.mp hd⟩
  refine ⟨d, hscoped, fun e => ?_⟩
  rw [← scoped?_eq_some_iff, hscoped, Option.some.injEq, eq_comm]

/-! ## The default package -/

/-- A top-level class of the default package with a name. -/
def InDefaultPackage (m : Model) (name : String) (c : ClassId) : Prop :=
  ∃ cls, m.class? c = some cls ∧ cls.outer = none ∧ cls.package = "" ∧ cls.name = name

/-- The last of the top-level classes of the default package with a name. -/
def LastInDefaultPackage (m : Model) (name : String) (c : ClassId) : Prop :=
  m.InDefaultPackage name c ∧ ∀ d, m.InDefaultPackage name d → d ≤ c

theorem find?_reverse_range_eq_some_iff {p : Nat → Bool} {size : Nat} :
    (List.range size).reverse.find? p = some c ↔
      (c < size ∧ p c = true) ∧ ∀ d, d < size → p d = true → d ≤ c := by
  induction size with
  | zero => simp
  | succ size ih =>
    rw [List.range_succ, List.reverse_append, List.reverse_singleton, List.singleton_append,
      List.find?_cons]
    cases hlast : p size with
    | true =>
      constructor
      · intro heq
        cases heq
        exact ⟨⟨Nat.lt_succ_self _, hlast⟩, fun d hd _ => Nat.le_of_lt_succ hd⟩
      · rintro ⟨⟨hlt, -⟩, hmax⟩
        have hle := hmax size (Nat.lt_succ_self _) hlast
        rw [Nat.le_antisymm (Nat.le_of_lt_succ hlt) hle]
    | false =>
      have hbelow : ∀ d, d < size + 1 ∧ p d = true ↔ d < size ∧ p d = true := by
        intro d
        constructor
        · rintro ⟨hlt, hd⟩
          have hne : d ≠ size := by
            rintro rfl
            rw [hlast] at hd
            cases hd
          exact ⟨by omega, hd⟩
        · rintro ⟨hlt, hd⟩
          exact ⟨by omega, hd⟩
      rw [ih]
      simp only [hbelow, ← and_imp]

/-- A name without a point is the qualified name of the top-level classes of the default package
that have it, and of no other class. -/
theorem inDefaultPackage_iff (h : ofUnits units = .ok m) (hpoint : '.' ∉ name.toList) :
    m.InDefaultPackage name c ↔ ∃ cls, m.class? c = some cls ∧ cls.qualifiedName = name := by
  refine exists_congr fun cls => and_congr_right fun hcls => ?_
  constructor
  · rintro ⟨houter, hpackage, hname⟩
    rw [qualifiedName_of_topLevel h hcls houter, hpackage, hname]
    rfl
  · intro hqualified
    have houter : cls.outer = none := by
      rw [← Option.not_isSome_iff_eq_none]
      intro hsome
      exact hpoint (hqualified ▸ point_mem_qualifiedName h hcls hsome)
    have hfull := qualifiedName_of_topLevel h hcls houter
    rw [hqualified] at hfull
    have hpackage : cls.package = "" := by
      by_contra hne
      refine hpoint ?_
      rw [hfull]
      simp [inPackage, hne]
    rw [hpackage] at hfull
    exact ⟨houter, hpackage, hfull.symm⟩

theorem qualified?_eq_some_iff (h : ofUnits units = .ok m) (hpoint : '.' ∉ name.toList) :
    m.qualified? name = some c ↔ m.LastInDefaultPackage name c := by
  have hlast : ∀ p : Nat → Bool, (∀ d, d < m.classes.size ∧ p d = true ↔
      m.InDefaultPackage name d) → ((List.range m.classes.size).reverse.find? p = some c ↔
        m.LastInDefaultPackage name c) := by
    intro p hp
    rw [find?_reverse_range_eq_some_iff, hp]
    simp only [← and_imp, hp, LastInDefaultPackage]
  refine hlast _ fun d => ?_
  rw [inDefaultPackage_iff h hpoint, class?]
  cases hcls : m.classes[d]? with
  | none => simp
  | some cls => simpa using fun _ => (Array.getElem?_eq_some_iff.mp hcls).1

/-! ## The class of a name -/

theorem cutFirst?_eq_none {sep : Char} (h : sep ∉ text.toList) : cutFirst? sep text = none := by
  have hrest : text.toList.dropWhile (· != sep) = [] := by
    refine List.dropWhile_eq_nil_iff.mpr fun x hx => ?_
    simp only [bne_iff_ne, ne_eq]
    rintro rfl
    exact h hx
  rw [cutFirst?, hrest]

/-- A name without a point means the class that has it as its qualified name, before any class of a
scope. -/
theorem locate?_eq_or_scoped? (hbare : bareName text = name) (hname : name ≠ "")
    (hpoint : '.' ∉ name.toList) (hscoped : m.scoped? c name = some d) :
    m.locate? text (some c) = (m.qualified? name).or (some d) := by
  obtain ⟨origin, horigin⟩ := exists_class?_of_scoped? hscoped
  simp only [locate?, hbare, String.isEmpty_iff, hname, if_false, cutFirst?_eq_none hpoint,
    locateSimple?, horigin, hscoped]
  cases m.qualified? name <;> rfl

/-- A name that a scope around a class offers means the class of the innermost such scope if and
only if no other class of the default package has the name at the top level, or the last of them is
that class; in every other case it means the last of them. -/
theorem locate_innermost_iff (h : ofUnits units = .ok m) (hbare : bareName text = name)
    (hname : name ≠ "") (hpoint : '.' ∉ name.toList)
    (hoffers : ∃ scope ∈ m.outerChain c, m.Offers name scope) :
    ∃ d, (∀ e, m.InScope c name e ↔ e = d) ∧
      (m.locate? text (some c) = some d ↔ ∀ e, m.LastInDefaultPackage name e → e = d) ∧
      ∀ e, m.LastInDefaultPackage name e → m.locate? text (some c) = some e := by
  obtain ⟨d, hscoped, hunique⟩ := exists_scoped?_of_offers hoffers
  have hlocate := locate?_eq_or_scoped? hbare hname hpoint hscoped
  refine ⟨d, hunique, ?_, fun e he => ?_⟩
  · rw [hlocate]
    cases hqualified : m.qualified? name with
    | none =>
      refine iff_of_true rfl fun e he => ?_
      rw [← qualified?_eq_some_iff h hpoint, hqualified] at he
      cases he
    | some e =>
      simp only [Option.some_or, Option.some.injEq, ← qualified?_eq_some_iff h hpoint, hqualified]
      exact ⟨fun hed x hx => hx ▸ hed, fun hall => hall e rfl⟩
  · rw [hlocate, (qualified?_eq_some_iff h hpoint).mpr he, Option.some_or]

/-- A class with a nested class, and one of the same name in the default package. -/
def orders : List SourceUnit :=
  let order : ClassDecl := { name := "Order", nested := [{ name := "Line" }] }
  [{ path := "Order.java", package := "shop", classes := [order] },
    { path := "Line.java", classes := [{ name := "Line" }] }]

def ordersBare : Model := (declared orders).withHierarchy [[], [], []]

theorem exists_orders : ∃ m, ofUnits orders = .ok m ∧ ordersBare.SameNames m := by
  have hsupers : (declared orders).namedSupers = #[[], [], []] := by decide +kernel
  have hflatten : (declared orders).namedSupers.flatten = .ok [[], [], []] := by
    rw [hsupers]
    cbv
  obtain ⟨m, written, hm, hfinished⟩ := exists_finished_of_flatten hflatten
  exact ⟨m, hm, hfinished.underlies.names⟩

theorem scoped?_orders :
    ordersBare.scoped? 1 "Order" = some 0 ∧ ordersBare.scoped? 0 "Line" = some 1 := by
  decide +kernel

theorem qualified?_orders :
    ordersBare.qualified? "Order" = none ∧ ordersBare.qualified? "Line" = some 2 := by
  decide +kernel

/-- The class with the nested one is found from inside, as no other one has its name. -/
theorem orders_innermost : ∃ m, ofUnits orders = .ok m ∧
    (∀ e, m.InScope 1 "Order" e ↔ e = 0) ∧ m.locate? "Order" (some 1) = some 0 := by
  obtain ⟨m, hm, hnames⟩ := exists_orders
  have hscoped : m.scoped? 1 "Order" = some 0 := by rw [hnames.scoped?, scoped?_orders.1]
  have hbare : bareName "Order" = "Order" := by decide +kernel
  have hpoint : '.' ∉ "Order".toList := by decide
  obtain ⟨d, hunique, hiff, -⟩ := locate_innermost_iff hm hbare (by decide) hpoint
    (exists_offers_of_scoped? hscoped)
  obtain rfl : 0 = d := (hunique 0).mp (scoped?_eq_some_iff.mp hscoped)
  refine ⟨m, hm, hunique, hiff.mpr fun e he => ?_⟩
  rw [← qualified?_eq_some_iff hm hpoint, hnames.qualified?, qualified?_orders.1] at he
  cases he

/-- The nested class is not found from the class around it: the one of the default package is. -/
theorem orders_not_innermost : ∃ m, ofUnits orders = .ok m ∧
    (∃ scope ∈ m.outerChain 0, m.Offers "Line" scope) ∧ (∀ e, m.InScope 0 "Line" e ↔ e = 1) ∧
    m.locate? "Line" (some 0) = some 2 := by
  obtain ⟨m, hm, hnames⟩ := exists_orders
  have hscoped : m.scoped? 0 "Line" = some 1 := by rw [hnames.scoped?, scoped?_orders.2]
  have hbare : bareName "Line" = "Line" := by decide +kernel
  refine ⟨m, hm, exists_offers_of_scoped? hscoped, fun e => ?_, ?_⟩
  · rw [← scoped?_eq_some_iff, hscoped, Option.some.injEq, eq_comm]
  · rw [locate?_eq_or_scoped? hbare (by decide) (by decide) hscoped, hnames.qualified?,
      qualified?_orders.2, Option.some_or]

end Interlock.Program.Model
