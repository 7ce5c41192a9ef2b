import Interlock.Proofs.Program.QualifiedNames
import Interlock.Source.Reading

/-! Namespaces of C# files. A type is declared inside the namespaces around it, and a file may have
many of these; but a unit has one package for all its types. The package is the namespace that the
last file-scoped declaration names, or else that of the first type that is in one. So the types of
a file keep their namespaces exactly if they are all in the one that becomes the package. -/

namespace Interlock.Source.CSharp

open Interlock.Program Interlock.Program.Model

/-! ## What a file declares -/

/-- The name that some namespaces have together, the outermost first. -/
def joined (names : List String) : String := names.foldl inPackage ""

theorem joined_concat (names : List String) (name : String) :
    joined (names ++ [name]) = inPackage (joined names) name := by
  simp [joined]

/-- Names that are not empty are joined by points. -/
theorem joined_eq_intercalate {names : List String} (h : ∀ name ∈ names, name ≠ "") :
    joined names = ".".intercalate names := by
  induction names using List.reverseRecOn with
  | nil => rfl
  | append_singleton names name ih =>
    rw [joined_concat, ih fun s hs => h s (List.mem_append_left _ hs)]
    by_cases hnames : names = []
    · simp [hnames, inPackage]
    · have hne : ".".intercalate names ≠ "" := by
        obtain ⟨first, rest, rfl⟩ := List.exists_cons_of_ne_nil hnames
        cases rest with
        | nil => simpa using h first (by simp)
        | cons second rest => simp
      rw [inPackage, if_neg (by simpa using hne),
        String.intercalate_append_of_ne_nil hnames (List.cons_ne_nil _ _),
        String.intercalate_singleton]

/-- A type with the namespaces that it is declared directly inside, the outermost first. -/
structure PlacedType where
  spaces : List String
  decl : ClassDecl

namespace PlacedType

def space (t : PlacedType) : String := joined t.spaces

/-- The names of the namespaces and of the type, joined. -/
def fullName (t : PlacedType) : String := joined (t.spaces ++ [t.decl.name])

theorem fullName_eq (t : PlacedType) : t.fullName = inPackage t.space t.decl.name :=
  joined_concat t.spaces t.decl.name

end PlacedType

/-- What a file declares: types, and namespaces for what follows in the file. -/
inductive Mark where
  | type (t : PlacedType)
  | fileScoped (name : String)

def Mark.type? : Mark → Option PlacedType
  | type t => some t
  | fileScoped _ => none

def Mark.fileScoped? : Mark → Option String
  | type _ => none
  | fileScoped name => some name

/-- The namespaces that hold after a member of a file: a file-scoped one holds what follows. -/
def spacesAfter (spaces : List String) (c : Node) : List String :=
  if c.kind = "file_scoped_namespace_declaration" then ((c.textAt? "name").map ([·])).getD spaces
  else spaces

/-- What some members of a file declare inside some namespaces, in source order. A namespace with a
body is inside those around it. -/
def marks (spaces : List String) : List Node → List Mark
  | [] => []
  | c :: cs =>
    if c.named = false then marks spaces cs
    else if c.kind = "namespace_declaration" then
      (match c.child? "body" with
        | some body => marks (spaces ++ [(c.textAt? "name").getD ""]) body.children
        | none => []) ++ marks spaces cs
    else if c.kind = "file_scoped_namespace_declaration" then
      ((c.textAt? "name").map .fileScoped).toList ++ marks (spacesAfter spaces c) c.children ++
        marks (spacesAfter spaces c) cs
    else ((classDecl c).map fun d => .type ⟨spaces, d⟩).toList ++ marks spaces cs
termination_by ns => Node.countAll ns
decreasing_by
  all_goals simp only [Node.countAll, c.count_eq]
  · omega
  · have hbody := body.count_lt
    rw [Node.count_eq, c.count_eq] at hbody
    omega
  all_goals omega

/-- The types of a file, in source order. -/
def placedTypes (root : Node) : List PlacedType := (marks [] root.children).filterMap Mark.type?

/-- The names of the file-scoped namespaces of a file, in source order. -/
def fileScopedNames (root : Node) : List String :=
  (marks [] root.children).filterMap Mark.fileScoped?

/-! ## The walk over a file -/

/-- What a declaration does to the package of the unit. -/
def Mark.settle (package : String) : Mark → String
  | type t => if package.isEmpty then t.space else package
  | fileScoped name => name

/-- A walk that has met some declarations. -/
structure Met (ms : List Mark) (u u' : SourceUnit) : Prop where
  classes : u'.classes = u.classes ++ (ms.filterMap Mark.type?).map (·.decl)
  package : u'.package = ms.foldl Mark.settle u.package

namespace Met

variable {ms ms' : List Mark} {u u' u'' : SourceUnit}

theorem of_eq (hclasses : u'.classes = u.classes) (hpackage : u'.package = u.package) :
    Met [] u u' :=
  ⟨by simp [hclasses], hpackage⟩

theorem refl (u : SourceUnit) : Met [] u u := of_eq rfl rfl

theorem trans (h : Met ms u u') (k : Met ms' u' u'') : Met (ms ++ ms') u u'' :=
  ⟨by rw [k.classes, h.classes]; simp, by rw [k.package, h.package, List.foldl_append]⟩

end Met

theorem classDecl_eq_none {n : Node} (h : classKind? n.kind = none) : classDecl n = none := by
  rw [classDecl, h]

theorem marks_cons {c : Node} (hc : c.named = true) (spaces : List String) (cs : List Node) :
    marks spaces (c :: cs) = marks spaces [c] ++ marks (spacesAfter spaces c) cs := by
  by_cases hblock : c.kind = "namespace_declaration"
  · simp [marks, hc, hblock, spacesAfter]
  · by_cases hfile : c.kind = "file_scoped_namespace_declaration"
    · simp [marks, hc, hfile, spacesAfter]
    · simp [marks, hc, hblock, hfile, spacesAfter]

/-- Tokens without a name declare nothing. -/
theorem marks_filter_named (spaces : List String) (ns : List Node) :
    marks spaces (ns.filter (·.named)) = marks spaces ns := by
  induction ns generalizing spaces with
  | nil => rfl
  | cons c cs ih =>
    by_cases hc : c.named = true
    · rw [List.filter_cons_of_pos hc, marks_cons hc, marks_cons hc spaces cs, ih]
    · rw [List.filter_cons_of_neg hc, ih, marks, if_pos (Bool.eq_false_of_not_eq_true hc)]

theorem map_namedChildren (n : Node) :
    n.namedChildren.map (·.toNode) = n.children.filter (·.named) := by
  have hparts : n.parts.map (·.toNode) = n.children := by simp [Node.parts]
  rw [← hparts, List.filter_map]
  rfl

/-- A walk that meets each member meets them all. -/
theorem met_foldl {n : Node} {step : String × SourceUnit → n.Below → String × SourceUnit}
    (hstep : ∀ spaces u c, c.named = true →
      (step (joined spaces, u) c).1 = joined (spacesAfter spaces c.toNode) ∧
        Met (marks spaces [c.toNode]) u (step (joined spaces, u) c).2)
    (spaces : List String) (u : SourceUnit) :
    Met (marks spaces n.children) u (n.namedChildren.foldl step (joined spaces, u)).2 := by
  rw [← marks_filter_named, ← map_namedChildren]
  have hnamed : ∀ c ∈ n.namedChildren, c.named = true := fun c hc => (List.mem_filter.mp hc).2
  generalize n.namedChildren = cs at hnamed
  induction cs generalizing spaces u with
  | nil =>
    rw [List.map_nil, marks]
    exact Met.refl u
  | cons c cs ih =>
    have hc := hnamed c List.mem_cons_self
    obtain ⟨hspace, hmet⟩ := hstep spaces u c hc
    rw [List.map_cons, marks_cons hc, List.foldl_cons, ← Prod.eta (step (joined spaces, u) c),
      hspace]
    exact hmet.trans (ih _ _ fun d hd => hnamed d (List.mem_cons_of_mem c hd))

/-- The walk below a node meets what the node declares, in order. -/
theorem met_namespaceMembers (n : Node) (spaces : List String) (u : SourceUnit) :
    Met (marks spaces n.children) u (namespaceMembers (joined spaces) n u) := by
  induction hcount : n.count using Nat.strong_induction_on generalizing n spaces u with
  | _ count ih =>
    subst hcount
    rw [namespaceMembers]
    refine met_foldl (fun spaces u c hc => ?_) spaces u
    dsimp only
    split
    -- an import: no declaration of a type
    · next hkind =>
      have hnone : classDecl c.toNode = none := classDecl_eq_none (by rw [hkind]; rfl)
      simp only [spacesAfter, marks, hc, hkind, hnone]
      split
      · exact ⟨rfl, Met.of_eq rfl rfl⟩
      · exact ⟨rfl, Met.refl u⟩
    -- a namespace with a body, which the namespaces after it do not see
    · next hkind =>
      simp only [spacesAfter, marks, hc, hkind, List.append_nil]
      cases hbody : c.child? "body" with
      | none => exact ⟨rfl, Met.refl u⟩
      | some body =>
        have hinner := ih _ (c.lift body).count_lt body.toNode
          (spaces ++ [(c.textAt? "name").getD ""]) u rfl
        rw [joined_concat] at hinner
        exact ⟨rfl, hinner⟩
    -- a file-scoped namespace: the package changes before anything below it is met
    · next hkind =>
      simp only [spacesAfter, marks, hc, hkind, List.append_nil]
      cases hname : c.textAt? "name" with
      | none => exact ⟨rfl, ih _ c.count_lt c.toNode spaces u rfl⟩
      | some name =>
        have hset : Met [.fileScoped name] u { u with package := name } :=
          ⟨(List.append_nil _).symm, rfl⟩
        exact ⟨rfl, hset.trans (ih _ c.count_lt c.toNode [name] _ rfl)⟩
    -- a type, or a member that declares nothing
    · next _ hblock hfile =>
      have hmarks : marks spaces [c.toNode] =
          ((classDecl c.toNode).map fun d => Mark.type ⟨spaces, d⟩).toList := by
        rw [marks, if_neg (by simp [hc]), if_neg hblock, if_neg hfile, marks, List.append_nil]
      rw [spacesAfter, if_neg hfile, hmarks]
      cases hd : classDecl c.toNode with
      | none => exact ⟨rfl, Met.refl u⟩
      | some d => exact ⟨rfl, rfl, rfl⟩

/-! ## The package of a file -/

variable {path source : String} {tree : Outline} {root : Node} {units : List SourceUnit} {m : Model}
  {index : Nat} {u : SourceUnit}

/-- Types alone give the namespace of the first of them that is in one. -/
theorem settle_of_types {ms : List Mark} (h : ms.filterMap Mark.fileScoped? = []) :
    ms.foldl Mark.settle "" =
      (((ms.filterMap Mark.type?).map PlacedType.space).find? (· != "")).getD "" := by
  induction ms using List.reverseRecOn with
  | nil => rfl
  | append_singleton ms mark ih =>
    rw [List.filterMap_append, List.append_eq_nil_iff] at h
    cases mark with
    | fileScoped name => cases h.2
    | type t =>
      rw [List.foldl_append, List.foldl_cons, List.foldl_nil, ih h.1, List.filterMap_append,
        List.map_append, List.find?_append]
      show (if _ then t.space else _) = _
      cases hfind : ((ms.filterMap Mark.type?).map PlacedType.space).find? (· != "") with
      | some first =>
        have hfirst := List.find?_some hfind
        simp_all
      | none => by_cases ht : t.space = "" <;> simp [Mark.type?, ht]

/-- After a file-scoped namespace no type changes the package any more. -/
theorem settle_of_fileScoped {ms : List Mark} {name : String} (hname : name ≠ "")
    (h : (ms.filterMap Mark.fileScoped?).getLast? = some name) :
    ms.foldl Mark.settle "" = name := by
  induction ms using List.reverseRecOn with
  | nil => cases h
  | append_singleton ms mark ih =>
    rw [List.filterMap_append] at h
    rw [List.foldl_append, List.foldl_cons, List.foldl_nil]
    cases mark with
    | fileScoped last => simpa [Mark.fileScoped?, Mark.settle] using h
    | type t =>
      have hbefore : (ms.filterMap Mark.fileScoped?).getLast? = some name := by
        simpa [Mark.fileScoped?] using h
      simp [ih hbefore, Mark.settle, hname]

theorem met_unit (path : String) (root : Node) :
    Met (marks [] root.children) { path } (unit path root) :=
  met_namespaceMembers root [] { path }

theorem classes_unit (path : String) (root : Node) :
    (unit path root).classes = (placedTypes root).map (·.decl) :=
  (met_unit path root).classes

/-! ## Types in a model -/

/-- The types of a file stand in a model with all their namespaces, in order. -/
def KeepsNamespaces (m : Model) (index : Nat) (types : List PlacedType) : Prop :=
  List.Forall₂ (fun cls t => cls.decl = t.decl ∧ cls.qualifiedName = t.fullName)
    (m.topLevelsOf index) types

theorem map_eq_map_iff_forall₂ {α β γ : Type} {f : α → γ} {g : β → γ} {as : List α}
    {bs : List β} : as.map f = bs.map g ↔ List.Forall₂ (fun a b => f a = g b) as bs := by
  rw [← List.forall₂_eq_eq_eq, List.forall₂_map_left_iff, List.forall₂_map_right_iff]

/-- The types of a file in a model are those that the file declares, inside its package. -/
theorem forall₂_topLevelsOf (hm : Model.ofUnits units = .ok m)
    (hu : units[index]? = some (unit path root)) :
    List.Forall₂ (fun cls t => cls.decl = t.decl ∧
        cls.qualifiedName = inPackage (unit path root).package t.decl.name)
      (m.topLevelsOf index) (placedTypes root) := by
  have htops := topLevelsOf_of_ofUnits hm hu
  rw [classes_unit, List.map_map, map_eq_map_iff_forall₂] at htops
  refine htops.imp fun cls t heq => ?_
  have hname := congrArg Class.qualifiedName heq
  exact ⟨congrArg Class.decl heq, hname.trans (Numbered.Place.qualifiedName_ofUnit _ _ _)⟩

theorem forall₂_iff_forall {α β : Type} {R S : α → β → Prop} {P : β → Prop}
    (hR : ∀ {a b}, R a b → (S a b ↔ P b)) {as : List α} {bs : List β} (h : List.Forall₂ R as bs) :
    List.Forall₂ S as bs ↔ ∀ b ∈ bs, P b := by
  induction h with
  | nil => simp
  | cons hab _ ih => simp [hR hab, ih]

/-- A type keeps its namespaces exactly if they are the package of its file. -/
theorem forall₂_keeps_iff (hm : Model.ofUnits units = .ok m)
    (hu : units[index]? = some (unit path root)) :
    List.Forall₂ (fun cls t => cls.decl = t.decl ∧
        (cls.qualifiedName = t.fullName ↔ t.space = (unit path root).package))
      (m.topLevelsOf index) (placedTypes root) := by
  refine (forall₂_topLevelsOf hm hu).imp fun cls t h => ⟨h.1, ?_⟩
  rw [h.2, PlacedType.fullName_eq, inPackage_inj, eq_comm]

/-- The types of a file are all in the namespace of the first one that is in one exactly if they are
all in the same one. -/
theorem forall_space_eq_iff (types : List PlacedType) :
    (∀ t ∈ types, t.space = ((types.map PlacedType.space).find? (· != "")).getD "") ↔
      ∀ s ∈ types, ∀ t ∈ types, s.space = t.space := by
  constructor
  · intro h s hs t ht
    rw [h s hs, h t ht]
  · intro h t ht
    cases hfind : (types.map PlacedType.space).find? (· != "") with
    | none => simpa using List.find?_eq_none.mp hfind t.space (List.mem_map_of_mem ht)
    | some first =>
      obtain ⟨s, hs, rfl⟩ := List.mem_map.mp (List.mem_of_find?_eq_some hfind)
      exact h t ht s hs

theorem eq_unit_of_readUnit (h : readUnit .csharp path source tree = .ok u) :
    u = unit path (tree.toNode source.toUTF8) := by
  simp only [readUnit] at h
  cases hcheck : checkTree path source.toUTF8 (tree.toNode source.toUTF8) with
  | error fault => rw [hcheck] at h; cases h
  | ok _ => rw [hcheck] at h; cases h; rfl

/-- What becomes of the namespaces of a file's types in a model: a type keeps them exactly if they
are the package of the unit. The package is the namespace of the first type in one, or the last
file-scoped one. So a file without file-scoped namespaces keeps all namespaces exactly if its types
are all in the same one. -/
theorem readUnit_namespaces (hread : readUnit .csharp path source tree = .ok u)
    (hu : units[index]? = some u) (hm : Model.ofUnits units = .ok m) :
    let types := placedTypes (tree.toNode source.toUTF8)
    let headings := fileScopedNames (tree.toNode source.toUTF8)
    List.Forall₂ (fun cls t => cls.decl = t.decl ∧
        (cls.qualifiedName = t.fullName ↔ t.space = u.package)) (m.topLevelsOf index) types ∧
    (KeepsNamespaces m index types ↔ ∀ t ∈ types, t.space = u.package) ∧
    (headings = [] → u.package = ((types.map PlacedType.space).find? (· != "")).getD "" ∧
      (KeepsNamespaces m index types ↔ ∀ s ∈ types, ∀ t ∈ types, s.space = t.space)) ∧
    ∀ name, headings.getLast? = some name → name ≠ "" → u.package = name := by
  intro types headings
  obtain rfl := eq_unit_of_readUnit hread
  have htypes := forall₂_keeps_iff hm hu
  have hkeeps : KeepsNamespaces m index types ↔
      ∀ t ∈ types, t.space = (unit path (tree.toNode source.toUTF8)).package :=
    forall₂_iff_forall (fun h => by rw [h.2, and_iff_right h.1]) htypes
  have hpackage := (met_unit path (tree.toNode source.toUTF8)).package
  refine ⟨htypes, hkeeps, fun hnone => ?_, fun name hlast hname => ?_⟩
  · have hfirst := hpackage.trans (settle_of_types hnone)
    refine ⟨hfirst, hkeeps.trans ?_⟩
    rw [hfirst]
    exact forall_space_eq_iff types
  · exact hpackage.trans (settle_of_fileScoped hname hlast)

/-- A file with two namespaces. -/
def bank : String :=
  "namespace Bank \x7b class Account \x7b\x7d \x7d namespace Audit \x7b class Entry \x7b\x7d \x7d"

def bankTree : Outline :=
  .mk "compilation_unit" "" 0 70 [
    .mk "namespace_declaration" "" 0 35 [
      .mk "'namespace" "" 0 9 [],
      .mk "identifier" "name" 10 14 [],
      .mk "declaration_list" "body" 15 35 [
        .mk "class_declaration" "" 17 33 [
          .mk "'class" "" 17 22 [],
          .mk "identifier" "name" 23 30 [],
          .mk "declaration_list" "body" 31 33 []]]],
    .mk "namespace_declaration" "" 36 70 [
      .mk "'namespace" "" 36 45 [],
      .mk "identifier" "name" 46 51 [],
      .mk "declaration_list" "body" 52 70 [
        .mk "class_declaration" "" 54 68 [
          .mk "'class" "" 54 59 [],
          .mk "identifier" "name" 60 65 [],
          .mk "declaration_list" "body" 66 68 []]]]]

/-- A file with a namespace inside another one. -/
def audit : String := "namespace Bank \x7b namespace Audit \x7b class Entry \x7b\x7d \x7d \x7d"

def auditTree : Outline :=
  .mk "compilation_unit" "" 0 53 [
    .mk "namespace_declaration" "" 0 53 [
      .mk "'namespace" "" 0 9 [],
      .mk "identifier" "name" 10 14 [],
      .mk "declaration_list" "body" 15 53 [
        .mk "namespace_declaration" "" 17 51 [
          .mk "'namespace" "" 17 26 [],
          .mk "identifier" "name" 27 32 [],
          .mk "declaration_list" "body" 33 51 [
            .mk "class_declaration" "" 35 49 [
              .mk "'class" "" 35 40 [],
              .mk "identifier" "name" 41 46 [],
              .mk "declaration_list" "body" 47 49 []]]]]]]

def bankUnit : SourceUnit := unit "Bank.cs" (bankTree.toNode bank.toUTF8)

def auditUnit : SourceUnit := unit "Audit.cs" (auditTree.toNode audit.toUTF8)

theorem reads_bank : readUnit .csharp "Bank.cs" bank bankTree = .ok bankUnit ∧
    readUnit .csharp "Audit.cs" audit auditTree = .ok auditUnit := by
  have hfaults : (bankTree.toNode bank.toUTF8).firstFault?.isNone = true ∧
      (auditTree.toNode audit.toUTF8).firstFault?.isNone = true := by decide +kernel
  constructor
  · simp only [readUnit, checkTree, Option.isNone_iff_eq_none.mp hfaults.1]
    rfl
  · simp only [readUnit, checkTree, Option.isNone_iff_eq_none.mp hfaults.2]
    rfl

theorem exists_bank : ∃ m, Model.ofUnits [bankUnit, auditUnit] = .ok m := by
  have hsupers : (declared [bankUnit, auditUnit]).namedSupers = #[[], [], []] := by decide +kernel
  have hflatten : (declared [bankUnit, auditUnit]).namedSupers.flatten = .ok [[], [], []] := by
    rw [hsupers]
    cbv
  obtain ⟨m, hm, -⟩ := (exists_ofUnits_iff _).mpr ⟨_, hflatten⟩
  exact ⟨m, hm⟩

theorem fullNames_bank :
    (placedTypes (bankTree.toNode bank.toUTF8)).map PlacedType.fullName =
      ["Bank.Account", "Audit.Entry"] ∧
    (placedTypes (auditTree.toNode audit.toUTF8)).map PlacedType.fullName =
      ["Bank.Audit.Entry"] := by
  decide +kernel

theorem fileScopedNames_audit : fileScopedNames (auditTree.toNode audit.toUTF8) = [] := by
  decide +kernel

/-- The one type of the second file keeps both its namespaces. -/
theorem audit_keepsNamespaces : ∃ m, readUnit .csharp "Audit.cs" audit auditTree = .ok auditUnit ∧
    Model.ofUnits [bankUnit, auditUnit] = .ok m ∧
    KeepsNamespaces m 1 (placedTypes (auditTree.toNode audit.toUTF8)) := by
  obtain ⟨m, hm⟩ := exists_bank
  have hu : [bankUnit, auditUnit][1]? = some auditUnit := rfl
  obtain ⟨-, -, hsame, -⟩ := readUnit_namespaces reads_bank.2 hu hm
  refine ⟨m, reads_bank.2, hm, (hsame fileScopedNames_audit).2.mpr fun s hs t ht => ?_⟩
  obtain ⟨entry, hentry, -⟩ := List.map_eq_singleton_iff.mp fullNames_bank.2
  rw [hentry, List.mem_singleton] at hs ht
  rw [hs, ht]

/-- The second type of the first file gets the namespace of the first one. -/
theorem bank_loses_namespace : ∃ m, readUnit .csharp "Bank.cs" bank bankTree = .ok bankUnit ∧
    Model.ofUnits [bankUnit, auditUnit] = .ok m ∧
    (placedTypes (bankTree.toNode bank.toUTF8)).map PlacedType.fullName =
      ["Bank.Account", "Audit.Entry"] ∧
    (m.topLevelsOf 0).map (·.qualifiedName) = ["Bank.Account", "Bank.Entry"] ∧
    ¬KeepsNamespaces m 0 (placedTypes (bankTree.toNode bank.toUTF8)) := by
  obtain ⟨m, hm⟩ := exists_bank
  have hu : [bankUnit, auditUnit][0]? = some bankUnit := rfl
  have hnames : (m.topLevelsOf 0).map (·.qualifiedName) = ["Bank.Account", "Bank.Entry"] := by
    rw [map_eq_map_iff_forall₂.mpr ((forall₂_topLevelsOf hm hu).imp fun _ _ h => h.2)]
    decide +kernel
  refine ⟨m, reads_bank.1, hm, fullNames_bank.1, hnames, fun hkeeps => ?_⟩
  have hfull := map_eq_map_iff_forall₂.mpr (hkeeps.imp fun _ _ h => h.2)
  rw [hnames, fullNames_bank.1] at hfull
  revert hfull
  decide

end Interlock.Source.CSharp
