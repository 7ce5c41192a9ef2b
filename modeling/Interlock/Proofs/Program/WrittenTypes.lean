import Interlock.Proofs.Program.Lexicon
import Interlock.Proofs.Types.Substitution

/-! Written types and their trees. What a text means as a type is a tree that only names decide;
resolving the text registers a type with this tree and nothing besides it, in whatever order the
texts of a program are resolved. -/

namespace Interlock.Types

/-- The type of a simple name that nothing declares. -/
def TypeTree.ofName (name : String) : TypeTree :=
  match primitiveNamed? name with
  | some p => .primitive p
  | none =>
    match Primitive.all.find? fun p => p.name == name with
    | some p => .primitive p
    | none =>
      if untrackedNames.contains name || builtinNames.contains name then .named name else .unknown

namespace Registry

variable {r : Registry}

theorem find?_registerAll {key : TypeKey} (keys : List TypeKey) (hkey : key ∈ keys) (r : Registry) :
    ∃ ty, (r.registerAll keys).find? key = some ty := by
  induction keys generalizing r with
  | nil => simp at hkey
  | cons first keys ih =>
    rcases List.mem_cons.mp hkey with rfl | hkey
    · exact ⟨_, find?_mono (find?_register r key) (le_registerAll keys _)⟩
    · exact ih hkey _

theorem exists_find?_named {name : String}
    (h : (untrackedNames.contains name || builtinNames.contains name) = true) :
    ∃ ty, withoutObjectSet.find? (.named name) = some ty := by
  rw [withoutObjectSet]
  refine find?_registerAll initialKeys ?_ _
  rw [initialKeys, List.mem_append]
  exact .inr (List.mem_map.mpr ⟨name, by simpa using h, rfl⟩)

theorem withoutObjectSet_le_initial : withoutObjectSet ≤ initial := by
  rw [initial]
  exact le_registerAll [objectSetKey] withoutObjectSet

/-- Names that nothing declares have their types from the start. -/
theorem Interned.tree_named? (h : r.Interned) (hle : withoutObjectSet ≤ r) (name : String) :
    r.Covers ((r.named? name).getD .unknown) ∧
      r.tree ((r.named? name).getD .unknown) = .ofName name := by
  have hprimitive : ∀ p, r.Covers (primitive p) ∧ r.tree (primitive p) = .primitive p := by
    intro p
    have hkey := key?_mono (primitives_key? p) (le_trans primitives_le_withoutObjectSet hle)
    exact ⟨covers_of_key? hkey, h.tree_eq hkey⟩
  rw [named?, TypeTree.ofName]
  cases primitiveNamed? name with
  | some p => exact hprimitive p
  | none =>
    cases Primitive.all.find? fun p => p.name == name with
    | some p => exact hprimitive p
    | none =>
      by_cases hname : (untrackedNames.contains name || builtinNames.contains name) = true
      · obtain ⟨ty, hty⟩ := exists_find?_named hname
        have hfind := find?_mono hty hle
        have hkey := key?_of_find? hfind
        rw [if_pos hname, if_pos hname, hfind]
        exact ⟨covers_of_key? hkey, h.tree_eq hkey⟩
      · rw [if_neg hname, if_neg hname]
        exact ⟨trivial, tree_unknown r⟩

end Registry

end Interlock.Types

namespace Interlock.Program.Model

open Interlock.Types Interlock.Types.Registry

variable (m : Model) {r s : Registry}

/-! ## The tree of a text -/

/-- The tree of a name without its generic arguments. -/
def baseTree (scope : ClassId) (t : TypeExpr) : TypeTree :=
  if untrackedNames.contains t.simpleName then .ofName t.simpleName
  else match kindNamed t.simpleName with
    | .lock => .primitive .lock
    | .script => .primitive .script
    | _ =>
      match m.locate? t.name (some scope) with
      | some c => .declared c
      | none => .ofName t.simpleName

/-- The tree of a type parameter that is visible inside a class. -/
def paramTree? (c : ClassId) (name : String) : Option TypeTree :=
  (m.outerChain c).findSome? fun scope => do
    let cls ← m.class? scope
    let index ← cls.decl.typeParams.findIdx? (· == name)
    return .param scope index

/-- The tree of a name that stands for no class. -/
def specialTree? (scope : ClassId) (methodParams : List String) (name : String)
    (generic : Bool) : Option TypeTree :=
  if (!generic && name == "void") || name == "?" then some .unknown
  else if name.toList.contains '.' then none
  else if methodParams.contains name then some .unknown
  else m.paramTree? scope name

def arrayTree : Nat → TypeTree → TypeTree
  | 0, τ => τ
  | dims + 1, τ => .array (arrayTree dims τ)

section

variable (scope : ClassId) (methodParams : List String)

mutual

/-- The tree that an expression means inside a class. -/
def writtenTree : TypeExpr → TypeTree
  | .mk name args dims =>
    match m.specialTree? scope methodParams name (!args.isEmpty) with
    | some τ => arrayTree dims τ
    | none =>
      let base := m.baseTree scope (.mk name args dims)
      match args with
      | [] => arrayTree dims base
      | arg :: rest =>
        arrayTree dims (.compound (writtenTree arg :: writtenTrees rest ++ [base]))

def writtenTrees : List TypeExpr → List TypeTree
  | [] => []
  | t :: ts => writtenTree t :: writtenTrees ts

end

/-- The tree that a text means inside a class; a text that is no type is unknown. -/
def textTree (text : String) : TypeTree :=
  match TypeExpr.parse? text with
  | some t => m.writtenTree scope methodParams t
  | none => .unknown

end

/-! ## Resolving a text -/

/-- A registry that holds what a text may refer to: the library types, the classes and their type
parameters. -/
structure Ready (r : Registry) : Prop where
  interned : r.Interned
  initial_le : initial ≤ r
  declared : ∀ c < m.classes.size, r.Holds (.declared c)
  params : ∀ {c cls}, m.class? c = some cls → ∀ i < cls.decl.typeParams.length,
    r.Holds (.param c i)

variable {m}

theorem Ready.mono (h : m.Ready r) (hle : r ≤ s) (hs : s.Interned) : m.Ready s where
  interned := hs
  initial_le := le_trans h.initial_le hle
  declared c hc := h.interned.holds_mono hs hle (h.declared c hc)
  params hc i hi := h.interned.holds_mono hs hle (h.params hc i hi)

theorem Ready.tree_named? (h : m.Ready r) (name : String) :
    r.Covers ((r.named? name).getD .unknown) ∧
      r.tree ((r.named? name).getD .unknown) = .ofName name :=
  h.interned.tree_named? (le_trans withoutObjectSet_le_initial h.initial_le) name

theorem Ready.tree_primitive (h : m.Ready r) (p : Primitive) :
    r.Covers (primitive p) ∧ r.tree (primitive p) = .primitive p := by
  have hkey := key?_primitive h.initial_le p
  exact ⟨covers_of_key? hkey, h.interned.tree_eq hkey⟩

theorem Ready.kindOf_lock (h : m.Ready r) : r.kindOf (primitive .lock) = .lock := by
  rw [h.interned.kind (key?_primitive h.initial_le .lock), kindFor]

theorem Ready.tree_baseType (h : m.Ready r) (scope : ClassId) (t : TypeExpr) :
    r.Covers (m.baseType r scope t) ∧ r.tree (m.baseType r scope t) = m.baseTree scope t := by
  unfold baseType baseTree
  dsimp only
  by_cases huntracked : untrackedNames.contains t.simpleName = true
  · rw [if_pos huntracked, if_pos huntracked]
    exact h.tree_named? _
  · rw [if_neg huntracked, if_neg huntracked]
    cases hc : m.locate? t.name (some scope) with
    | some c =>
      obtain ⟨ty, hfind, hty⟩ := h.interned.find?_of_holds (.declared c) (f := r.tree) rfl
        (h.declared c (lt_size_of_locate? hc))
      simp only [classType?, hfind, Option.getD_some]
      cases kindNamed t.simpleName with
      | lock => exact h.tree_primitive .lock
      | script => exact h.tree_primitive .script
      | _ => exact hty
    | none =>
      have hnamed := h.tree_named? t.simpleName
      cases kindNamed t.simpleName with
      | lock => exact h.tree_primitive .lock
      | script => exact h.tree_primitive .script
      | _ => exact hnamed

theorem Ready.map_tree_paramIn? (h : m.Ready r) (c : ClassId) (name : String) :
    (m.paramIn? r c name).map r.tree = m.paramTree? c name := by
  rw [paramIn?, paramTree?, List.map_findSome?]
  congr 1
  funext scope
  cases hcls : m.class? scope with
  | none => simp [hcls]
  | some cls =>
    cases hindex : cls.decl.typeParams.findIdx? (· == name) with
    | none => simp [hcls, hindex]
    | some index =>
      have hlt : index < cls.decl.typeParams.length :=
        (List.findIdx?_eq_some_iff_getElem.mp hindex).1
      obtain ⟨ty, hfind, -, htree⟩ := h.interned.find?_of_holds (.param scope index)
        (f := r.tree) rfl (h.params hcls index hlt)
      simp only [TypeKey.treeBy] at htree
      simp [hcls, hindex, hfind, htree]

theorem Ready.map_tree_specialType? (h : m.Ready r) (scope : ClassId) (methodParams : List String)
    (name : String) (generic : Bool) :
    (m.specialType? r scope methodParams name generic).map r.tree =
      m.specialTree? scope methodParams name generic := by
  unfold specialType? specialTree?
  split
  · simp
  · split
    · rfl
    · split
      · simp
      · exact h.map_tree_paramIn? scope name

theorem makes_arrayType {made : TypeId × Registry} {τ : TypeTree} (h : Makes r made τ)
    (dims : Nat) : Makes r (arrayType dims made.1 made.2) (arrayTree dims τ) := by
  induction dims with
  | zero => exact h
  | succ dims ih => exact ih.array

section

variable (scope : ClassId) (methodParams : List String)

mutual

theorem makes_resolveType (t : TypeExpr) {r : Registry} (h : m.Ready r) :
    Makes r (m.resolveType scope methodParams t r) (m.writtenTree scope methodParams t) := by
  obtain ⟨name, args, dims⟩ := t
  have hspecial := h.map_tree_specialType? scope methodParams name (!args.isEmpty)
  rw [resolveType, writtenTree, ← hspecial]
  cases hty : m.specialType? r scope methodParams name (!args.isEmpty) with
  | some ty => exact makes_arrayType (.same h.interned (m.knows_specialType? hty).covers) dims
  | none =>
    obtain ⟨hbase, htree⟩ := h.tree_baseType scope (.mk name args dims)
    rw [← htree]
    generalize m.baseType r scope (.mk name args dims) = base at hbase ⊢
    cases args with
    | nil => exact makes_arrayType (.same h.interned hbase) dims
    | cons arg rest =>
      have hfirst := makes_resolveType arg h
      have hrest := makesAll_resolveTypes rest (h.mono hfirst.le hfirst.interned)
      have hall := (makesAll_cons hfirst hrest).snoc h.interned hbase
      exact makes_arrayType hall.compound dims

theorem makesAll_resolveTypes (ts : List TypeExpr) {r : Registry} (h : m.Ready r) :
    MakesAll r (m.resolveTypes scope methodParams ts r)
      (m.writtenTrees scope methodParams ts) := by
  cases ts with
  | nil => exact makesAll_nil h.interned
  | cons t ts =>
    have hfirst := makes_resolveType t h
    rw [resolveTypes, writtenTrees]
    exact makesAll_cons hfirst (makesAll_resolveTypes ts (h.mono hfirst.le hfirst.interned))

end

/-- Resolving a text makes its tree. -/
theorem makes_resolveText (text : String) (h : m.Ready r) :
    Makes r (m.resolveText scope methodParams text r) (m.textTree scope methodParams text) := by
  rw [resolveText, textTree]
  cases TypeExpr.parse? text with
  | some t => exact makes_resolveType scope methodParams t h
  | none =>
    have hsame : Makes r (.unknown, r) (r.tree .unknown) := .same h.interned trivial
    rwa [tree_unknown] at hsame

end

/-! ## Trees are a matter of names -/

namespace SameNames

variable {m' : Model}

theorem typeParams (h : m.SameNames m') (c : ClassId) :
    (m'.class? c).map (·.decl.typeParams) = (m.class? c).map (·.decl.typeParams) := by
  have hc := congrArg (Option.map fun cls : Class => cls.decl.typeParams) (h.class?_untyped c)
  simpa [Function.comp_def, Class.untyped] using hc

theorem paramTree? (h : m.SameNames m') (c : ClassId) (name : String) :
    m'.paramTree? c name = m.paramTree? c name := by
  have hdo : ∀ m : Model, m.paramTree? c name = (m.outerChain c).findSome? fun scope =>
      ((m.class? scope).map (·.decl.typeParams)).bind fun params =>
        (params.findIdx? (· == name)).map (.param scope) := by
    intro m
    rw [Model.paramTree?]
    congr 1
    funext scope
    cases m.class? scope with
    | none => rfl
    | some cls => cases h : cls.decl.typeParams.findIdx? (· == name) <;> simp [h]
  rw [hdo, hdo, h.outerChain]
  simp only [h.typeParams]

theorem specialTree? (h : m.SameNames m') (scope : ClassId) (methodParams : List String)
    (name : String) (generic : Bool) : m'.specialTree? scope methodParams name generic =
      m.specialTree? scope methodParams name generic := by
  simp only [Model.specialTree?, h.paramTree?]

theorem baseTree (h : m.SameNames m') (scope : ClassId) (t : TypeExpr) :
    m'.baseTree scope t = m.baseTree scope t := by
  simp only [Model.baseTree, h.locate?]

section

variable (scope : ClassId) (methodParams : List String)

mutual

theorem writtenTree (h : m.SameNames m') (t : TypeExpr) :
    m'.writtenTree scope methodParams t = m.writtenTree scope methodParams t := by
  obtain ⟨name, args, dims⟩ := t
  rw [Model.writtenTree, Model.writtenTree, h.specialTree?, h.baseTree]
  split
  · rfl
  · cases args with
    | nil => rfl
    | cons arg rest => simp only [writtenTree h arg, writtenTrees h rest]

theorem writtenTrees (h : m.SameNames m') (ts : List TypeExpr) :
    m'.writtenTrees scope methodParams ts = m.writtenTrees scope methodParams ts := by
  cases ts with
  | nil => rfl
  | cons t ts => rw [Model.writtenTrees, Model.writtenTrees, writtenTree h t, writtenTrees h ts]

end

theorem textTree (h : m.SameNames m') (text : String) :
    m'.textTree scope methodParams text = m.textTree scope methodParams text := by
  simp only [Model.textTree, h.writtenTree]

end

end SameNames

end Interlock.Program.Model
