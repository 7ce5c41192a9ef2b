import Interlock.Ids
import Interlock.Threading
import Interlock.Types.Library

/-! The registry of types. Every type that an analysis meets has one identity, handed out when
its key is registered for the first time. A key mentions other types by identity only, so the
registry is a shared representation of type trees: a tree that occurs twice is stored once. -/

namespace Interlock.Types

open Interlock.Text

/-- A type identity, or one of the two answers that no registration gives. -/
inductive TypeId where
  | id (n : Nat)
  /-- Known not to be followed. -/
  | unknown
  /-- No variable, type or class matched. -/
  | unresolved
  deriving DecidableEq, Repr, Inhabited

namespace TypeId

def label : TypeId → String
  | id n => "t" ++ toString n
  | unknown => "unknown"
  | unresolved => "unresolved"

/-- The order of identities: registered types as registered, then the two others. -/
def rank : TypeId → List Nat
  | id n => [0, n]
  | unknown => [1]
  | unresolved => [2]

theorem rank_injective {a b : TypeId} (h : a.rank = b.rank) : a = b := by
  cases a <;> cases b <;> simp_all [rank]

instance : Ord TypeId := ⟨compareOn rank⟩

instance : Std.LawfulEqOrd TypeId where
  compare_self := Std.ReflOrd.compare_self (α := List Nat)
  eq_of_compare h := rank_injective (Std.LawfulEqOrd.eq_of_compare h)

instance : Std.TransOrd TypeId :=
  inferInstanceAs (Std.TransCmp (compareOn rank))

end TypeId

/-- What identifies a type. -/
inductive TypeKey where
  | primitive (p : Primitive)
  /-- A library type known by name only. -/
  | named (name : String)
  | declared (c : ClassId)
  /-- A generic type: its arguments followed by the generic base. -/
  | compound (components : List TypeId)
  /-- The type parameter of a class at a position. -/
  | param (owner : ClassId) (index : Nat)
  | array (element : TypeId)
  deriving DecidableEq, Repr

/-- A registered type with the kind it had when it was registered. -/
structure TypeEntry where
  key : TypeKey
  kind : TypeKind

structure Registry where
  entries : Array TypeEntry

namespace Registry

def size (r : Registry) : Nat := r.entries.size

def key? (r : Registry) : TypeId → Option TypeKey
  | .id n => r.entries[n]?.map (·.key)
  | _ => none

/-- The identity of a registered key. -/
def find? (r : Registry) (key : TypeKey) : Option TypeId :=
  (r.entries.findIdx? fun e => decide (e.key = key)).map .id

/-- What a type is known to do. -/
def kindOf (r : Registry) : TypeId → TypeKind
  | .id n =>
    match r.entries[n]? with
    | some e => e.kind
    | none => .none
  | _ => .none

/-- The kind that a key is registered with. A generic type behaves like its base. -/
def kindFor (r : Registry) : TypeKey → TypeKind
  | .primitive .lock => .lock
  | .primitive .script => .script
  | .primitive .string => .string
  | .named name => if builtinNames.contains name then kindNamed name else .none
  | .compound components =>
    match components.getLast? with
    | some base => r.kindOf base
    | none => .none
  | _ => .none

/-- Registers a key, or finds the identity that it has already. -/
def register (r : Registry) (key : TypeKey) : TypeId × Registry :=
  match r.find? key with
  | some found => (found, r)
  | none => (.id r.size, ⟨r.entries.push ⟨key, r.kindFor key⟩⟩)

def registerAll (r : Registry) (keys : List TypeKey) : Registry :=
  keys.foldl (fun r key => (r.register key).2) r

def primitive (p : Primitive) : TypeId := .id p.index

/-- The type that a simple name has without any declaration. -/
def named? (r : Registry) (name : String) : Option TypeId :=
  match primitiveNamed? name with
  | some p => some (primitive p)
  | none =>
    match Primitive.all.find? fun p => p.name == name with
    | some p => some (primitive p)
    | none =>
      if untrackedNames.contains name || builtinNames.contains name then r.find? (.named name)
      else none

/-- The keys that every analysis starts with: primitives, untracked names, library types, and
the set of objects, which is what the entries of a map are. -/
def initialKeys : List TypeKey :=
  Primitive.all.map .primitive ++ (untrackedNames ++ builtinNames).map .named

def withoutObjectSet : Registry := registerAll ⟨#[]⟩ initialKeys

/-- The set of objects. -/
def objectSetKey : TypeKey :=
  .compound (["Object", "Set"].filterMap withoutObjectSet.named?)

def initial : Registry := withoutObjectSet.registerAll [objectSetKey]

def objectSet (r : Registry) : TypeId := (r.find? objectSetKey).getD .unknown

/-- A type that is not followed, by its own name or by one of its components. A registered key
mentions earlier types only, so `size` bounds the nesting. -/
def isUntrackedAt (r : Registry) : Nat → TypeId → Bool
  | _, .unknown => true
  | 0, _ => false
  | fuel + 1, ty =>
    match r.key? ty with
    | some (.named name) => untrackedNames.contains name
    | some (.compound components) => components.any (r.isUntrackedAt fuel)
    | some (.array element) => r.isUntrackedAt fuel element
    | _ => false

def isUntracked (r : Registry) (ty : TypeId) : Bool := r.isUntrackedAt (r.size + 1) ty

def primitiveOf? (r : Registry) (ty : TypeId) : Option Primitive :=
  match r.key? ty with
  | some (.primitive p) => some p
  | _ => none

def classType? (r : Registry) (c : ClassId) : Option TypeId := r.find? (.declared c)

def classOf? (r : Registry) (ty : TypeId) : Option ClassId :=
  match r.key? ty with
  | some (.declared c) => some c
  | _ => none

def components? (r : Registry) (ty : TypeId) : Option (List TypeId) :=
  match r.key? ty with
  | some (.compound components) => some components
  | _ => none

def genericBase? (r : Registry) (ty : TypeId) : Option TypeId :=
  (r.components? ty).bind List.getLast?

/-- The element that a container wraps: the last type argument. -/
def wrapped (r : Registry) (ty : TypeId) : TypeId :=
  match r.components? ty with
  | some components => (components.dropLast.getLast?).getD .unknown
  | none => .unknown

def elementOf? (r : Registry) (ty : TypeId) : Option TypeId :=
  match r.key? ty with
  | some (.array element) => some element
  | _ => none

def paramOf? (r : Registry) (ty : TypeId) : Option (ClassId × Nat) :=
  match r.key? ty with
  | some (.param owner index) => some (owner, index)
  | _ => none

/-- The known class behind a type. -/
def knownClassOf? (r : Registry) (ty : TypeId) : Option KnownClass :=
  match r.key? ty with
  | some (.primitive p) => knownClasses.find? fun c => primitiveNamed? c.name == some p
  | some (.named name) => if (primitiveNamed? name).isNone then knownClass? name else none
  | _ => none

/-! ## Substitution of type parameters -/

/-- Replaces the type parameters of `owner` inside a type by `args`, registering what this
produces; a parameter without an argument becomes unknown. -/
def instantiateAt (owner : ClassId) (args : List TypeId) :
    Nat → TypeId → Registry → TypeId × Registry
  | 0, ty, r => (ty, r)
  | fuel + 1, ty, r =>
    match r.key? ty with
    | some (.param cls index) =>
      if cls = owner then ((args[index]?).getD .unknown, r) else (ty, r)
    | some (.compound components) =>
      let (components, r) := mapThrough (instantiateAt owner args fuel) components r
      r.register (.compound components)
    | some (.array element) =>
      let (element, r) := instantiateAt owner args fuel element r
      r.register (.array element)
    | _ => (ty, r)

def instantiate (r : Registry) (ty : TypeId) (owner : ClassId) (args : List TypeId) :
    TypeId × Registry :=
  instantiateAt owner args (r.size + 1) ty r

/-- Substitution that only looks: `none` if a type that it produces is not registered. -/
def instantiatedAt (r : Registry) (owner : ClassId) (args : List TypeId) :
    Nat → TypeId → Option TypeId
  | 0, ty => some ty
  | fuel + 1, ty =>
    match r.key? ty with
    | some (.param cls index) =>
      if cls = owner then some ((args[index]?).getD .unknown) else some ty
    | some (.compound components) =>
      (components.mapM (r.instantiatedAt owner args fuel)).bind fun cs => r.find? (.compound cs)
    | some (.array element) =>
      (r.instantiatedAt owner args fuel element).bind fun e => r.find? (.array e)
    | _ => some ty

def instantiated? (r : Registry) (ty : TypeId) (owner : ClassId) (args : List TypeId) :
    Option TypeId :=
  r.instantiatedAt owner args (r.size + 1) ty

/-! ## Names of types -/

def describeAt (r : Registry) (className : ClassId → String) : Nat → TypeId → String
  | 0, ty => ty.label
  | fuel + 1, ty =>
    match ty, r.key? ty with
    | _, some (.primitive p) => p.name
    | _, some (.named name) => name
    | _, some (.declared c) => className c
    | _, some (.compound components) =>
      let base := r.describeAt className fuel ((components.getLast?).getD .unknown)
      let args := components.dropLast.map (r.describeAt className fuel)
      base ++ "<" ++ ", ".intercalate args ++ ">"
    | _, some (.param c index) => className c ++ "#T" ++ toString index
    | _, some (.array element) => r.describeAt className fuel element ++ "[]"
    | .id n, none => "?" ++ toString n
    | ty, none => ty.label

/-- The text of a type, with class names supplied by the caller. -/
def describe (r : Registry) (className : ClassId → String) (ty : TypeId) : String :=
  r.describeAt className (r.size + 1) ty

/-- All registered types, one per line. -/
def listing (r : Registry) (className : ClassId → String) : String :=
  String.join ((List.range r.size).map fun n =>
    let ty := TypeId.id n
    padLeft 6 ty.label ++ " " ++ padRight 40 (r.describe className ty) ++ " kind=" ++
      (r.kindOf ty).label ++ (if r.isUntracked ty then " ignored" else "") ++ "\n")

end Registry

end Interlock.Types
