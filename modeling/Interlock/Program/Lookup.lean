import Interlock.Program.Model

/-! Names and what they mean at a place of the program: classes, fields, local variables, locks
and type parameters. -/

namespace Interlock.Program.Model

open Interlock.Types Interlock.Text

/-- A class and the classes around it, the innermost first. An outer class has a smaller number
than an inner one, so the number of classes bounds the chain. -/
def outerChainAt (m : Model) : Nat → ClassId → List ClassId
  | 0, c => [c]
  | fuel + 1, c =>
    match (m.class? c).bind (·.outer) with
    | some o => c :: m.outerChainAt fuel o
    | none => [c]

def outerChain (m : Model) (c : ClassId) : List ClassId := m.outerChainAt m.classes.size c

/-- A class and all classes above it. -/
def lineage (m : Model) (c : ClassId) : List ClassId :=
  c :: ((m.class? c).map (·.ancestors)).getD []

/-- The outermost class around a class. -/
def topLevel (m : Model) (c : ClassId) : ClassId := ((m.outerChain c).getLast?).getD c

/-- A nested class of a class or of one above it. -/
def nestedClass? (m : Model) (c : ClassId) (name : String) : Option ClassId :=
  (m.lineage c).findSome? fun owner => do
    let cls ← m.class? owner
    cls.nested.find? fun n => (m.class? n).any fun inner => inner.name == name

/-- The class that a chain of nested names leads to. -/
def descend? (m : Model) : ClassId → List String → Option ClassId
  | c, [] => some c
  | c, name :: names => (m.nestedClass? c name).bind fun n => m.descend? n names

/-- A name without generic arguments and brackets. -/
def bareName (name : String) : String :=
  let cs := (firstPiece '<' name).toList
  String.ofList (trimChars (dropStarts [']', '['] cs.length cs.reverse).reverse)

/-- A name inside a package. -/
def inPackage (package name : String) : String :=
  if package.isEmpty then name else package ++ "." ++ name

/-- The class of a name in the scopes around a class: the scope itself before its nested
classes, inner scopes first. -/
def scoped? (m : Model) (c : ClassId) (name : String) : Option ClassId :=
  (m.outerChain c).findSome? fun scope =>
    match m.class? scope with
    | some cls => if cls.name == name then some scope else m.nestedClass? scope name
    | none => none

/-- The class of a name by the imports of its file and by its package: single classes first,
then the package, then all that is imported together. -/
def imported? (m : Model) (origin : Class) (name : String) : Option ClassId :=
  match m.imports[origin.unit]? with
  | none => none
  | some targets =>
    let single := targets.findSome? fun
      | .single c => if (m.class? c).any fun cls => cls.name == name then some c else none
      | _ => none
    let together := fun (_ : Unit) => targets.findSome? fun
      | .package p => m.qualified? (p ++ "." ++ name)
      | .members owner => m.nestedClass? owner name
      | _ => none
    match single with
    | some c => some c
    | none =>
      match m.qualified? (inPackage origin.package name) with
      | some c => some c
      | none => together ()

/-- The class that an undotted name means inside a class, or anywhere. -/
def locateSimple? (m : Model) (name : String) : Option ClassId → Option ClassId
  | none => m.simple? name
  | some scope =>
    match m.class? scope with
    | none => none
    | some origin =>
      match m.scoped? scope name with
      | some c => some c
      | none =>
        match m.imported? origin name with
        | some c => some c
        | none => m.simple? name

/-- The class that a name, as a type writes it, means inside a class, or anywhere. -/
def locate? (m : Model) (text : String) (scope : Option ClassId) : Option ClassId :=
  let name := bareName text
  if name.isEmpty then none
  else match m.qualified? name with
    | some c => some c
    | none =>
      match cutFirst? '.' name with
      | none => m.locateSimple? name scope
      | some (head, rest) =>
        match (m.locateSimple? head scope).bind fun c => m.descend? c (split '.' rest) with
        | some c => some c
        | none =>
          match scope.bind m.class? with
          | none => none
          | some cls =>
            if cls.package.isEmpty then none else m.qualified? (cls.package ++ "." ++ name)

/-- A field of a class or of one above it, with the class that declares it. -/
def memberField? (m : Model) (c : ClassId) (name : String) : Option (ClassId × TypeId) :=
  (m.lineage c).findSome? fun owner => do
    let cls ← m.class? owner
    let ty ← cls.fieldType? name
    return (owner, ty)

/-- A field that is visible inside a class: its own and inherited ones before those of the
classes around it. -/
def field? (m : Model) (c : ClassId) (name : String) : Option (ClassId × TypeId) :=
  (m.outerChain c).findSome? fun scope => m.memberField? scope name

/-- The type of a local name in a function or in one around it. The function around has a
smaller number, so the number of functions bounds the search. -/
def localAt? (m : Model) (name : String) : Nat → FunctionId → Option TypeId
  | 0, _ => none
  | fuel + 1, f =>
    match m.function? f with
    | none => none
    | some fn =>
      match fn.localType? name with
      | some ty => some ty
      | none => fn.parent.bind (m.localAt? name fuel)

def local? (m : Model) (f : FunctionId) (name : String) : Option TypeId :=
  m.localAt? name (m.functions.size + 1) f

/-- The enumeration whose constant is imported into the file of a class under a name. -/
def importedConstant? (m : Model) (c : ClassId) (name : String) : Option ClassId := do
  let cls ← m.class? c
  let targets ← m.imports[cls.unit]?
  targets.findSome? fun
    | .enumConstant owner constant => if constant == name then some owner else none
    | .members owner =>
      if (m.class? owner).any fun o => o.hasEnumConstant name then some owner else none
    | _ => none

/-- The lock in a field that is visible inside a class. -/
def fieldLock? (m : Model) (c : ClassId) (name : String) : Option LockId :=
  (m.outerChain c).findSome? fun scope =>
    (m.lineage scope).findSome? fun owner => do
      let cls ← m.class? owner
      m.locks.find? (cls.qualifiedName ++ "." ++ name)

/-- The type of a type parameter that is visible inside a class, in a given registry. -/
def paramIn? (m : Model) (r : Registry) (c : ClassId) (name : String) : Option TypeId :=
  (m.outerChain c).findSome? fun scope => do
    let cls ← m.class? scope
    let index ← cls.decl.typeParams.findIdx? (· == name)
    r.find? (.param scope index)

def param? (m : Model) (c : ClassId) (name : String) : Option TypeId := m.paramIn? m.registry c name

end Interlock.Program.Model
