import Interlock.Program.Hierarchy
import Interlock.Program.LockTable
import Interlock.Text.Fingerprint

/-! The program model: all classes and functions of a program with their resolved types. Classes
and functions are numbered in the order of their declaration, outer ones before inner ones. -/

namespace Interlock.Program

open Interlock.Types Interlock.Text

/-- What an import declaration brings into a file. -/
inductive ImportTarget where
  | single (c : ClassId)
  /-- All classes of a package. -/
  | package (name : String)
  /-- The members of a class. -/
  | members (c : ClassId)
  | enumConstant (owner : ClassId) (name : String)
  | unresolved
  deriving DecidableEq, Repr

structure Class where
  decl : ClassDecl
  /-- The names of the package, of the classes around it and of the class itself, joined by
  points. -/
  qualifiedName : String
  package : String
  outer : Option ClassId
  /-- The position of the file that declares the class. -/
  unit : Nat
  nested : List ClassId := []
  methods : List FunctionId := []
  supertypes : List ClassId := []
  /-- All classes above, each once, depth first in the order of declaration. -/
  ancestors : List ClassId := []
  /-- The types of the fields, in the order of declaration. -/
  fields : List (String × TypeId) := []
  /-- The types of the type parameters. -/
  paramTypes : List TypeId := []
  type : TypeId := .unknown
  /-- Its position among the classes, from when it is numbered. -/
  id : ClassId := 0

namespace Class

def name (c : Class) : String := c.decl.name

def isInterface (c : Class) : Bool := c.decl.kind == .interface

def isEnum (c : Class) : Bool := c.decl.kind == .enum

def fieldType? (c : Class) (name : String) : Option TypeId :=
  (c.fields.find? fun f => f.1 == name).map (·.2)

/-- Sets the type of a field; a field that is declared again keeps its place. -/
def setField (c : Class) (name : String) (ty : TypeId) : Class :=
  if (c.fieldType? name).isSome then
    { c with fields := c.fields.map fun f => if f.1 == name then (name, ty) else f }
  else { c with fields := c.fields ++ [(name, ty)] }

/-- The position of a type among the type parameters of the class. -/
def paramIndex? (c : Class) (ty : TypeId) : Option Nat :=
  c.paramTypes.findIdx? (· == ty)

def hasEnumConstant (c : Class) (name : String) : Bool :=
  c.isEnum && c.decl.enumConstants.contains name

end Class

/-- The types that are bound to each local name, by the fingerprint of the name. -/
abbrev Locals := List (UInt64 × List TypeId)

namespace Locals

def typesOf (ls : Locals) (name : String) : List TypeId :=
  match ls.find? fun l => l.1 == fingerprint name with
  | some l => l.2
  | none => []

def bindKey (key : UInt64) (ty : TypeId) : Locals → Locals
  | [] => [(key, [ty])]
  | l :: ls => if l.1 == key then (key, Ordered.insert ty l.2) :: ls else l :: bindKey key ty ls

def bind (ls : Locals) (name : String) (ty : TypeId) : Locals := bindKey (fingerprint name) ty ls

end Locals

structure Function where
  decl : MethodDecl
  cls : ClassId
  /-- The function around a local function. -/
  parent : Option FunctionId
  params : List TypeId := []
  returnType : TypeId := .unknown
  /-- Parameters and local variables. -/
  locals : Locals := []
  /-- The call sites, with resolved types. -/
  calls : List Expr := []
  /-- A thread or task starts here. -/
  isRunnable : Bool := false
  /-- Its position among the functions, from when it is numbered. -/
  id : FunctionId := 0

namespace Function

def name (f : Function) : String := f.decl.name

def isConstructor (f : Function) : Bool := f.decl.returns.isNone

def isAbstract (f : Function) : Bool := f.decl.isAbstract

def arity (f : Function) : Nat := f.params.length

/-- The type of a local name. A name that is bound to several types is unknown. -/
def localType? (f : Function) (name : String) : Option TypeId :=
  match f.locals.typesOf name with
  | [] => none
  | [ty] => some ty
  | _ => some .unknown

end Function

structure Model where
  classes : Array Class := #[]
  functions : Array Function := #[]
  registry : Registry := .initial
  locks : LockTable := {}
  /-- The supertypes of each class. -/
  supers : Supertypes := #[]
  /-- What each file imports. -/
  imports : Array (List ImportTarget) := #[]

namespace Model

def class? (m : Model) (c : ClassId) : Option Class := m.classes[c]?

def function? (m : Model) (f : FunctionId) : Option Function := m.functions[f]?

/-- The class with a qualified name; of several the last one. -/
def qualified? (m : Model) (name : String) : Option ClassId :=
  (List.range m.classes.size).reverse.find? fun c =>
    match m.classes[c]? with
    | some cls => cls.qualifiedName == name
    | none => false

/-- The first class with a simple name. -/
def simple? (m : Model) (name : String) : Option ClassId :=
  m.classes.findIdx? fun c => c.name == name

/-- The first function of a class, given by qualified or simple name, with a name. -/
def functionNamed? (m : Model) (cls name : String) : Option FunctionId := do
  let c ← (m.qualified? cls).or (m.simple? cls)
  let c ← m.class? c
  c.methods.find? fun f =>
    match m.function? f with
    | some f => f.name == name
    | none => false

def className (m : Model) (c : ClassId) : String :=
  match m.class? c with
  | some cls => cls.qualifiedName
  | none => ClassId.label c

/-- The name of a function in reports. -/
def functionLabel (m : Model) (f : FunctionId) : String :=
  match m.function? f with
  | some fn => ((m.class? fn.cls).map (·.name)).getD "?" ++ " >> " ++ fn.name
  | none => FunctionId.label f

def describe (m : Model) (ty : TypeId) : String := m.registry.describe m.className ty

def classKindLabel : ClassKind → String
  | .ordinary => "Class"
  | .interface => "Interface"
  | .enum => "Enum"

/-- The lines of one class in the listing of a model. -/
def classListing (m : Model) (id : ClassId) (c : Class) : String :=
  padLeft 10 (ClassId.label id) ++ " " ++ c.qualifiedName ++ " " ++ classKindLabel c.decl.kind ++
    " supers=[" ++ ", ".intercalate (c.supertypes.map m.className) ++ "] methods=" ++
    toString c.methods.length ++ "\n" ++
    String.join (c.fields.map fun f =>
      padLeft 14 "" ++ " " ++ f.1 ++ ": " ++ m.describe f.2 ++ "\n")

/-- Types, classes and locks, for inspection. -/
def listing (m : Model) : String :=
  "== types (" ++ toString m.registry.size ++ ") ==\n" ++ m.registry.listing m.className ++
  "== classes (" ++ toString m.classes.size ++ ") ==\n" ++
  String.join (m.classes.toList.mapIdx m.classListing) ++
  "== locks (" ++ toString m.locks.size ++ ") ==\n" ++ m.locks.listing

end Model

end Interlock.Program
