import Interlock.Program.Lookup

/-! Which functions a call may run. A method is looked for in the receiver's class and above it,
then in the same way around it. If the receiver is an interface, or no body was found, every
class below contributes the body that its instances run. -/

namespace Interlock.Program

open Interlock.Types

/-- What a call by name on a class may mean. -/
structure Dispatch where
  /-- The bodies that the call may run, ascending. -/
  callees : List FunctionId := []
  /-- The declaration that the name means, with a body or without. -/
  declared : Option FunctionId := none
  deriving DecidableEq, Repr

namespace Dispatch

def isEmpty (d : Dispatch) : Bool := d.callees.isEmpty && d.declared.isNone

/-- The functions whose results the call may have. -/
def typedBy (d : Dispatch) : List FunctionId :=
  if d.callees.isEmpty then d.declared.toList else d.callees

end Dispatch

/-- The types of arguments; `none` fits every parameter. -/
abbrev ArgTypes := List (Option TypeId)

inductive Fit where
  /-- The number of arguments agrees. -/
  | loose
  /-- The types of the arguments agree too. -/
  | strict
  deriving DecidableEq, Repr

namespace Model

/-- An argument of one type may be passed for a parameter of another. -/
def compatible (m : Model) (param arg : TypeId) : Bool :=
  let r := m.registry
  if param == arg || param == .unknown || param == .unresolved || r.isUntracked param ||
      (r.paramOf? param).isSome then true
  else
    let param := (r.genericBase? param).getD param
    let arg := (r.genericBase? arg).getD arg
    if param == arg then true
    else match r.classOf? param, r.classOf? arg with
      | some expected, some given => (m.lineage given).contains expected
      | _, _ =>
        match r.primitiveOf? param, r.primitiveOf? arg with
        | some .float, some .int => true
        | some .int, some .char => true
        | _, _ => false

/-- How arguments fit parameters; the last parameter may take any number of arguments if it is an
array. -/
def paramsFit? (m : Model) (params : List TypeId) (args : ArgTypes) : Option Fit :=
  let variadic := params.getLast?.bind m.registry.elementOf?
  if params.length == args.length || (variadic.isSome && args.length + 1 ≥ params.length) then
    let fits (arg : Option TypeId) (position : Nat) : Bool :=
      match arg with
      | none => true
      | some arg =>
        (params[position]?).any (m.compatible · arg) ||
          variadic.any fun element => position + 1 ≥ params.length && m.compatible element arg
    some (if args.zipIdx.all fun (arg, position) => fits arg position then .strict else .loose)
  else none

def fit? (m : Model) (args : ArgTypes) (f : FunctionId) : Option Fit :=
  (m.function? f).bind fun fn => m.paramsFit? fn.params args

/-- The first function that fits strictly, or else the first that fits. -/
def best? (m : Model) (candidates : List FunctionId) (args : ArgTypes) : Option FunctionId :=
  (candidates.find? fun f => m.fit? args f == some .strict).or
    (candidates.find? fun f => m.fit? args f == some .loose)

/-- The functions of a class that have a property. -/
def functionsWhere (m : Model) (c : ClassId) (p : Function → Bool) : List FunctionId :=
  ((m.class? c).map (·.methods)).getD [] |>.filter fun f => (m.function? f).any p

/-- The method of a class that a call by name means. -/
def findInClass? (m : Model) (name : String) (args : ArgTypes) (c : ClassId) :
    Option FunctionId :=
  m.best? (m.functionsWhere c fun f => f.parent.isNone && !f.isConstructor && f.name == name) args

/-- The method of a class or of one above it. -/
def findInherited? (m : Model) (name : String) (args : ArgTypes) (c : ClassId) :
    Option FunctionId :=
  (m.lineage c).findSome? (m.findInClass? name args)

def hasBody (m : Model) (f : FunctionId) : Bool := (m.function? f).any fun fn => !fn.isAbstract

/-- The method of a class that a call by name means, if it has a body. -/
def bodyInClass? (m : Model) (name : String) (args : ArgTypes) (c : ClassId) :
    Option FunctionId :=
  (m.findInClass? name args c).filter m.hasBody

/-- The body that an instance of a class runs. -/
def implementation? (m : Model) (name : String) (args : ArgTypes) (c : ClassId) :
    Option FunctionId :=
  (m.lineage c).findSome? (m.bodyInClass? name args)

/-- What a call by name on an instance of a class may mean. -/
def dispatch (m : Model) (c : ClassId) (name : String) (args : ArgTypes) : Dispatch :=
  let found := (m.outerChain c).findSome? (m.findInherited? name args)
  let own := (found.filter m.hasBody).toList
  let isInterface := (m.class? c).any (·.isInterface)
  let below :=
    if isInterface || own.isEmpty then
      (m.supers.transitiveSubclasses c).filterMap (m.implementation? name args)
    else []
  { callees := Ordered.ofList (own ++ below), declared := found }

/-- The body that a call by name means above a class. -/
def superMethod? (m : Model) (c : ClassId) (name : String) (args : ArgTypes) :
    Option FunctionId :=
  (((m.class? c).map (·.ancestors)).getD []).findSome? (m.bodyInClass? name args)

/-- The constructor that an object creation means. -/
def constructor? (m : Model) (c : ClassId) (args : ArgTypes) : Option FunctionId :=
  m.best? (m.functionsWhere c fun f => f.parent.isNone && f.isConstructor) args

/-- A function and the functions around it, the innermost first. -/
def enclosingAt (m : Model) : Nat → FunctionId → List FunctionId
  | 0, f => [f]
  | fuel + 1, f =>
    match (m.function? f).bind (·.parent) with
    | some p => f :: m.enclosingAt fuel p
    | none => [f]

/-- The local function that a call by name means: one declared in the function or in one around
it. -/
def localFunction? (m : Model) (f : FunctionId) (name : String) (args : ArgTypes) :
    Option FunctionId := do
  let fn ← m.function? f
  let scopes := m.enclosingAt m.functions.size f
  m.best? (m.functionsWhere fn.cls fun g => g.name == name && g.parent.any scopes.contains) args

end Model

end Interlock.Program
