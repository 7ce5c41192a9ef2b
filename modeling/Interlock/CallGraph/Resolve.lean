import Interlock.CallGraph.Basic
import Interlock.CallGraph.Dispatch
import Interlock.CallGraph.Heuristics
import Interlock.Program.Language

/-! Resolution of the call sites of one function.

Every expression resolves to a set of types. Every call and every object creation leaves one
entry, after the entries of its parts, so that the receiver and the arguments of a call come
before the call itself. -/

namespace Interlock.CallGraph

open Interlock.Types Interlock.Text Interlock.Program

/-- The lock of a lock operation. A monitor is named by a class and a segment, and becomes a lock
when the graph is built. -/
inductive LockTarget where
  | declared (lock : LockId)
  | monitor (cls : ClassId) (segment : String)
  deriving DecidableEq, Repr

inductive DraftEntry where
  | calls (callees : List FunctionId)
  | lock (effect : LockEffect) (target : LockTarget)
  | dynamic
  deriving DecidableEq, Repr

inductive DiagnosticKind where
  /-- Nothing explains the call. -/
  | couldNotDetermine
  /-- The class of the receiver has no such method. -/
  | emptyMethodNode
  /-- A lock operation on a lock without a declaration. -/
  | unidentifiedLock
  deriving DecidableEq, Repr

/-- A call site that could not be resolved. -/
structure Diagnostic where
  kind : DiagnosticKind
  function : FunctionId
  expression : String
  deriving DecidableEq, Repr

/-- What the call sites of a function leave. -/
structure Draft where
  entries : List DraftEntry := []
  diagnostics : List Diagnostic := []
  deriving DecidableEq, Repr

namespace Draft

def append (a b : Draft) : Draft := ⟨a.entries ++ b.entries, a.diagnostics ++ b.diagnostics⟩

instance : Append Draft := ⟨append⟩

def entry (e : DraftEntry) : Draft := { entries := [e] }

end Draft

/-- What is known about the value of an expression. -/
structure Resolved where
  /-- The types that it may have, ascending. -/
  types : List TypeId := []
  /-- The lock that it is. -/
  lock : Option LockTarget := none
  /-- The expression names a type and not a value. -/
  isTypeName : Bool := false
  deriving DecidableEq, Repr

namespace Resolved

def of (ty : TypeId) : Resolved := { types := [ty] }

def ofAll (tys : List TypeId) : Resolved := { types := Ordered.ofList tys }

def unknown : Resolved := of .unknown

def unresolved : Resolved := of .unresolved

def typeName (ty : TypeId) : Resolved := { types := [ty], isTypeName := true }

def holding (ty : TypeId) (lock : Option LockTarget) : Resolved := { types := [ty], lock }

/-- The only type that the value may have. -/
def single? (r : Resolved) : Option TypeId :=
  match r.types with
  | [ty] => some ty
  | _ => none

def isUnresolved (r : Resolved) : Bool := r.types.all (· == .unresolved)

end Resolved

/-- Where an expression stands, and how guards of regions are read. -/
structure Site where
  model : Model
  language : Language
  function : FunctionId
  /-- The class of the function. -/
  cls : ClassId
  /-- The expression that a guard writes. -/
  readGuard : String → Option Expr

namespace Site

variable (s : Site)

def registry : Registry := s.model.registry

def classType (c : ClassId) : TypeId := ((s.model.class? c).map (·.type)).getD .unknown

def isLock (ty : TypeId) : Bool := s.registry.kindOf ty == .lock

/-- The declared class behind a type or behind the base of a generic type. -/
def userClass? (ty : TypeId) : Option ClassId :=
  (s.registry.classOf? ty).or ((s.registry.genericBase? ty).bind s.registry.classOf?)

/-- The type of a member as the type arguments of the receiver make it. -/
def substitute (member : TypeId) (owner : ClassId) (receiver : TypeId) : TypeId :=
  match ((s.registry.components? receiver).map List.dropLast).getD [] with
  | [] => member
  | args => (s.registry.instantiated? member owner args).getD .unknown

def byRule (rule : ReturnRule) (receiver : TypeId) : TypeId :=
  match rule with
  | .value p => Registry.primitive p
  | .receiver => receiver
  | .unknown => .unknown

/-! ### Names and members -/

/-- A variable of a type; a lock is the declared lock, if there is one. -/
def variableOf (ty : TypeId) (lock : Option LockId) : Resolved :=
  if s.isLock ty then .holding ty (lock.map .declared) else .of ty

/-- The meaning of a plain name: a local variable, a field, an imported constant, a library type,
a class, or a constant of an enumeration around it, whichever comes first. -/
def plainName (name : String) : Resolved :=
  let m := s.model
  match m.local? s.function name with
  | some ty => s.variableOf ty (m.locks.find? (m.className s.cls ++ "." ++ name))
  | none =>
    match m.field? s.cls name with
    | some (_, ty) => s.variableOf ty (m.fieldLock? s.cls name)
    | none =>
      match m.importedConstant? s.cls name with
      | some owner => .of (s.classType owner)
      | none =>
        match s.registry.named? name with
        | some ty => .typeName ty
        | none =>
          match m.locate? name (some s.cls) with
          | some c => .typeName (s.classType c)
          | none =>
            let around := (m.outerChain s.cls).find? fun c =>
              (m.class? c).any fun cls => cls.hasEnumConstant name
            match around with
            | some owner => .of (s.classType owner)
            | none => .unresolved

/-- A member of a declared class. -/
def classMember (ty : TypeId) (c : ClassId) (name : String) : Resolved :=
  match s.model.class? c with
  | none => .unknown
  | some cls =>
    if name = "this" then .of ty
    else if cls.isEnum && name == "length" then .of (Registry.primitive .int)
    else if cls.hasEnumConstant name then .of ty
    else match s.model.memberField? c name with
      | some (owner, field) =>
        if s.isLock field then .holding field ((s.model.fieldLock? c name).map .declared)
        else .of (s.substitute field owner ty)
      | none =>
        match s.model.nestedClass? c name with
        | some n => .typeName (s.classType n)
        | none => .unknown

/-- A member of a value of some type. -/
def memberOf (name : String) (ty : TypeId) : Resolved :=
  let r := s.registry
  if ty == .unresolved || r.isUntracked ty then .unknown
  else if (r.elementOf? ty).isSome then
    if name = "length" || name = "Length" then .of (Registry.primitive .int) else .unknown
  else match s.userClass? ty with
    | some c => s.classMember ty c name
    | none =>
      match r.knownClassOf? ty with
      | some known => .of (byRule (known.returnOf name) ty)
      | none =>
        if (r.kindOf ty).isContainer && ["size", "length", "Count", "Length"].contains name then
          .of (Registry.primitive .int)
        else .unknown

/-- A member of a receiver that may have several types. -/
def member (receiver : Resolved) (name : String) : Resolved :=
  if receiver.isUnresolved then .unresolved
  else
    let members := receiver.types.map (s.memberOf name)
    { types := Ordered.ofList (members.flatMap (·.types))
      lock := members.findSome? (·.lock)
      isTypeName := members.any (·.isTypeName) }

/-- An element of a value. -/
def elementOf (ty : TypeId) : TypeId :=
  let r := s.registry
  match r.elementOf? ty with
  | some element => element
  | none =>
    if (r.kindOf ty).isContainer then r.wrapped ty
    else if r.kindOf ty == .string then Registry.primitive .char
    else .unknown

def index (target : Resolved) : Resolved :=
  if target.isUnresolved then .unresolved else .ofAll (target.types.map s.elementOf)

/-- The result of an operation on some operands. Text makes text. -/
def operation (kind : OperationKind) (operands : List Resolved) : Resolved :=
  match kind with
  | .comparison => .of (Registry.primitive .bool)
  | .assignment => (operands.getLast?).getD .unknown
  | .conditional => (operands[1]?).getD .unknown
  | .arithmetic =>
    if operands.any fun o => o.types.contains (Registry.primitive .string) then
      .of (Registry.primitive .string)
    else match operands with
      | first :: _ => { first with lock := none }
      | [] => .unknown

/-! ### Calls -/

/-- The type of an argument, if it is one that tells methods apart. -/
def argType (r : Resolved) : Option TypeId :=
  r.single?.filter fun ty =>
    ty != .unknown && ty != .unresolved && !s.registry.isUntracked ty &&
      ty != Registry.primitive .null

/-- Notes that a call could not be resolved. -/
def diagnose (kind : DiagnosticKind) (call : Expr) : Diagnostic :=
  { kind, function := s.function, expression := call.render }

/-- A call into code that is not analysed. -/
def external : Draft := .entry (.calls [])

def construct (ty : TypeRef) (args : List Resolved) : Resolved × Draft :=
  let ty := ty.resolved.getD .unknown
  let callee := (s.userClass? ty).bind fun c => s.model.constructor? c (args.map s.argType)
  (.of ty, .entry (.calls callee.toList))

/-- A call that no declaration explains: its name or the name it starts from may suffice. -/
def fallback (call : Expr) (name : String) (receiver : Option TypeId) (kind : DiagnosticKind) :
    Resolved × Draft :=
  match resultByName? name receiver with
  | some ty => (.of ty, external)
  | none =>
    match call.rootName?.bind fun root => utilityResult? root name with
    | some ty => (.of ty, external)
    | none => (.unknown, external ++ { diagnostics := [s.diagnose kind call] })

def isViewAccessor (name : String) : Bool := name == "readLock" || name == "writeLock"

/-- What a call does to the lock it is called on. Monitors are left by calls that say so. -/
def effectOn? (call : Expr) (name : String) : LockTarget → Option LockEffect
  | .monitor _ _ => some (if isUnlockText call.render then .release else .acquire)
  | .declared _ => s.language.lockEffect? name

/-- A call on a lock. -/
def lockCall (call : Expr) (name : String) (lock : Option LockTarget) : Resolved × Draft :=
  let lockType := Registry.primitive .lock
  let truth := Resolved.of (Registry.primitive .bool)
  match lock with
  | none =>
    (if isViewAccessor name then .of lockType else truth,
      external ++ { diagnostics := [s.diagnose .unidentifiedLock call] })
  | some target =>
    match s.effectOn? call name target with
    | some effect => (truth, .entry (.lock effect target))
    | none => (if isViewAccessor name then .holding lockType (some target) else truth, external)

def returnType (f : FunctionId) : Option TypeId := (s.model.function? f).map (·.returnType)

/-- A call by name above the class of the function. -/
def superCall (name : String) (args : ArgTypes) : Resolved × Draft :=
  match s.model.superMethod? s.cls name args with
  | some f => (.of ((s.returnType f).getD .unknown), .entry (.calls [f]))
  | none => (.of ((resultByName? name none).getD .unknown), external)

/-- A call without a receiver. -/
def plainCall (call : Expr) (name : String) (args : ArgTypes) : Resolved × Draft :=
  match s.model.localFunction? s.function name args with
  | some f => (.of ((s.returnType f).getD .unknown), .entry (.calls [f]))
  | none =>
    let found := s.model.dispatch s.cls name args
    if found.isEmpty then s.fallback call name none .emptyMethodNode
    else (.ofAll (found.typedBy.filterMap s.returnType), .entry (.calls found.callees))

/-- What a call on a value of one type gives: the bodies it may run and its results, or why
nothing is known. -/
abbrev CallOutcome := Except DiagnosticKind (List FunctionId × List TypeId)

def returns (ty : TypeId) : CallOutcome := .ok ([], [ty])

/-- A call on an instance of a declared class. -/
def callOnClass (ty : TypeId) (c : ClassId) (name : String) (args : ArgTypes) : CallOutcome :=
  let isEnum := (s.model.class? c).any (·.isEnum)
  match if isEnum then enumResult? ty name else none with
  | some result => returns result
  | none =>
    let found := s.model.dispatch c name args
    if found.isEmpty then .error .emptyMethodNode
    else .ok (found.callees, found.typedBy.filterMap fun f =>
      (s.model.function? f).map fun fn => s.substitute fn.returnType fn.cls ty)

/-- A call on a value of one type. -/
def callOnType (name : String) (args : ArgTypes) (ty : TypeId) : CallOutcome :=
  let r := s.registry
  let byName := (resultByName? name (some ty)).getD .unknown
  if r.isUntracked ty || (r.paramOf? ty).isSome then returns byName
  else match s.userClass? ty with
    | some c => s.callOnClass ty c name args
    | none =>
      match r.knownClassOf? ty with
      | some known =>
        if name = "toString" || name = "ToString" then returns (Registry.primitive .string)
        else returns (byRule (known.returnOf name) ty)
      | none =>
        let kind := r.kindOf ty
        if kind.isContainer then
          returns ((containerResult? r.objectSet name).getD (r.wrapped ty))
        else if kind == .reference then
          returns (if isReferenceAccess name then r.wrapped ty else byName)
        else if (r.elementOf? ty).isSome || (r.primitiveOf? ty).isSome then returns byName
        else .error .couldNotDetermine

/-- A call on a receiver that may have several types. -/
def typedCall (call : Expr) (name : String) (args : ArgTypes) (receiver : Resolved) :
    Resolved × Draft :=
  let outcomes := (receiver.types.filter (· != .unresolved)).map (s.callOnType name args)
  let found := outcomes.filterMap Except.toOption
  let callees := Ordered.ofList (found.flatMap (·.1))
  let types := Ordered.ofList (found.flatMap (·.2))
  let missing := outcomes.findSome? fun
    | .error kind => some kind
    | .ok _ => none
  match missing, types with
  | some kind, [] => s.fallback call name receiver.single? kind
  | _, _ => ({ types }, .entry (.calls callees))

/-- A call on a receiver. -/
def callOn (call : Expr) (name : String) (receiver : Resolved) (args : List Resolved) :
    Resolved × Draft :=
  if receiver.types.any s.isLock then s.lockCall call name receiver.lock
  else if receiver.types.any fun ty => s.registry.kindOf ty == .script then
    (.unknown, .entry .dynamic)
  else if receiver.isUnresolved then s.fallback call name none .couldNotDetermine
  else s.typedCall call name (args.map s.argType) receiver

/-! ### Expressions -/

/-- The lock that a name of a guarded region stands for. -/
abbrev MonitorOf := String → LockTarget

def name (monitorOf : MonitorOf) (name : String) : Resolved :=
  match Expr.monitorGuard? name with
  | some guard => .holding (Registry.primitive .lock) (some (monitorOf guard))
  | none => s.plainName name

section

variable (monitorOf : MonitorOf)

mutual

/-- Resolves an expression: its value, and what its calls leave. -/
def expr : Expr → Resolved × Draft
  | .literal kind => (.of (Registry.primitive kind.primitive), {})
  | .ident n => (s.name monitorOf n, {})
  | .this => (.of (s.classType s.cls), {})
  | .super =>
    match ((s.model.class? s.cls).map (·.supertypes)).getD [] with
    | parent :: _ => (.of (s.classType parent), {})
    | [] => (.unknown, {})
  | .classLiteral _ => (.unknown, {})
  | .new ty args =>
    let (values, parts) := exprs args
    let (value, own) := s.construct ty values
    (value, parts ++ own)
  | .newArray ty elements => (.of (ty.resolved.getD .unknown), (exprs elements).2)
  | .cast ty operand => (.of (ty.resolved.getD .unknown), (expr operand).2)
  | .paren inner => expr inner
  | .index target indices =>
    let (value, parts) := expr target
    (s.index value, parts ++ (exprs indices).2)
  | .member target n =>
    let (value, parts) := expr target
    (s.member value n, parts)
  | .call n args =>
    let (values, parts) := exprs args
    let (value, own) := s.plainCall (.call n args) n (values.map s.argType)
    (value, parts ++ own)
  | .callOn target n args =>
    let (receiver, before) := expr target
    let (values, parts) := exprs args
    let (value, own) := match target with
      | .super => s.superCall n (values.map s.argType)
      | _ => s.callOn (.callOn target n args) n receiver values
    (value, before ++ parts ++ own)
  | .operation kind operands =>
    let (values, parts) := exprs operands
    (operation kind values, parts)
  | .other children => (.unknown, (exprs children).2)

def exprs : List Expr → List Resolved × Draft
  | [] => ([], {})
  | e :: es =>
    let (value, parts) := expr e
    let (values, rest) := exprs es
    (value :: values, parts ++ rest)

end

/-- The declared class of the value of an expression. Only the value is looked at: reading a guard
leaves nothing in the graph. -/
def valueClass? (e : Expr) : Option ClassId :=
  let value := (s.expr monitorOf e).1
  if value.isTypeName then none else value.single?.bind s.userClass?

/-- The monitor of a guard. Regions that are guarded by the same object share a monitor: an
instance of a declared class is the monitor of that class, a class literal that of the class
itself, and a field of any other type is named by the class that declares it. -/
def guardMonitor? : Expr → Option (ClassId × String)
  | .this => some (s.cls, "this")
  | .paren inner => guardMonitor? inner
  | .cast _ inner => guardMonitor? inner
  | .classLiteral ty => (s.model.locate? ty.text (some s.cls)).map fun c => (c, "class")
  | .ident n =>
    match s.valueClass? monitorOf (.ident n) with
    | some c => some (c, "this")
    | none => some (((s.model.field? s.cls n).map (·.1)).getD s.cls, n)
  | .member target n =>
    match s.valueClass? monitorOf (.member target n) with
    | some c => some (c, "this")
    | none =>
      let targetClass := s.valueClass? monitorOf target
      let declaring := targetClass.bind fun c => (s.model.memberField? c n).map (·.1)
      some ((declaring.or targetClass).getD s.cls, n)
  | _ => none

end

/-- The text of a guard without blanks, by which other guards are named. -/
def compact (guard : String) : String := String.ofList (guard.toList.filter fun c => !isBlank c)

/-- The monitor of a guard. A guard may itself mention a monitor field; the guard of that one is
shorter, so the length of the text bounds the nesting. -/
def monitorAt : Nat → MonitorOf
  | 0, guard => .monitor s.cls (compact guard)
  | depth + 1, guard =>
    match (s.readGuard guard).bind (s.guardMonitor? (monitorAt depth)) with
    | some (c, segment) => .monitor c segment
    | none => .monitor s.cls (compact guard)

def monitor (guard : String) : LockTarget := s.monitorAt (guard.length + 1) guard

/-- Resolves an expression of the function. -/
def resolve (e : Expr) : Resolved × Draft := s.expr s.monitor e

/-- Resolves the call sites of a function in source order. -/
def resolveAll (calls : List Expr) : Draft := (s.exprs s.monitor calls).2

end Site

end Interlock.CallGraph
