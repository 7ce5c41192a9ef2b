import Interlock.Types.Registry

/-! Call-site expressions. Every expression of an analysed language becomes one of these shapes;
shapes that the analysis does not model keep their parts, so that no invocation is lost. -/

namespace Interlock.Program

open Interlock.Types Interlock.Text

inductive LiteralKind where
  | integer
  | hex
  | real
  | char
  | string
  | boolean
  | binary
  | null
  deriving DecidableEq, Repr

def LiteralKind.label : LiteralKind → String
  | integer => "Integer"
  | hex => "Hex"
  | real => "Real"
  | char => "Char"
  | string => "String"
  | boolean => "Boolean"
  | binary => "Binary"
  | null => "Null"

/-- The type of a literal. -/
def LiteralKind.primitive : LiteralKind → Primitive
  | integer | hex => .int
  | real => .float
  | char => .char
  | string => .string
  | boolean | binary => .bool
  | null => .null

inductive OperationKind where
  /-- Arithmetic, bitwise operations and concatenation: typed like the first operand. -/
  | arithmetic
  /-- Comparisons, logical operators and type tests: truth values. -/
  | comparison
  /-- Typed like the value. -/
  | assignment
  /-- Typed like the first branch. -/
  | conditional
  deriving DecidableEq, Repr

/-- A type written inside an expression, with its identity once classes are known. -/
structure TypeRef where
  text : String
  resolved : Option TypeId := none
  deriving DecidableEq, Repr

inductive Expr where
  | literal (kind : LiteralKind)
  | ident (name : String)
  | this
  | super
  | classLiteral (ty : TypeRef)
  | new (ty : TypeRef) (args : List Expr)
  | newArray (ty : TypeRef) (elements : List Expr)
  | cast (ty : TypeRef) (operand : Expr)
  | paren (inner : Expr)
  | index (target : Expr) (indices : List Expr)
  | member (target : Expr) (name : String)
  /-- A call without a receiver. -/
  | call (name : String) (args : List Expr)
  | callOn (target : Expr) (name : String) (args : List Expr)
  | operation (kind : OperationKind) (operands : List Expr)
  /-- A shape that is not modelled. -/
  | other (parts : List Expr)
  deriving Repr, Inhabited

namespace Expr

/-- The direct parts, in the order of evaluation. -/
def children : Expr → List Expr
  | literal _ | ident _ | this | super | classLiteral _ => []
  | new _ args => args
  | newArray _ elements => elements
  | cast _ operand => [operand]
  | paren inner => [inner]
  | index target indices => target :: indices
  | member target _ => [target]
  | call _ args => args
  | callOn target _ args => target :: args
  | operation _ operands => operands
  | other parts => parts

def isInvocation : Expr → Bool
  | call _ _ | callOn _ _ _ | new _ _ => true
  | _ => false

mutual

/-- The number of calls and object creations anywhere in an expression. -/
def invocationCount : Expr → Nat
  | literal _ | ident _ | this | super | classLiteral _ => 0
  | new _ args => 1 + invocationCounts args
  | newArray _ elements => invocationCounts elements
  | cast _ operand => operand.invocationCount
  | paren inner => inner.invocationCount
  | index target indices => target.invocationCount + invocationCounts indices
  | member target _ => target.invocationCount
  | call _ args => 1 + invocationCounts args
  | callOn target _ args => 1 + (target.invocationCount + invocationCounts args)
  | operation _ operands => invocationCounts operands
  | other parts => invocationCounts parts

def invocationCounts : List Expr → Nat
  | [] => 0
  | e :: es => e.invocationCount + invocationCounts es

end

theorem invocationCounts_eq_foldr (es : List Expr) :
    invocationCounts es = es.foldr (fun e n => e.invocationCount + n) 0 := by
  induction es with
  | nil => rfl
  | cons e es ih => simp [invocationCounts, ih]

/-- An expression counts itself if it is an invocation, and its parts. -/
theorem invocationCount_eq (e : Expr) :
    e.invocationCount =
      (if e.isInvocation then 1 else 0) + e.children.foldr (fun c n => c.invocationCount + n) 0 := by
  cases e <;> simp [invocationCount, isInvocation, children, invocationCounts_eq_foldr]

def invokes (e : Expr) : Bool := 0 < e.invocationCount

mutual

/-- The types written in an expression, in the order in which they are resolved: the own type of
an expression before those of its parts. -/
def typeRefs : Expr → List TypeRef
  | literal _ | ident _ | this | super => []
  | classLiteral ty => [ty]
  | new ty args => ty :: typeRefsAll args
  | newArray ty elements => ty :: typeRefsAll elements
  | cast ty operand => ty :: operand.typeRefs
  | paren inner => inner.typeRefs
  | index target indices => target.typeRefs ++ typeRefsAll indices
  | member target _ => target.typeRefs
  | call _ args => typeRefsAll args
  | callOn target _ args => target.typeRefs ++ typeRefsAll args
  | operation _ operands => typeRefsAll operands
  | other parts => typeRefsAll parts

def typeRefsAll : List Expr → List TypeRef
  | [] => []
  | e :: es => e.typeRefs ++ typeRefsAll es

end

section MapTypes

variable {σ : Type} (step : TypeRef → σ → TypeRef × σ)

mutual

/-- Replaces every written type by what `step` makes of it, in the order of `typeRefs`. -/
def mapTypes : Expr → σ → Expr × σ
  | literal k, s => (literal k, s)
  | ident n, s => (ident n, s)
  | this, s => (this, s)
  | super, s => (super, s)
  | classLiteral ty, s =>
    let (ty, s) := step ty s
    (classLiteral ty, s)
  | new ty args, s =>
    let (ty, s) := step ty s
    let (args, s) := mapTypesAll args s
    (new ty args, s)
  | newArray ty elements, s =>
    let (ty, s) := step ty s
    let (elements, s) := mapTypesAll elements s
    (newArray ty elements, s)
  | cast ty operand, s =>
    let (ty, s) := step ty s
    let (operand, s) := mapTypes operand s
    (cast ty operand, s)
  | paren inner, s =>
    let (inner, s) := mapTypes inner s
    (paren inner, s)
  | index target indices, s =>
    let (target, s) := mapTypes target s
    let (indices, s) := mapTypesAll indices s
    (index target indices, s)
  | member target name, s =>
    let (target, s) := mapTypes target s
    (member target name, s)
  | call name args, s =>
    let (args, s) := mapTypesAll args s
    (call name args, s)
  | callOn target name args, s =>
    let (target, s) := mapTypes target s
    let (args, s) := mapTypesAll args s
    (callOn target name args, s)
  | operation kind operands, s =>
    let (operands, s) := mapTypesAll operands s
    (operation kind operands, s)
  | other parts, s =>
    let (parts, s) := mapTypesAll parts s
    (other parts, s)

def mapTypesAll : List Expr → σ → List Expr × σ
  | [], s => ([], s)
  | e :: es, s =>
    let (e, s) := mapTypes e s
    let (es, s) := mapTypesAll es s
    (e :: es, s)

end

end MapTypes

/-- The leftmost name of a chain of members, indices and calls. -/
def rootName? : Expr → Option String
  | ident name => some name
  | member target _ => target.rootName?
  | index target _ => target.rootName?
  | callOn target _ _ => target.rootName?
  | paren inner => inner.rootName?
  | _ => none

def args : Expr → List Expr
  | call _ args | callOn _ _ args | new _ args => args
  | _ => []

def methodName? : Expr → Option String
  | call name _ | callOn _ name _ => some name
  | _ => none

/-! ## Text -/

mutual

/-- The text of an expression in reports. -/
def render : Expr → String
  | literal kind => "<" ++ kind.label ++ ">"
  | ident name => name
  | this => "this"
  | super => "super"
  | classLiteral ty => ty.text ++ ".class"
  | new ty args => "new " ++ ty.text ++ "(" ++ renderAll ", " args ++ ")"
  | newArray ty _ => "new " ++ ty.text ++ "[]"
  | cast ty operand => "(" ++ ty.text ++ ") " ++ operand.render
  | paren inner => "(" ++ inner.render ++ ")"
  | index target indices => target.render ++ "[" ++ renderAll ", " indices ++ "]"
  | member target name => target.render ++ "." ++ name
  | call name args => name ++ "(" ++ renderAll ", " args ++ ")"
  | callOn target name args => target.render ++ "." ++ name ++ "(" ++ renderAll ", " args ++ ")"
  | operation _ operands => renderAll " op " operands
  | other _ => "<expr>"

def renderAll (separator : String) : List Expr → String
  | [] => ""
  | [e] => e.render
  | e :: es => e.render ++ separator ++ renderAll separator es

end

/-! ## Monitors -/

/-- The start of the names of the fields that stand for the monitors of guarded regions. -/
def monitorMark : String := "synchLock_"

/-- The field that stands for the monitor of a guard; the number tells regions apart. -/
def monitorField (guard : String) (sequence : Nat) : String :=
  monitorMark ++ guard ++ "_" ++ toString sequence

/-- The call that enters or leaves a guarded region. -/
def monitorCall (guard : String) (sequence : Nat) (acquire : Bool) : Expr :=
  callOn (ident (monitorField guard sequence)) (if acquire then "lock" else "unlock") []

/-- The guard of a monitor field, `none` for all other names. -/
def monitorGuard? (name : String) : Option String := do
  let rest ← dropStart? monitorMark name
  let (guard, sequence) ← cutLast? '_' rest
  if !guard.isEmpty && sequence.toList.all Char.isDigit then some guard else none

end Expr

/-- A call text that releases a lock. -/
def isUnlockText (text : String) : Bool :=
  endsWith "unlock()" (String.ofList (text.toList.reverse.dropWhile isBlank).reverse)

end Interlock.Program
