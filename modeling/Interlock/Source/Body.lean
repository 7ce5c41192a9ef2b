import Interlock.Program.Declaration
import Interlock.Source.Node

/-! What is collected while the body of a method is lowered. -/

namespace Interlock.Source

open Interlock.Program Interlock.Text

structure Body where
  locals : List VariableDecl := []
  calls : List Expr := []
  nested : List MethodDecl := []
  /-- The variables of the declaration that is being lowered. -/
  declared : List VariableDecl := []
  /-- The number of the next guarded region. -/
  nextRegion : Nat := 0

namespace Body

/-- Keeps an expression as a call site if it invokes anything. -/
def record (b : Body) (e : Expr) : Body :=
  if e.invokes then { b with calls := b.calls ++ [e] } else b

def addCall (b : Body) (e : Expr) : Body := { b with calls := b.calls ++ [e] }

def addLocal (b : Body) (v : VariableDecl) : Body := { b with locals := b.locals ++ [v] }

def addNested (b : Body) (m : MethodDecl) : Body := { b with nested := b.nested ++ [m] }

def declare (b : Body) (v : VariableDecl) : Body := { b with declared := b.declared ++ [v] }

/-- Lowers a declaration, whose variables are bound at its end. -/
def declaration (b : Body) (inside : Body → Body) : Body :=
  let after := inside { b with declared := [] }
  { after with locals := after.locals ++ after.declared, declared := b.declared }

/-- Lowers what a guarded region encloses between the calls that enter and leave it. -/
def guarded (b : Body) (guard : String) (inside : Body → Body) : Body :=
  let region := b.nextRegion
  let b := { b with nextRegion := region + 1 }
  let b := inside (b.addCall (Expr.monitorCall guard region true))
  b.addCall (Expr.monitorCall guard region false)

/-- Completes a declaration by what its body holds. -/
def into (b : Body) (m : MethodDecl) : MethodDecl :=
  { m with
    locals := m.locals ++ b.locals
    calls := m.calls ++ b.calls
    nested := m.nested ++ b.nested }

end Body

/-- The initializer of a view: a call without arguments on a name or on a field of `this`. -/
def viewSource? : Expr → Option ViewSource
  | .callOn (.ident name) method [] => some ⟨name, method⟩
  | .callOn (.member .this name) method [] => some ⟨name, method⟩
  | _ => none

/-- The text of a declared type and of the dimensions that follow the name. -/
def typeText (type dimensions : Option String) : String := type.getD "var" ++ dimensions.getD ""

/-- The kind of a binary operation by its operator. -/
def binaryKind (operator : String) : OperationKind :=
  if ["==", "!=", "<", ">", "<=", ">=", "&&", "||"].contains operator then .comparison
  else .arithmetic

end Interlock.Source
