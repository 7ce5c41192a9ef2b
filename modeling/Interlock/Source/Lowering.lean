import Interlock.Source.Script
import Interlock.Threading

/-! Lowering of syntax trees to scripts.

The grammar of a language says what the kinds of nodes are: which parts an expression is made of,
and what a statement consists of. Walking over a tree by such a description is the same for all
languages. -/

namespace Interlock.Source

open Interlock.Program

/-! ## Descriptions of nodes -/

/-- A method whose body stands below a node. -/
structure MethodPlan (n : Node) where
  /-- The declaration without what the body holds. -/
  head : MethodDecl
  /-- An expression that runs before the body. -/
  initializer : Option n.Below := none
  /-- The body is a region with this guard. -/
  guard : Option String := none
  body : Option n.Below := none
  bare : head.calls = [] ∧ head.nested = [] := by exact ⟨rfl, rfl⟩

/-- How an expression is made of its parts. -/
structure Form (n : Node) where
  /-- The parts, in the order of evaluation. -/
  parts : List n.Below := []
  make : List Expr → Expr
  /-- Variables that the expression binds in the method around it. -/
  binds : List VariableDecl := []
  /-- The body of a lambda, which is not a part: it runs later, if at all. -/
  body : Option n.Below := none
  /-- The methods of an anonymous class. -/
  methods : List (MethodPlan n) := []

inductive Shape (n : Node) where
  | form (f : Form n)
  /-- A call that enters or leaves a region. -/
  | monitor (guard : String) (acquire : Bool)

namespace Shape

variable {n : Node}

def leaf (e : Expr) : Shape n := .form { make := fun _ => e }

def node (make : List Expr → Expr) (parts : List n.Below) : Shape n := .form { parts, make }

/-- An expression whose first part has a role of its own; `missing` stands for it if there is
none. -/
def headed (missing : Expr) (make : Expr → List Expr → Expr) (first : Option n.Below)
    (rest : List n.Below := []) : Shape n :=
  match first with
  | some part => node (fun es => make (es.head?.getD missing) es.tail) (part :: rest)
  | none => node (make missing) rest

end Shape

/-- What a statement consists of. -/
inductive Task (n : Node) where
  | statement (m : n.Below)
  | record (m : n.Below)
  /-- Expressions that are recorded as one. -/
  | recordAll (ms : List n.Below)
  | bind (v : VariableDecl)
  /-- A variable with an initial value, which becomes a call site. -/
  | assign (v : VariableDecl) (value : n.Below)
  /-- Variables that are bound together, after their initial values. -/
  | declare (vs : List (VariableDecl × Option n.Below))
  | region (guard : String) (inside : List n.Below)
  | method (p : MethodPlan n)

structure Grammar where
  shape : (n : Node) → Shape n
  /-- What a statement consists of, `none` for an expression. -/
  tasks : (n : Node) → Option (List (Task n))
  /-- The methods of the class that a node declares. -/
  classPlans : (n : Node) → List (MethodPlan n)
  /-- The body of a lambda is a statement and not an expression. -/
  isBlock : Node → Bool

/-! ## Scripts of nodes -/

/-- An expression that is lowered. -/
structure Lowered where
  /-- What it binds and declares. -/
  steps : Script := []
  /-- The bodies of its lambdas, which wait until it is recorded. -/
  bodies : List Script := []
  /-- The expression; calls that enter or leave regions take numbers. -/
  value : Nat → Expr × Nat

namespace Lowered

def monitor (guard : String) (acquire : Bool) : Lowered where
  value number := (Expr.monitorCall guard number acquire, number + 1)

/-- An expression of parts. -/
def join (make : List Expr → Expr) (parts : List Lowered) : Lowered where
  steps := parts.flatMap (·.steps)
  bodies := parts.flatMap (·.bodies)
  value number :=
    let (es, number) := mapThrough (fun (p : Lowered) => p.value) parts number
    (make es, number)

def record (e : Lowered) : Script := e.steps ++ [.record e.value e.bodies]

/-- A variable with the view that its initial value is. -/
def initial (e : Lowered) (v : VariableDecl) (number : Nat) : VariableDecl :=
  { v with init := viewSource? (e.value number).1 }

end Lowered

section Node

variable {n : Node} (expr : n.Below → Lowered) (statement : n.Below → Script)

def MethodPlan.script (p : MethodPlan n) : Script :=
  let before := (p.initializer.map fun m => (expr m).record).getD []
  let body := (p.body.map statement).getD []
  before ++ match p.guard with
    | some guard => if p.body.isSome then [.region guard body] else []
    | none => body

def MethodPlan.step (p : MethodPlan n) : Step := .method p.head (p.script expr statement)

def Form.lower (isBlock : Node → Bool) (f : Form n) : Lowered :=
  let whole := Lowered.join f.make (f.parts.map expr)
  { whole with
    steps := whole.steps ++ f.binds.map .bind ++ f.methods.map (·.step expr statement)
    bodies := whole.bodies ++ (f.body.map fun m =>
      if isBlock m.toNode then statement m else (expr m).record).toList }

def declarator (d : VariableDecl × Option n.Below) : Script :=
  match d.2 with
  | some value =>
    let e := expr value
    e.steps ++ [.declare (e.initial d.1), .record e.value e.bodies]
  | none => [.declare fun _ => d.1]

def Task.script : Task n → Script
  | .statement m => statement m
  | .record m => (expr m).record
  | .recordAll ms => (Lowered.join .other (ms.map expr)).record
  | .bind v => [.bind v]
  | .assign v value =>
    let e := expr value
    e.steps ++ [.bind (e.initial v 0), .record e.value e.bodies]
  | .declare vs => [.declaration (vs.flatMap (declarator expr))]
  | .region guard inside => [.region guard (inside.flatMap statement)]
  | .method p => [p.step expr statement]

end Node

namespace Grammar

variable (g : Grammar)

mutual

/-- Lowers a node as an expression. -/
def expr (n : Node) : Lowered :=
  match g.shape n with
  | .form f => f.lower (fun m => expr m.toNode) (fun m => statement m.toNode) g.isBlock
  | .monitor guard acquire => .monitor guard acquire
termination_by 2 * n.count
decreasing_by
  all_goals
    have := m.count_lt
    omega

/-- Lowers a node as a statement; one that is no statement is recorded. -/
def statement (n : Node) : Script :=
  match g.tasks n with
  | some ts =>
    ts.flatMap (·.script (fun m => expr m.toNode) (fun m => statement m.toNode))
  | none => (expr n).record
termination_by 2 * n.count + 1
decreasing_by
  all_goals
    first
      | have := m.count_lt; omega
      | omega

end

def script {n : Node} (p : MethodPlan n) : Script :=
  p.script (fun m => g.expr m.toNode) fun m => g.statement m.toNode

/-- The declaration of a method, with what its body holds. -/
def method {n : Node} (p : MethodPlan n) : MethodDecl := (Script.run (g.script p) [] {}).into p.head

def classMethods (n : Node) : List MethodDecl := (g.classPlans n).map g.method

/-- The variables of a declaration, with the views that their initial values are. -/
def declared {n : Node} (vs : List (VariableDecl × Option n.Below)) : List VariableDecl :=
  (Script.run (vs.flatMap (declarator fun m => g.expr m.toNode)) [] {}).declared

end Grammar

end Interlock.Source
