import Interlock.Source.Lowering

/-! The grammar of C#, and the declarations of C# files. -/

namespace Interlock.Source.CSharp

open Interlock.Program Interlock.Text

/-- Kinds of nodes that name a namespace or a type. -/
def nameKinds : List String :=
  ["identifier", "qualified_name", "generic_name", "alias_qualified_name"]

def modifiers (n : Node) : List String :=
  (n.namedChildren.filter fun c => c.kind == "modifier").map (·.text)

def typeParams (n : Node) : List String :=
  match (n.child? "type_parameters").or (n.childOfKind? ["type_parameter_list"]) with
  | some list =>
    (list.namedChildren.filter fun p => p.kind == "type_parameter").map fun p =>
      (p.textAt? "name").getD p.text
  | none => []

def param? (p : Node) : Option VariableDecl :=
  (p.textAt? "name").map fun name =>
    let type := typeText (p.textAt? "type") none
    let spread := p.hasToken "params" && !endsWith "]" type
    { type := if spread then type ++ "[]" else type, name }

def params (n : Node) : List VariableDecl :=
  (n.namedChildren.filter fun p => p.kind == "parameter").filterMap (param? ·.toNode)

/-- The parameters of a declaration. -/
def declaredParams (n : Node) : List VariableDecl :=
  ((n.child? "parameters").map (params ·.toNode)).getD []

/-- The types in the base list of a class. -/
def supertypes (n : Node) : List String :=
  match n.childOfKind? ["base_list"] with
  | some list =>
    list.namedChildren.filterMap fun base =>
      match base.kind with
      | "primary_constructor_base_type" => base.namedChildren.head?.map (·.text)
      | "argument_list" => none
      | _ => some base.text
  | none => []

def classKind? (kind : String) : Option ClassKind :=
  match kind with
  | "class_declaration" | "struct_declaration" | "record_declaration"
  | "record_struct_declaration" => some .ordinary
  | "interface_declaration" => some .interface
  | "enum_declaration" => some .enum
  | _ => none

def literal? (kind : String) : Option LiteralKind :=
  match kind with
  | "integer_literal" => some .integer
  | "real_literal" => some .real
  | "character_literal" => some .char
  | "string_literal" | "verbatim_string_literal" | "raw_string_literal" => some .string
  | "boolean_literal" | "true" | "false" => some .boolean
  | "null_literal" => some .null
  | _ => none

/-- An attribute makes the whole body of a member a guarded region. -/
def isSynchronized (n : Node) : Bool :=
  n.namedChildren.any fun c =>
    c.kind == "attribute_list" && contains "MethodImplOptions.Synchronized" c.text

/-- The name of a member without its type arguments. -/
def simpleName (n : Node) : String :=
  match n.kind with
  | "generic_name" =>
    (((n.child? "name").or (n.childOfKind? ["identifier"])).map (·.text)).getD n.text
  | "member_binding_expression" =>
    match n.child? "name" with
    | some name => simpleName name.toNode
    | none => ""
  | _ => n.text
termination_by n.count
decreasing_by exact name.count_lt

/-- The parameters of a lambda, which are local variables of the method around it. -/
def lambdaParams (n : Node) : List VariableDecl :=
  if n.kind = "identifier" then [{ type := "var", name := n.text }]
  else
    (n.namedChildren.filter fun p => p.kind == "parameter").filterMap fun p =>
      (p.textAt? "name").map fun name => { type := typeText (p.textAt? "type") none, name }

/-! ## Methods -/

/-- The body of a member: a block or an expression. -/
def bodyNode? (n : Node) : Option n.Below :=
  (n.child? "body").or (n.childOfKind? ["block", "arrow_expression_clause"])

/-- The declaration of a method without its body. -/
def methodHead (n : Node) (className : String) (inInterface : Bool) : MethodDecl :=
  let mods := modifiers n
  let start : MethodDecl :=
    match n.kind with
    | "constructor_declaration" => { name := className, returns := none }
    | "destructor_declaration" => { name := "Finalize" }
    | _ =>
      { name := (n.textAt? "name").getD "operator"
        returns := some (typeText ((n.textAt? "returns").or (n.textAt? "type")) none) }
  { start with
    typeParams := typeParams n
    isStatic := mods.contains "static"
    isAbstract := mods.contains "abstract" ||
      ((bodyNode? n).isNone && (inInterface || !mods.contains "extern"))
    params := declaredParams n }

theorem bare_methodHead (n : Node) (className : String) (inInterface : Bool) :
    (methodHead n className inInterface).calls = [] ∧
      (methodHead n className inInterface).nested = [] := by
  unfold methodHead
  dsimp only
  split <;> exact ⟨rfl, rfl⟩

def localFunctionHead (n : Node) : MethodDecl where
  name := (n.textAt? "name").getD "local"
  returns := some (typeText ((n.textAt? "type").or (n.textAt? "returns")) none)
  typeParams := typeParams n
  isStatic := (modifiers n).contains "static"
  params := declaredParams n

/-- The guard of a synchronized method. -/
def methodGuard (m : MethodDecl) (className : String) : String :=
  if m.isStatic then "typeof(" ++ className ++ ")" else "this"

section Members

variable {n : Node}

def methodPlan (className : String) (inInterface : Bool) (m : n.Below) : MethodPlan n :=
  let head := methodHead m.toNode className inInterface
  { head
    initializer := (m.childOfKind? ["constructor_initializer"]).map m.lift
    guard := if isSynchronized m.toNode then some (methodGuard head className) else none
    body := (bodyNode? m.toNode).map m.lift
    bare := bare_methodHead .. }

/-- The accessors of a property, an indexer or an event. -/
def accessorPlans (m : n.Below) (name : String) : List (MethodPlan n) :=
  let getter := match m.child? "value" with
    | some value =>
      if value.kind = "arrow_expression_clause" then
        [{ head := { name := "get_" ++ name }, body := some (m.lift value) }]
      else []
    | none => []
  let list := ((m.child? "accessors").or (m.childOfKind? ["accessor_list"])).map m.lift
  let declared : List n.Below := match list with
    | some list =>
      (list.namedChildren.filter fun a => a.kind == "accessor_declaration").map list.lift
    | none => []
  getter ++ declared.filterMap fun a =>
    (bodyNode? a.toNode).map fun block =>
      { head :=
          { name := (a.textAt? "name").getD "get" ++ "_" ++ name
            isStatic := (modifiers m.toNode).contains "static" }
        guard := if isSynchronized a.toNode then some "this" else none
        body := some (a.lift block) }

/-- The methods that a member of a class is or stands for; `events` counts the accessors of events
seen so far, by which they are named. -/
def memberPlans (className : String) (inInterface : Bool) (m : n.Below) (events : Nat) :
    List (MethodPlan n) × Nat :=
  match m.kind with
  | "property_declaration" =>
    match m.textAt? "name" with
    | some name => (accessorPlans m name, events)
    | none => ([], events)
  | "indexer_declaration" => (accessorPlans m "Item", events)
  | "event_declaration" =>
    let found := accessorPlans m ""
    let numbered := found.mapIdx fun i p =>
      { p with
        head := { p.head with name := "event_" ++ toString (events + i), isEntryPoint := true }
        bare := p.bare }
    (numbered, events + found.length)
  | "method_declaration" | "constructor_declaration" | "destructor_declaration"
  | "operator_declaration" | "conversion_operator_declaration" =>
    ([methodPlan className inInterface m], events)
  | _ => ([], events)

end Members

def classMembers (n : Node) : List n.Below :=
  match (n.child? "body").or
    (n.childOfKind? ["declaration_list", "enum_member_declaration_list"]) with
  | some body => body.namedChildren.map body.lift
  | none => []

/-- The methods of a class; a node that declares no class has none. -/
def classPlans (n : Node) : List (MethodPlan n) :=
  match classKind? n.kind, n.textAt? "name" with
  | some kind, some name =>
    (mapThrough (memberPlans name (kind == .interface)) (classMembers n) 0).1.flatten
  | _, _ => []

/-! ## Expressions -/

/-- The initial value of a declarator: its first part that is neither the name nor a list of
dimensions. -/
def declaratorValue? (n : Node) : Option n.Below :=
  let named := (n.child? "name").isSome
  let parts := (n.parts.eraseP fun c => c.field == "name").filter (·.named)
  parts.findSome? fun c =>
    match c.kind with
    | "equals_value_clause" => c.operandChildren.head?.map c.lift
    | "bracketed_argument_list" | "tuple_pattern" => none
    | "identifier" => if named then some c else none
    | _ => some c

/-- The nodes of the arguments in a list. The value of an argument is its last part. -/
def argNodes {n : Node} (list : Option n.Below) : List n.Below :=
  match list with
  | some list =>
    list.namedChildren.filterMap fun a =>
      match a.kind with
      | "argument" => a.operandChildren.getLast?.map fun value => list.lift (a.lift value)
      | "comment" => none
      | _ => some (list.lift a)
  | none => []

def partNodes (n : Node) : List n.Below := n.operandChildren.filter fun c => c.kind != "comment"

/-- The call enters or leaves the monitor of its first argument. -/
def isMonitorCall (receiver name : String) : Bool :=
  (receiver == "Monitor" || endsWith ".Monitor" receiver) &&
    ["Enter", "TryEnter", "Exit"].contains name

/-- The guard and the effect of a call that enters or leaves a monitor. -/
def monitorCall? (n : Node) : Option (String × Bool) := do
  let function ← n.child? "function"
  let guard ← (argNodes (n.child? "arguments")).head?
  let receiver := (function.textAt? "expression").getD ""
  let name := ((function.child? "name").map (simpleName ·.toNode)).getD ""
  if function.kind == "member_access_expression" && isMonitorCall receiver name then
    some (guard.compactText, name != "Exit")
  else none

/-- How a call is made up. -/
def invocation (n : Node) : Shape n :=
  let args := argNodes (n.child? "arguments")
  match n.child? "function" with
  | none => .node .other args
  | some function =>
    match function.kind with
    | "member_access_expression" =>
      match monitorCall? n with
      | some (guard, acquire) => .monitor guard acquire
      | none =>
        let name := ((function.child? "name").map (simpleName ·.toNode)).getD ""
        .headed .this (.callOn · name) ((function.child? "expression").map function.lift) args
    | "conditional_access_expression" =>
      let name := match function.childOfKind? ["member_binding_expression"] with
        | some binding => simpleName binding.toNode
        | none => "Invoke"
      let target := (function.child? "condition").or function.namedChildren.head?
      .headed .this (.callOn · name) (target.map function.lift) args
    | "identifier" | "generic_name" => .node (.call (simpleName function.toNode)) args
    | _ => .headed .this (.callOn · "Invoke") (some function) args

/-- An object creation, with the initializer that stands behind the arguments if it invokes
anything. -/
def created (type : String) (parts : List Expr) (initializer : Expr) : Expr :=
  let created : Expr := .new { text := type } parts
  if initializer.invokes then .other [created, initializer] else created

/-- How a node is made up as an expression. -/
def shape (n : Node) : Shape n :=
  match n.kind with
  | "invocation_expression" => invocation n
  | "member_access_expression" =>
    let name := ((n.child? "name").map (simpleName ·.toNode)).getD ""
    .headed .this (fun target _ => .member target name) (n.child? "expression")
  | "conditional_access_expression" =>
    let target := (n.child? "condition").or n.namedChildren.head?
    match n.childOfKind? ["member_binding_expression"] with
    | some binding =>
      .headed .this (fun target _ => .member target (simpleName binding.toNode)) target
    | none => .headed .this (fun target _ => .other [target]) target
  | "identifier" | "predefined_type" => .leaf (.ident n.text)
  | "generic_name" => .leaf (.ident (simpleName n))
  | "this" | "this_expression" => .leaf .this
  | "base" | "base_expression" => .leaf .super
  | "object_creation_expression" =>
    let type := (n.textAt? "type").getD "object"
    let args := argNodes (n.child? "arguments")
    match n.child? "initializer" with
    | some initializer =>
      .node (fun es => created type es.dropLast (es.getLast?.getD (.other [])))
        (args ++ [initializer])
    | none => .node (.new { text := type }) args
  | "implicit_object_creation_expression" =>
    .node (.new { text := "var" }) (argNodes (n.childOfKind? ["argument_list"]))
  | "array_creation_expression" | "implicit_array_creation_expression"
  | "stackalloc_expression" =>
    let elements :=
      match (n.child? "initializer").or (n.childOfKind? ["initializer_expression"]) with
      | some initializer => (partNodes initializer.toNode).map initializer.lift
      | none => []
    .node (.newArray { text := (n.textAt? "type").getD "object[]" }) elements
  | "element_access_expression" =>
    .headed .this .index (n.child? "expression") (argNodes (n.child? "subscript"))
  | "cast_expression" =>
    let type := (n.textAt? "type").getD "object"
    .headed (.other []) (fun operand _ => .cast { text := type } operand) (n.child? "value")
  | "as_expression" =>
    let type := (n.textAt? "right").getD "object"
    .headed (.other []) (fun operand _ => .cast { text := type } operand) (n.child? "left")
  | "parenthesized_expression" =>
    match n.operandChildren with
    | inner :: _ => .headed (.other []) (fun inner _ => .paren inner) (some inner)
    | [] => .leaf (.other [])
  | "await_expression" => .headed (.other []) (fun inner _ => inner) n.operandChildren.head?
  | "interpolated_string_expression" =>
    let holes := n.namedChildren.filter fun c => c.kind == "interpolation"
    .node (fun es => .operation .arithmetic (.literal .string :: es))
      (holes.flatMap fun hole => (partNodes hole.toNode).map hole.lift)
  | "binary_expression" =>
    let kind := binaryKind ((n.textAt? "operator").getD "+")
    .node (.operation kind) (n.childrenAt ["left", "right"])
  | "prefix_unary_expression" | "postfix_unary_expression" =>
    let negation := startsWith "!" (String.ofList (n.text.toList.dropWhile isBlank))
    .node (.operation (if negation then .comparison else .arithmetic)) (partNodes n)
  | "assignment_expression" => .node (.operation .assignment) (n.childrenAt ["left", "right"])
  | "conditional_expression" =>
    .node (.operation .conditional) (n.childrenAt ["condition", "consequence", "alternative"])
  | "is_expression" | "is_pattern_expression" =>
    .node (.operation .comparison) (n.childrenAt ["left", "expression"])
  | "typeof_expression" =>
    let type := (n.child? "type").or n.namedChildren.head?
    .leaf (.classLiteral { text := (type.map (·.text)).getD "object" })
  | "lambda_expression" | "anonymous_method_expression" =>
    let params := (n.child? "parameters").or (n.childOfKind? ["parameter_list"])
    .form
      { make := fun _ => .other []
        binds := (params.map (lambdaParams ·.toNode)).getD []
        body := (n.child? "body").or (n.childOfKind? ["block"]) }
  | "declaration_expression" =>
    match n.textAt? "name" with
    | some name =>
      .form
        { make := fun _ => .ident name
          binds := [{ type := typeText (n.textAt? "type") none, name }] }
    | none => .leaf (.other [])
  | kind =>
    match literal? kind with
    | some literal => .leaf (.literal literal)
    | none => .node .other (partNodes n)

/-! ## Statements -/

/-- A statement by its kind. -/
def isStatement (kind : String) : Bool :=
  endsWith "_statement" kind ||
    ["block", "variable_declaration", "switch_body", "switch_section"].contains kind

/-- Labels, patterns and comments hold nothing to lower. -/
def isSkipped (kind : String) : Bool :=
  endsWith "_label" kind || endsWith "pattern" kind || kind == "comment"

/-- The declarators of a declaration, with the nodes of their initial values. -/
def declarators (n : Node) : List (VariableDecl × Option n.Below) :=
  let type := typeText (n.textAt? "type") none
  let declarators := n.namedChildren.filter fun c => c.kind == "variable_declarator"
  declarators.filterMap fun d =>
    ((d.child? "name").or (d.childOfKind? ["identifier"])).map fun name =>
      ({ type, name := name.text }, (declaratorValue? d.toNode).map d.lift)

section Tasks

variable {n : Node}

def statementOrExpr (m : n.Below) : List (Task n) :=
  if isStatement m.kind then [.statement m]
  else if isSkipped m.kind then []
  else [.record m]

def declarationTask (d : n.Below) : Task n :=
  .declare ((declarators d.toNode).map fun (v, value) => (v, value.map d.lift))

def catchTasks (c : n.Below) : List (Task n) :=
  let bound : Option VariableDecl := do
    let d ← c.childOfKind? ["catch_declaration"]
    return { type := typeText (d.textAt? "type") none, name := ← d.textAt? "name" }
  (bound.map .bind).toList ++ ((c.child? "body").map fun block => .statement (c.lift block)).toList

end Tasks

/-- What a statement consists of, `none` for an expression. A kind of statement that is not listed
has no tasks, no more than one that is skipped. -/
def tasks (n : Node) : Option (List (Task n)) :=
  match n.kind with
  | "block" | "switch_body" | "switch_section" | "checked_statement" | "unsafe_statement"
  | "finally_clause" | "arrow_expression_clause" => some (n.namedChildren.flatMap statementOrExpr)
  | "comment" | "empty_statement" | "break_statement" | "continue_statement"
  | "goto_statement" => some []
  | "local_declaration_statement" | "using_statement" | "fixed_statement" =>
    some (n.namedChildren.flatMap fun c =>
      match c.kind with
      | "variable_declaration" => [declarationTask c]
      | "modifier" => []
      | _ => statementOrExpr c)
  | "variable_declaration" => some [.declare (declarators n)]
  | "expression_statement" => some (n.namedChildren.map .record)
  | "lock_statement" =>
    match n.operandChildren with
    | guard :: inside => some [.record guard, .region guard.compactText inside]
    | [] => some [.region "this" []]
  | "if_statement" | "while_statement" | "do_statement" =>
    let parts := n.childrenAt ["condition", "consequence", "alternative", "body"]
    some (parts.flatMap statementOrExpr)
  | "for_statement" =>
    let head := ["initializer", "condition", "update"].flatMap n.childrenIn
    some (head.flatMap statementOrExpr ++ (n.childrenAt ["body"]).map .statement)
  | "foreach_statement" =>
    let bound : Option VariableDecl := do
      let type ← n.textAt? "type"
      let left ← n.child? "left"
      if left.kind = "identifier" then some { type, name := left.text } else none
    some ((bound.map .bind).toList ++ (n.childrenAt ["right"]).map .record ++
      (n.childrenAt ["body"]).map .statement)
  | "try_statement" =>
    some (n.namedChildren.flatMap fun c =>
      if c.kind = "catch_clause" then catchTasks c else [.statement c])
  | "return_statement" | "throw_statement" | "yield_statement" =>
    some (n.namedChildren.map .record)
  | "switch_statement" =>
    some ((n.childrenAt ["value"]).map .record ++ (n.childrenAt ["body"]).map .statement)
  | "labeled_statement" =>
    some ((n.namedChildren.filter fun c => c.kind != "identifier").map .statement)
  | "local_function_statement" =>
    some [.method { head := localFunctionHead n, body := bodyNode? n }]
  | kind => if isStatement kind || isSkipped kind then some [] else none

def grammar : Grammar where
  shape := shape
  tasks := tasks
  classPlans := classPlans
  isBlock n := n.kind == "block"

/-! ## Declarations -/

/-- The fields that a member of a class declares. -/
def fieldDecls (m : Node) : List VariableDecl :=
  match m.kind with
  | "field_declaration" | "event_field_declaration" =>
    match m.childOfKind? ["variable_declaration"] with
    | some d => grammar.declared (declarators d.toNode)
    | none => []
  | "property_declaration" =>
    ((m.textAt? "name").map fun name =>
      { type := typeText (m.textAt? "type") none, name }).toList
  | _ => []

def enumConstant? (m : Node) : Option String :=
  if m.kind = "enum_member_declaration" then m.textAt? "name" else none

/-- Lowers the declaration of a class, struct, record, interface or enumeration. -/
def classDecl (n : Node) : Option ClassDecl :=
  match classKind? n.kind, n.textAt? "name" with
  | some kind, some name =>
    let members := classMembers n
    some
      { name
        kind
        isAbstract := (modifiers n).contains "abstract"
        typeParams := typeParams n
        supertypes := supertypes n
        fields := ((n.childOfKind? ["parameter_list"]).map (params ·.toNode)).getD [] ++
          members.flatMap (fieldDecls ·.toNode)
        enumConstants := members.filterMap (enumConstant? ·.toNode)
        methods := grammar.classMethods n
        nested := members.filterMap fun m => classDecl m.toNode }
  | _, _ => none
termination_by n.count
decreasing_by exact m.count_lt

def using? (n : Node) : Option ImportDecl :=
  (n.namedChildren.reverse.find? fun c => nameKinds.contains c.kind).map fun name =>
    { path := name.text, isStatic := n.hasToken "static", wildcard := true }

/-- Adds the declarations below a node to a unit. A file has one package: that of its first
class. -/
def namespaceMembers (space : String) (n : Node) (u : SourceUnit) : SourceUnit :=
  let step (acc : String × SourceUnit) (c : n.Below) : String × SourceUnit :=
    let (space, u) := acc
    match c.kind with
    | "using_directive" =>
      match using? c.toNode with
      | some i => (space, { u with imports := u.imports ++ [i] })
      | none => acc
    | "namespace_declaration" =>
      let name := (c.textAt? "name").getD ""
      let qualified := if space.isEmpty then name else space ++ "." ++ name
      match (c.child? "body").map c.lift with
      | some body => (space, namespaceMembers qualified body.toNode u)
      | none => acc
    | "file_scoped_namespace_declaration" =>
      match c.textAt? "name" with
      | some name => (name, namespaceMembers name c.toNode { u with package := name })
      | none => (space, namespaceMembers space c.toNode u)
    | _ =>
      match classDecl c.toNode with
      | some d =>
        (space, { u with
          package := if u.package.isEmpty then space else u.package
          classes := u.classes ++ [d] })
      | none => acc
  (n.namedChildren.foldl step (space, u)).2
termination_by n.count
decreasing_by
  · exact body.count_lt
  all_goals exact c.count_lt

def unit (path : String) (root : Node) : SourceUnit := namespaceMembers "" root { path }

/-- The expression that the only field of a probe class is initialised with. -/
def probeExpr? (root : Node) : Option Expr := do
  let cls ← root.childOfKind? ["class_declaration"]
  let body ← (cls.child? "body").or (cls.childOfKind? ["declaration_list"])
  let field ← body.childOfKind? ["field_declaration"]
  let declaration ← field.childOfKind? ["variable_declaration"]
  let declarator ← declaration.childOfKind? ["variable_declarator"]
  let value ← declaratorValue? declarator.toNode
  match ((grammar.expr value.toNode).value 0).1 with
  | .paren inner => some inner
  | other => some other

/-- A source whose only expression is the given text. -/
def probeSource (text : String) : String :=
  "class __Probe \x7b object __probe = (" ++ text ++ "); \x7d"

end Interlock.Source.CSharp
