import Interlock.Source.Lowering

/-! The grammar of Java, and the declarations of Java files. -/

namespace Interlock.Source.Java

open Interlock.Program Interlock.Text

/-- The keywords among the modifiers of a declaration. -/
def modifiers (n : Node) : List String :=
  match n.childOfKind? ["modifiers"] with
  | some list => (list.children.filter fun c => !c.named).map (·.kind)
  | none => []

def typeParams (n : Node) : List String :=
  match n.child? "type_parameters" with
  | some list =>
    (list.namedChildren.filter fun p => p.kind == "type_parameter").filterMap fun p =>
      p.namedChildren.head?.map (·.text)
  | none => []

def param? (p : Node) : Option VariableDecl :=
  match p.kind with
  | "formal_parameter" =>
    (p.textAt? "name").map fun name =>
      { type := typeText (p.textAt? "type") (p.textAt? "dimensions"), name }
  | "spread_parameter" => do
    let type ← p.namedChildren.find? fun c =>
      c.kind != "modifiers" && c.kind != "variable_declarator"
    let declarator ← p.childOfKind? ["variable_declarator"]
    let name ← declarator.textAt? "name"
    return { type := type.text ++ "[]", name }
  | _ => none

def params (n : Node) : List VariableDecl := n.namedChildren.filterMap (param? ·.toNode)

/-- The parameters of a declaration. -/
def declaredParams (n : Node) : List VariableDecl :=
  ((n.child? "parameters").map (params ·.toNode)).getD []

/-- The classes and interfaces that a class names as its supertypes. -/
def supertypes (n : Node) : List String :=
  let superclass := match n.child? "superclass" with
    | some s => s.namedChildren.map (·.text)
    | none => []
  let interfaces :=
    match (n.child? "interfaces").or
      (n.childOfKind? ["extends_interfaces", "super_interfaces"]) with
    | some list => list.namedChildren.flatMap fun types => types.namedChildren.map (·.text)
    | none => []
  superclass ++ interfaces

def classKind? (kind : String) : Option ClassKind :=
  match kind with
  | "class_declaration" | "record_declaration" => some .ordinary
  | "interface_declaration" | "annotation_type_declaration" => some .interface
  | "enum_declaration" => some .enum
  | _ => none

def literal? (kind : String) : Option LiteralKind :=
  match kind with
  | "decimal_integer_literal" | "octal_integer_literal" => some .integer
  | "hex_integer_literal" => some .hex
  | "binary_integer_literal" => some .binary
  | "decimal_floating_point_literal" | "hex_floating_point_literal" => some .real
  | "character_literal" => some .char
  | "string_literal" | "text_block" => some .string
  | "true" | "false" => some .boolean
  | "null_literal" => some .null
  | _ => none

/-- The parameters of a lambda, which are local variables of the method around it. -/
def lambdaParams (n : Node) : List VariableDecl :=
  match n.kind with
  | "identifier" => [{ type := "var", name := n.text }]
  | "formal_parameters" => params n
  | _ =>
    (n.namedChildren.filter fun p => p.kind == "identifier").map fun p =>
      { type := "var", name := p.text }

/-! ## Methods -/

/-- The declaration of a method without its body. -/
def methodHead (n : Node) (className : String) (inInterface : Bool) : MethodDecl :=
  let mods := modifiers n
  let start : MethodDecl :=
    if n.kind = "method_declaration" then
      { name := (n.textAt? "name").getD "<anonymous>"
        returns := some (typeText (n.textAt? "type") (n.textAt? "dimensions")) }
    else { name := className, returns := none }
  { start with
    typeParams := typeParams n
    isStatic := mods.contains "static"
    isAbstract := mods.contains "abstract" ||
      ((n.child? "body").isNone && (inInterface || !mods.contains "native"))
    params := declaredParams n }

theorem bare_methodHead (n : Node) (className : String) (inInterface : Bool) :
    (methodHead n className inInterface).calls = [] ∧
      (methodHead n className inInterface).nested = [] := by
  unfold methodHead
  dsimp only
  split <;> exact ⟨rfl, rfl⟩

/-- The guard of a synchronized method. -/
def methodGuard (m : MethodDecl) (className : String) : String :=
  if m.isStatic then className ++ ".class" else "this"

section Members

variable {n : Node} (className : String) (inInterface : Bool)

/-- A method or constructor with its body. -/
def methodPlan (m : n.Below) : MethodPlan n :=
  let head := methodHead m.toNode className inInterface
  { head
    guard := if (modifiers m.toNode).contains "synchronized" then some (methodGuard head className)
      else none
    body := (m.child? "body").map m.lift
    bare := bare_methodHead .. }

/-- The method that a member of a class is or stands for. -/
def memberPlan? (m : n.Below) : Option (MethodPlan n) :=
  match m.kind with
  | "method_declaration" | "constructor_declaration" | "compact_constructor_declaration" =>
    some (methodPlan className inInterface m)
  | "static_initializer" => some { head := { name := "<clinit>" }, body := some m }
  | "block" => some { head := { name := "<init>" }, body := some m }
  | _ => none

end Members

/-- The members in the body of a class; those of an enumeration may stand one level deeper. -/
def members (n : Node) : List n.Below :=
  n.namedChildren.flatMap fun m =>
    if m.kind == "enum_body_declarations" then (members m.toNode).map m.lift else [m]
termination_by n.count
decreasing_by exact m.count_lt

def classMembers (n : Node) : List n.Below :=
  match n.child? "body" with
  | some body => (members body.toNode).map body.lift
  | none => []

/-- The methods of a class; a node that declares no class has none. -/
def classPlans (n : Node) : List (MethodPlan n) :=
  match classKind? n.kind, n.textAt? "name" with
  | some kind, some name => (classMembers n).filterMap (memberPlan? name (kind == .interface))
  | _, _ => []

/-! ## Expressions -/

/-- The operands in a list, comments left out. -/
def argNodes (n : Node) : List n.Below := n.namedChildren.filter fun c => !c.isComment

/-- The operands in the list that a child with a role is. -/
def argNodesAt (n : Node) (field : String) : List n.Below :=
  match n.child? field with
  | some list => (argNodes list.toNode).map list.lift
  | none => []

/-- The methods of an anonymous class. -/
def anonymousPlans (n : Node) (type : String) : List (MethodPlan n) :=
  match n.childOfKind? ["class_body"] with
  | some classBody =>
    let declared := classBody.namedChildren.filter fun m => m.kind == "method_declaration"
    declared.map fun m => methodPlan (trim (firstPiece '<' type)) false (classBody.lift m)
  | none => []

/-- How a node is made up as an expression. -/
def shape (n : Node) : Shape n :=
  match n.kind with
  | "method_invocation" =>
    let name := (n.textAt? "name").getD ""
    match n.child? "object" with
    | some object =>
      .headed (.other []) (.callOn · name) (some object) (argNodesAt n "arguments")
    | none => .node (.call name) (argNodesAt n "arguments")
  | "field_access" =>
    let name := (n.textAt? "field").getD ""
    .headed .this (fun target _ => .member target name) (n.child? "object")
  | "identifier" => .leaf (.ident n.text)
  | "this" => .leaf .this
  | "super" => .leaf .super
  | "object_creation_expression" =>
    let type := (n.textAt? "type").getD "Object"
    .form
      { parts := argNodesAt n "arguments"
        make := .new { text := type }
        methods := anonymousPlans n type }
  | "array_creation_expression" =>
    let dims := max (n.childrenIn "dimensions").length 1
    let type := match n.textAt? "type" with
      | some type => type ++ String.join (List.replicate dims "[]")
      | none => "Object[]"
    .node (.newArray { text := type }) (argNodesAt n "value")
  | "cast_expression" =>
    let type := (n.textAt? "type").getD "Object"
    .headed (.other []) (fun operand _ => .cast { text := type } operand) (n.child? "value")
  | "parenthesized_expression" =>
    match n.namedChildren with
    | inner :: _ => .headed (.other []) (fun inner _ => .paren inner) (some inner)
    | [] => .leaf (.other [])
  | "array_access" => .headed (.other []) .index (n.child? "array") (n.childrenAt ["index"])
  | "binary_expression" =>
    let kind := binaryKind ((n.textAt? "operator").getD "+")
    .node (.operation kind) (n.childrenAt ["left", "right"])
  | "unary_expression" =>
    let negation := (n.textAt? "operator").getD "-" == "!"
    .node (.operation (if negation then .comparison else .arithmetic)) (n.childrenAt ["operand"])
  | "update_expression" => .node (.operation .arithmetic) (argNodes n)
  | "assignment_expression" => .node (.operation .assignment) (n.childrenAt ["left", "right"])
  | "ternary_expression" =>
    .node (.operation .conditional) (n.childrenAt ["condition", "consequence", "alternative"])
  | "instanceof_expression" => .node (.operation .comparison) (n.childrenAt ["left"])
  | "lambda_expression" =>
    .form
      { make := fun _ => .other []
        binds := ((n.child? "parameters").map (lambdaParams ·.toNode)).getD []
        body := n.child? "body" }
  | "switch_expression" =>
    .form { parts := n.childrenAt ["condition"], make := .other, body := n.child? "body" }
  | "class_literal" =>
    .leaf (.classLiteral { text := (n.namedChildren.head?.map (·.text)).getD "Object" })
  | "method_reference" => .leaf (.other [])
  | kind =>
    match literal? kind with
    | some literal => .leaf (.literal literal)
    | none => .node .other (argNodes n)

/-! ## Statements -/

/-- The guard of a synchronized statement, between its parentheses. -/
def guardNode? (n : Node) : Option n.Below :=
  n.namedChildren.find? fun c => c.kind == "parenthesized_expression"

/-- A statement by its kind; everything else is lowered as an expression. -/
def isStatement (kind : String) : Bool :=
  endsWith "statement" kind || kind == "block" || kind == "local_variable_declaration"

section Tasks

variable {n : Node}

def statementOrExpr (m : n.Below) : Task n :=
  if isStatement m.kind then .statement m else .record m

/-- One declarator of a declaration of local variables. -/
def localTasks (type : Option String) (d : n.Below) : List (Task n) :=
  match d.textAt? "name" with
  | none => []
  | some name =>
    let v : VariableDecl := { type := typeText type (d.textAt? "dimensions"), name }
    match d.child? "value" with
    | none => [.bind v]
    | some value => [.assign v (d.lift value)]

def resourceTasks (r : n.Below) : List (Task n) :=
  match r.textAt? "name" with
  | some name =>
    .bind { type := typeText (r.textAt? "type") none, name } ::
      ((r.child? "value").map fun value => .record (r.lift value)).toList
  | none => r.namedChildren.map fun c => .record (r.lift c)

def catchTasks (c : n.Below) : List (Task n) :=
  let bound : Option VariableDecl := do
    let p ← c.childOfKind? ["catch_formal_parameter"]
    let type := (p.childOfKind? ["catch_type"]).bind fun t => t.namedChildren.head?.map (·.text)
    return { type := type.getD "Exception", name := ← p.textAt? "name" }
  (bound.map .bind).toList ++ ((c.child? "body").map fun block => .statement (c.lift block)).toList

end Tasks

/-- What a statement consists of, `none` for an expression. A kind of statement that is not listed,
such as a jump out of a loop, has no tasks. -/
def tasks (n : Node) : Option (List (Task n)) :=
  match n.kind with
  | "block" | "constructor_body" | "switch_block" | "switch_block_statement_group"
  | "static_initializer" | "finally_clause" | "program" =>
    some (n.namedChildren.map .statement)
  | "switch_rule" =>
    some ((n.namedChildren.filter fun c => c.kind != "switch_label").map .statement)
  | "switch_label" | "line_comment" | "block_comment" | "empty_statement" => some []
  | "local_variable_declaration" =>
    some ((n.childrenIn "declarator").flatMap (localTasks (n.textAt? "type")))
  | "expression_statement" | "parenthesized_expression" => some (n.namedChildren.map .record)
  | "synchronized_statement" =>
    let inner := (guardNode? n).bind fun guard => guard.namedChildren.head?.map (·.compactText)
    some (((guardNode? n).map .record).toList ++
      [.region (inner.getD "this") (n.child? "body").toList])
  | "if_statement" | "while_statement" | "do_statement" =>
    some ((n.childrenAt ["condition", "consequence", "alternative", "body"]).map statementOrExpr)
  | "for_statement" =>
    some ((n.childrenIn "init").map statementOrExpr ++ (n.childrenAt ["condition"]).map .record ++
      (n.childrenIn "update").map .record ++ (n.childrenAt ["body"]).map .statement)
  | "enhanced_for_statement" =>
    let bound := (n.textAt? "name").map fun name =>
      ({ type := typeText (n.textAt? "type") (n.textAt? "dimensions"), name } : VariableDecl)
    some ((bound.map .bind).toList ++ (n.childrenAt ["value"]).map .record ++
      (n.childrenAt ["body"]).map .statement)
  | "try_statement" | "try_with_resources_statement" =>
    let resources := match n.child? "resources" with
      | some list => list.namedChildren.map list.lift
      | none => []
    some (resources.flatMap resourceTasks ++ (n.childrenAt ["body"]).map .statement ++
      n.namedChildren.flatMap fun c =>
        match c.kind with
        | "catch_clause" => catchTasks c
        | "finally_clause" => [.statement c]
        | _ => [])
  | "return_statement" | "throw_statement" | "yield_statement" | "assert_statement" =>
    some (n.namedChildren.map .record)
  | "labeled_statement" =>
    some ((n.namedChildren.filter fun c => c.kind != "identifier").map .statement)
  | "explicit_constructor_invocation" =>
    some ((n.child? "arguments").map fun list =>
      .recordAll (list.namedChildren.map list.lift)).toList
  | "class_declaration" | "record_declaration" | "enum_declaration" | "interface_declaration" =>
    -- The methods of a local class run on behalf of the method around it.
    some ((classPlans n).map .method)
  | kind => if isStatement kind then some [] else none

def grammar : Grammar where
  shape := shape
  tasks := tasks
  classPlans := classPlans
  isBlock n := n.kind == "block" || n.kind == "switch_block"

/-! ## Declarations -/

/-- The fields that a member of a class declares. -/
def fieldDecls (m : Node) : List VariableDecl :=
  match m.kind with
  | "field_declaration" | "constant_declaration" =>
    (m.childrenIn "declarator").filterMap fun d =>
      (d.textAt? "name").map fun name =>
        { type := typeText (m.textAt? "type") (d.textAt? "dimensions")
          name
          init := (d.child? "value").bind fun v =>
            viewSource? ((grammar.expr v.toNode).value 0).1 }
  | _ => []

def enumConstant? (m : Node) : Option String :=
  if m.kind = "enum_constant" then m.textAt? "name" else none

/-- Lowers the declaration of a class, interface, enumeration or record. -/
def classDecl (n : Node) : Option ClassDecl :=
  match classKind? n.kind, n.textAt? "name" with
  | some kind, some name =>
    let members := classMembers n
    some
      { name
        kind
        isAbstract := (modifiers n).contains "abstract"
        typeParams := typeParams n
        supertypes := supertypes n
        fields := declaredParams n ++ members.flatMap (fieldDecls ·.toNode)
        enumConstants := members.filterMap (enumConstant? ·.toNode)
        methods := grammar.classMethods n
        nested := members.filterMap fun m => classDecl m.toNode }
  | _, _ => none
termination_by n.count
decreasing_by exact m.count_lt

/-- Adds one top-level declaration to a unit. -/
def topLevel (u : SourceUnit) (n : Node) : SourceUnit :=
  let name? := n.childOfKind? ["scoped_identifier", "identifier"]
  match n.kind with
  | "package_declaration" =>
    match name? with
    | some name => { u with package := name.text }
    | none => u
  | "import_declaration" =>
    match name? with
    | some name =>
      let found : ImportDecl :=
        { path := name.text, isStatic := n.hasToken "static", wildcard := n.hasToken "asterisk" }
      { u with imports := u.imports ++ [found] }
    | none => u
  | _ =>
    match classDecl n with
    | some c => { u with classes := u.classes ++ [c] }
    | none => u

def unit (path : String) (root : Node) : SourceUnit :=
  root.namedChildren.foldl (fun u n => topLevel u n.toNode) { path }

/-- The expression that the only field of a probe class is initialised with. -/
def probeExpr? (root : Node) : Option Expr := do
  let cls ← root.childOfKind? ["class_declaration"]
  let field ← (← cls.child? "body").childOfKind? ["field_declaration"]
  let value ← (← field.child? "declarator").child? "value"
  match ((grammar.expr value.toNode).value 0).1 with
  | .paren inner => some inner
  | other => some other

/-- A source whose only expression is the given text. -/
def probeSource (text : String) : String :=
  "class __Probe \x7b Object __probe = (" ++ text ++ "); \x7d"

end Interlock.Source.Java
