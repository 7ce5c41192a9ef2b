import Interlock.Program.Expr

/-! Declarations of one source file. Types are still text here; they are resolved when the
declarations of the whole program are known. -/

namespace Interlock.Program

open Interlock.Text

inductive ClassKind where
  | ordinary
  | interface
  | enum
  deriving DecidableEq, Repr

/-- An initializer of the form `reference.method()`, by which a view of a read/write lock names
the lock it belongs to. -/
structure ViewSource where
  reference : String
  method : String
  deriving DecidableEq, Repr

structure VariableDecl where
  type : String
  name : String
  init : Option ViewSource := none
  deriving DecidableEq, Repr

structure MethodDecl where
  name : String
  /-- The return type; constructors have none. -/
  returns : Option String := some "void"
  params : List VariableDecl := []
  typeParams : List String := []
  locals : List VariableDecl := []
  /-- The call sites in source order. -/
  calls : List Expr := []
  /-- Local functions, and methods of anonymous classes, declared in the body. -/
  nested : List MethodDecl := []
  isAbstract : Bool := false
  isStatic : Bool := false
  /-- Declared to be called from outside, such as an accessor of an event. -/
  isEntryPoint : Bool := false
  deriving Repr, Inhabited

structure ClassDecl where
  name : String
  kind : ClassKind := .ordinary
  isAbstract : Bool := false
  typeParams : List String := []
  supertypes : List String := []
  fields : List VariableDecl := []
  enumConstants : List String := []
  methods : List MethodDecl := []
  nested : List ClassDecl := []
  deriving Repr, Inhabited

structure ImportDecl where
  /-- The dotted path without a final `.*`. -/
  path : String
  isStatic : Bool := false
  wildcard : Bool := false
  deriving DecidableEq, Repr

structure SourceUnit where
  path : String
  /-- The package or namespace, empty for the default one. -/
  package : String := ""
  imports : List ImportDecl := []
  classes : List ClassDecl := []
  deriving Repr

/-- Removes `part` from the front as often as it occurs there. -/
def dropStarts (part : List Char) : Nat → List Char → List Char
  | 0, cs => cs
  | fuel + 1, cs =>
    match dropStartChars? part cs with
    | some rest => dropStarts part fuel rest
    | none => cs

/-- Reads an import as a statement writes it. -/
def ImportDecl.ofText (text : String) : ImportDecl :=
  let marker := "static ".toList
  let path := trimChars (dropStarts marker text.length text.toList)
  { path := String.ofList (dropStarts ['*', '.'] path.length path.reverse).reverse
    isStatic := startsWith "static " text
    wildcard := endsWith ".*" (String.ofList path) }

end Interlock.Program
