import Interlock.Program.Model

/-! Numbering of declarations. Classes and functions get consecutive numbers in the order in
which a file declares them: a class before its nested classes, a method before its local
functions, and the methods of a class before its nested classes. A function is recorded in its
class when it is numbered, a nested class in the class around it when all inside it is. -/

namespace Interlock.Program

/-- The classes and functions numbered so far. -/
structure Numbered where
  classes : Array Class := #[]
  functions : Array Function := #[]

namespace Numbered

/-- Gives a function the next number and records it among the methods of its class. -/
def numberFunction (fn : Function) (n : Numbered) : Numbered :=
  let id := n.functions.size
  { classes := n.classes.modify fn.cls fun c => { c with methods := c.methods ++ [id] }
    functions := n.functions.push { fn with id } }

/-- Gives a class the next number. -/
def numberClass (cls : Class) (n : Numbered) : Numbered :=
  { n with classes := n.classes.push { cls with id := n.classes.size } }

/-- Records a class that was numbered in the class around it, if there is one. -/
def recordNested (outer : Option ClassId) (d : ClassId) (n : Numbered) : Numbered :=
  match outer with
  | some o => { n with classes := n.classes.modify o fun c => { c with nested := c.nested ++ [d] } }
  | none => n

mutual

/-- Numbers a function, then its local functions. -/
def addMethod (cls : ClassId) (parent : Option FunctionId) (m : MethodDecl) (n : Numbered) :
    Numbered :=
  match m with
  | ⟨name, returns, params, typeParams, locals, calls, nested, isAbstract, isStatic, isEntry⟩ =>
    let id := n.functions.size
    let decl := ⟨name, returns, params, typeParams, locals, calls, nested, isAbstract, isStatic,
      isEntry⟩
    addMethods cls (some id) nested (n.numberFunction { decl, cls, parent, calls })

def addMethods (cls : ClassId) (parent : Option FunctionId) :
    List MethodDecl → Numbered → Numbered
  | [], n => n
  | m :: ms, n => addMethods cls parent ms (addMethod cls parent m n)

end

/-- Where a class is declared. -/
structure Place where
  unit : Nat
  package : String
  outer : Option ClassId := none
  /-- The qualified name of what is around the class, empty if nothing is. -/
  around : String

/-- A class as it is declared at a place. -/
def Place.classOf (place : Place) (c : ClassDecl) : Class :=
  { decl := c
    qualifiedName :=
      if place.outer.isNone && place.around.isEmpty then c.name else place.around ++ "." ++ c.name
    package := place.package
    outer := place.outer
    unit := place.unit }

mutual

/-- Numbers a class, then its methods, then its nested classes. -/
def addClass (place : Place) (c : ClassDecl) (n : Numbered) : Numbered :=
  match c with
  | ⟨name, kind, isAbstract, typeParams, supertypes, fields, constants, methods, nested⟩ =>
    let id := n.classes.size
    let decl := ⟨name, kind, isAbstract, typeParams, supertypes, fields, constants, methods, nested⟩
    let cls := place.classOf decl
    let n := addMethods id none methods (n.numberClass cls)
    addClasses { place with outer := some id, around := cls.qualifiedName } nested n

def addClasses (place : Place) : List ClassDecl → Numbered → Numbered
  | [], n => n
  | c :: cs, n =>
    let id := n.classes.size
    addClasses place cs ((addClass place c n).recordNested place.outer id)

end

def addUnit (n : Numbered) (index : Nat) (u : SourceUnit) : Numbered :=
  addClasses { unit := index, package := u.package, around := u.package } u.classes n

/-- Numbers the declarations of all files. -/
def ofUnits (units : List SourceUnit) : Numbered :=
  (units.zipIdx).foldl (fun n p => n.addUnit p.2 p.1) {}

end Numbered

end Interlock.Program
