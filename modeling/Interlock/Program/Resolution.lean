import Interlock.Program.Lookup
import Interlock.Program.Numbering
import Interlock.Threading
import Interlock.Types.TypeExpr

/-! From declarations to a program model. A name that one file uses may be declared in another,
so all classes are numbered before any type is resolved. -/

namespace Interlock.Program

open Interlock.Types Interlock.Text

/-! ## Types -/

namespace Model

/-- The type of a name without its generic arguments. -/
def baseType (m : Model) (r : Registry) (scope : ClassId) (t : TypeExpr) : TypeId :=
  let simple := t.simpleName
  if untrackedNames.contains simple then (r.named? simple).getD .unknown
  else match kindNamed simple with
    | .lock => Registry.primitive .lock
    | .script => Registry.primitive .script
    | _ =>
      match m.locate? t.name (some scope) with
      | some c => (r.classType? c).getD .unknown
      | none => (r.named? simple).getD .unknown

/-- The type of a name that stands for no class: nothing at all, a wildcard, a type parameter of
the function or of a class around it. -/
def specialType? (m : Model) (r : Registry) (scope : ClassId) (methodParams : List String)
    (name : String) (generic : Bool) : Option TypeId :=
  if (!generic && name == "void") || name == "?" then some .unknown
  else if name.toList.contains '.' then none
  else if methodParams.contains name then some .unknown
  else m.paramIn? r scope name

/-- The array type with a number of dimensions. -/
def arrayType : Nat → TypeId → Registry → TypeId × Registry
  | 0, ty, r => (ty, r)
  | dims + 1, ty, r =>
    let (element, r) := arrayType dims ty r
    r.register (.array element)

section

variable (m : Model) (scope : ClassId) (methodParams : List String)

mutual

/-- Registers the type that an expression means inside a class. -/
def resolveType : TypeExpr → Registry → TypeId × Registry
  | .mk name args dims, r =>
    match m.specialType? r scope methodParams name (!args.isEmpty) with
    | some ty => arrayType dims ty r
    | none =>
      let base := m.baseType r scope (.mk name args dims)
      match args with
      | [] => arrayType dims base r
      | arg :: rest =>
        let (first, r) := resolveType arg r
        let (others, r) := resolveTypes rest r
        let (ty, r) := r.register (.compound (first :: others ++ [base]))
        arrayType dims ty r

def resolveTypes : List TypeExpr → Registry → List TypeId × Registry
  | [], r => ([], r)
  | t :: ts, r =>
    let (ty, r) := resolveType t r
    let (tys, r) := resolveTypes ts r
    (ty :: tys, r)

end

/-- Registers the type that a text means inside a class; a text that is no type is unknown. -/
def resolveText (text : String) (r : Registry) : TypeId × Registry :=
  match TypeExpr.parse? text with
  | some t => m.resolveType scope methodParams t r
  | none => (.unknown, r)

/-- Registers the types of variables. -/
def resolveVariables (vs : List VariableDecl) (r : Registry) : List (String × TypeId) × Registry :=
  mapThrough (fun (v : VariableDecl) r =>
    let (ty, r) := m.resolveText scope methodParams v.type r
    ((v.name, ty), r)) vs r

end

end Model

/-! ## The steps -/

/-- What an import declaration brings in. -/
def importTarget (m : Model) (i : ImportDecl) : ImportTarget :=
  match m.qualified? i.path with
  | some c => if i.wildcard then .members c else .single c
  | none =>
    if i.wildcard then if i.isStatic then .unresolved else .package i.path
    else if i.isStatic then
      match cutLast? '.' i.path with
      | some (owner, member) =>
        match m.qualified? owner with
        | some c =>
          if (m.class? c).any fun cls => cls.hasEnumConstant member then .enumConstant c member
          else .unresolved
        | none => .unresolved
      | none => .unresolved
    else .unresolved

/-- Registers a class and its type parameters. -/
def registerClass (id : ClassId) (c : Class) (r : Registry) : Class × Registry :=
  let (type, r) := r.register (.declared id)
  let (paramTypes, r) := mapThrough (fun index (r : Registry) => r.register (.param id index))
    (List.range c.decl.typeParams.length) r
  ({ c with type, paramTypes }, r)

/-- The classes that a class names as supertypes, each once; a class does not name itself. -/
def supertypesOf (m : Model) (id : ClassId) (c : Class) : List ClassId :=
  c.decl.supertypes.foldl (fun found text =>
    match m.locate? text (some id) with
    | some s => if s != id && !found.contains s then found ++ [s] else found
    | none => found) []

/-- Gives every class its supertypes and ancestors; refuses cycles. -/
def linkSupertypes (m : Model) : Except ModelFault Model :=
  let supers : Supertypes := m.classes.mapIdx fun id c => supertypesOf m id c
  match supers.flatten with
  | .error cycle => .error (cycleFault m.className cycle)
  | .ok ancestors =>
    .ok { m with
      supers
      classes := m.classes.mapIdx fun id c =>
        { c with supertypes := supers.of id, ancestors := (ancestors[id]?).getD [] } }

/-- Registers the types of the fields of a class. -/
def resolveFields (m : Model) (id : ClassId) (c : Class) (r : Registry) : Class × Registry :=
  let (fields, r) := m.resolveVariables id [] c.decl.fields r
  (fields.foldl (fun c f => c.setField f.1 f.2) c, r)

/-- Registers the type of the result of a function; a constructor gives its class. -/
def Model.resolveReturn (m : Model) (f : Function) (r : Registry) : TypeId × Registry :=
  match f.decl.returns with
  | some text => m.resolveText f.cls f.decl.typeParams text r
  | none =>
    match m.class? f.cls with
    | some c => (c.type, r)
    | none => (.unknown, r)

/-- Registers the types of the parameters, local variables and result of a function. -/
def resolveSignature (m : Model) (f : Function) (r : Registry) : Function × Registry :=
  let typeParams := f.decl.typeParams
  let (params, r) := m.resolveVariables f.cls typeParams f.decl.params r
  let (locals, r) := m.resolveVariables f.cls typeParams f.decl.locals r
  let (returnType, r) := m.resolveReturn f r
  ({ f with
      params := params.map (·.2)
      returnType
      locals := (params ++ locals).foldl (fun ls v => ls.bind v.1 v.2) f.locals }, r)

/-- Registers the types that are written in the call sites of a function. -/
def resolveCalls (m : Model) (f : Function) (r : Registry) : Function × Registry :=
  let step (t : TypeRef) (r : Registry) : TypeRef × Registry :=
    let (ty, r) := m.resolveText f.cls f.decl.typeParams t.text r
    ({ t with resolved := some ty }, r)
  let (calls, r) := mapThrough (Expr.mapTypes step) f.calls r
  ({ f with calls }, r)

/-- The instantiations of declared classes that a registry holds. -/
def instantiations (r : Registry) : List (ClassId × List TypeId) :=
  (List.range r.size).filterMap fun n => do
    let components ← r.components? (.id n)
    let base ← components.getLast?
    let c ← r.classOf? base
    return (c, components.dropLast)

/-- The types of the fields and of the results of the methods of a class. -/
def memberTypes (m : Model) (c : Class) : List TypeId :=
  c.fields.map (·.2) ++ c.methods.filterMap fun f => (m.function? f).map (·.returnType)

/-- Registers the types of the members of generic classes as each instantiation sees them. -/
def instantiateMembers (m : Model) (r : Registry) : Registry :=
  (instantiations r).foldl (fun r (c, args) =>
    match m.class? c with
    | some cls => (memberTypes m cls).foldl (fun r ty => (r.instantiate ty c args).2) r
    | none => r) r

/-- The simple name of the type of a declaration that holds a lock. -/
def lockTypeName? (m : Model) (scope : ClassId) (text : String) : Option String := do
  let t ← TypeExpr.parse? text
  if t.dims > 0 || (m.locate? t.name (some scope)).isSome then none
  else if isLockName t.simpleName then some t.simpleName
  else none

/-- The declarations among some variables that hold locks. -/
def lockDecls (m : Model) (c : ClassId) (vs : List VariableDecl) : List LockDecl :=
  vs.filterMap fun v =>
    (lockTypeName? m c v.type).map fun typeName =>
      { owner := c, ownerName := m.className c, field := v.name, typeName, init := v.init }

/-- All declarations that hold locks: fields first, then local variables. -/
def allLockDecls (m : Model) : List LockDecl :=
  (m.classes.toList.zipIdx.flatMap fun (c, id) => lockDecls m id c.decl.fields) ++
    m.functions.toList.flatMap fun f => lockDecls m f.cls f.decl.locals

/-- A class or one above it names one of some library types as a supertype. -/
def implementsAny (m : Model) (c : ClassId) (contracts : List String) : Bool :=
  (m.lineage c).any fun owner =>
    match m.class? owner with
    | some cls =>
      cls.decl.supertypes.any fun text =>
        contracts.contains (((TypeExpr.parse? text).map (·.simpleName)).getD text)
    | none => false

/-- A function in which a thread or a task starts. -/
def isRunnable (m : Model) (f : Function) : Bool :=
  f.decl.isEntryPoint ||
    (f.params.isEmpty &&
      match f.name with
      | "run" => f.parent.isSome || implementsAny m f.cls ["Runnable", "Thread", "TimerTask"]
      | "call" => implementsAny m f.cls ["Callable"]
      | _ => false)

/-- Applies a step to the elements of an array with their positions, handing a state on. -/
def mapIdxThrough {α σ : Type} (step : Nat → α → σ → α × σ) (as : Array α) (s : σ) :
    Array α × σ :=
  let (bs, s) := mapThrough (fun (p : α × Nat) s => step p.2 p.1 s) as.toList.zipIdx s
  (bs.toArray, s)

/-- The model of a program, or the cycle of supertypes that makes it impossible. -/
def Model.ofUnits (units : List SourceUnit) : Except ModelFault Model := do
  let numbered := Numbered.ofUnits units
  let m : Model := { classes := numbered.classes, functions := numbered.functions }
  let imports := units.map fun (u : SourceUnit) => u.imports.map (importTarget m)
  let m := { m with imports := imports.toArray }
  let (classes, r) := mapIdxThrough registerClass m.classes m.registry
  let m ← linkSupertypes { m with classes }
  let (classes, r) := mapIdxThrough (resolveFields m) m.classes r
  let (functions, r) := mapIdxThrough (fun _ => resolveSignature m) m.functions r
  let m := { m with classes, functions }
  let (functions, r) := mapIdxThrough (fun _ => resolveCalls m) m.functions r
  let m := { m with functions }
  let m := { m with registry := instantiateMembers m r }
  let m := { m with locks := (allLockDecls m).foldl (fun t d => (t.declare d).2) m.locks }
  return { m with functions := m.functions.map fun f => { f with isRunnable := isRunnable m f } }

end Interlock.Program
