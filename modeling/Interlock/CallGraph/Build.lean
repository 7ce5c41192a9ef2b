import Interlock.CallGraph.Resolve

/-! From a program model to its call graph. Functions are resolved independently of each other;
monitors become locks afterwards, in the order of the functions. -/

namespace Interlock.CallGraph

open Interlock.Program

/-- A call graph with its locks and the call sites that were not resolved. -/
structure GraphBuild where
  graph : Interlock.CallGraph
  /-- The declared locks and the monitors. -/
  locks : LockTable
  diagnostics : List Diagnostic

/-- The references of a model lead to classes and functions that exist. -/
def validate (m : Model) : Except ModelFault Unit := do
  m.functions.toList.zipIdx.forM fun (f, id) => do
    if (m.class? f.cls).isNone then throw (.missingClass f.name f.cls)
    match f.parent with
    | some p =>
      if (m.function? p).isNone then throw (.missingParent (m.functionLabel id) p)
    | none => pure ()
  m.classes.toList.forM fun c =>
    match c.methods.find? fun f => (m.function? f).isNone with
    | some missing => throw (.missingFunction c.qualifiedName missing)
    | none => pure ()

/-- Makes an entry of the graph; a monitor that is met for the first time becomes a lock. -/
def materialize (m : Model) (e : DraftEntry) (t : LockTable) : GraphEntry × LockTable :=
  match e with
  | .calls callees => (.calls callees, t)
  | .dynamic => (.dynamic, t)
  | .lock effect target =>
    let (lock, t) := match target with
      | .declared id => (t.canonical id, t)
      | .monitor c segment => t.monitor c (m.className c) segment
    match effect with
    | .acquire => (.acquire lock, t)
    | .release => (.release lock, t)

def siteOf (m : Model) (language : Language) (readGuard : String → Option Expr)
    (id : FunctionId) (f : Function) : Site :=
  { model := m, language, function := id, cls := f.cls, readGuard }

/-- What the call sites of each function leave. -/
def drafts (m : Model) (language : Language) (readGuard : String → Option Expr) : List Draft :=
  m.functions.toList.zipIdx.map fun (f, id) =>
    (siteOf m language readGuard id f).resolveAll f.calls

/-- The call graph of a model. -/
def build (m : Model) (language : Language) (readGuard : String → Option Expr) :
    Except ModelFault GraphBuild := do
  validate m
  let ds := drafts m language readGuard
  let (entries, locks) := mapThrough (fun (d : Draft) => mapThrough (materialize m) d.entries) ds
    m.locks
  let runnable := m.functions.toList.zipIdx.filter fun p => p.1.isRunnable
  return {
    graph :=
      { nodes := entries.mapIdx fun id es => { function := id, entries := es }
        threads := runnable.map (·.2) }
    locks
    diagnostics := ds.flatMap (·.diagnostics) }

/-! ## Listing -/

def entryText (m : Model) (locks : LockTable) : GraphEntry → String
  | .calls [] => "call -> (external)"
  | .calls callees => "call -> " ++ " | ".intercalate (callees.map m.functionLabel)
  | .acquire lock => "lock " ++ (locks.nameOf? lock).getD (LockId.label lock)
  | .release lock => "unlock " ++ (locks.nameOf? lock).getD (LockId.label lock)
  | .dynamic => "opaque"

/-- Every function with its entries, one per line. -/
def listing (m : Model) (b : GraphBuild) : String :=
  String.join (b.graph.nodes.map fun n =>
    m.functionLabel n.function ++ "\n" ++
      String.join (n.entries.map fun e => "    " ++ entryText m b.locks e ++ "\n"))

end Interlock.CallGraph
