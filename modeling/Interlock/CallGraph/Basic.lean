import Interlock.Ids
import Interlock.Ordered.Basic

/-! Call graphs: for every function, what its call sites do to locks, in source order. -/

namespace Interlock

/-- What one call site does. -/
inductive GraphEntry where
  /-- Runs one of the callees, given in ascending order. Library calls have none. -/
  | calls (callees : List FunctionId)
  | acquire (lock : LockId)
  | release (lock : LockId)
  /-- A dynamic invocation that the analysis cannot look into. -/
  | dynamic
  deriving DecidableEq, Repr

/-- The entry of a call to one of some functions, given in any order. -/
def GraphEntry.callsTo (callees : List FunctionId) : GraphEntry := .calls (Ordered.ofList callees)

structure GraphNode where
  function : FunctionId
  entries : List GraphEntry
  deriving DecidableEq, Repr

structure CallGraph where
  /-- The node of a function stands at the position that its identity gives. -/
  nodes : List GraphNode
  /-- Functions that threads start in. -/
  threads : List FunctionId
  deriving DecidableEq, Repr

namespace CallGraph

def size (g : CallGraph) : Nat := g.nodes.length

/-- The entries of a function; a function without a node has none. -/
def entries (g : CallGraph) (f : FunctionId) : List GraphEntry :=
  match g.nodes[f]? with
  | some node => node.entries
  | none => []

/-- All functions that the call sites of `f` may run, ascending. -/
def callees (g : CallGraph) (f : FunctionId) : List FunctionId :=
  Ordered.ofList ((g.entries f).flatMap fun
    | .calls cs => cs
    | _ => [])

/-- All pairs of a function and a function that it may run. -/
def callPairs (g : CallGraph) : List (FunctionId × FunctionId) :=
  let callers := Ordered.ofList (g.nodes.map (·.function))
  callers.flatMap fun f => (g.callees f).map fun c => (f, c)

end CallGraph

end Interlock
