import Interlock.Deadlock.Traversal

/-! The findings of an analysis: every function is a root, and what the roots contribute is
merged in the order of the roots. -/

namespace Interlock.Deadlock

/-- A lock that is taken while it is held. -/
structure Reentrancy where
  lock : LockId
  witness : Witness
  deriving DecidableEq, Repr

structure Findings where
  deadlocks : List Conflict := []
  reentrancies : List Reentrancy := []
  /-- Some set of stacks was cut, so that pairs may be missing. -/
  truncated : Bool := false
  /-- The number of observed pairs. -/
  orderEdges : Nat := 0
  deriving DecidableEq, Repr

def Findings.isClean (f : Findings) : Bool := f.deadlocks.isEmpty && f.reentrancies.isEmpty

/-- The number of stacks kept per entry unless configured otherwise. -/
def defaultMaxExitStates : Nat := 64

/-- All functions in the order of their nodes, then thread entries that are not among them. -/
def roots (g : CallGraph) : List FunctionId :=
  g.threads.foldl (fun rs f => if rs.contains f then rs else rs ++ [f])
    (g.nodes.map (·.function))

/-- Merges what one more root contributes; the first witness is kept. -/
def Outcome.merge (o other : Outcome) : Outcome where
  order := o.order.merge other.order
  reentrancies :=
    other.reentrancies.foldl (fun acc r => Ordered.insertNew r.1 r.2 acc) o.reentrancies
  truncated := o.truncated || other.truncated

/-- The lock order of a whole program. -/
def lockOrder (g : CallGraph) (maxExitStates : Nat) : Outcome :=
  (roots g).foldl (fun acc root => acc.merge (traverse g maxExitStates root)) {}

def detect (g : CallGraph) (maxExitStates : Nat) : Findings :=
  let outcome := lockOrder g maxExitStates
  { deadlocks := outcome.order.conflicts
    reentrancies := outcome.reentrancies.map fun r => ⟨r.1, r.2⟩
    truncated := outcome.truncated
    orderEdges := outcome.order.size }

end Interlock.Deadlock
