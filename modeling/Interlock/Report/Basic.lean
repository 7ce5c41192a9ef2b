import Interlock.CallGraph.Build
import Interlock.Deadlock.Findings

/-! Reports: findings with locks and functions by name. -/

namespace Interlock

open Interlock.Program Interlock.CallGraph Interlock.Deadlock

structure ReportSummary where
  language : String := ""
  files : Nat := 0
  skippedFiles : Nat := 0
  classes : Nat := 0
  functions : Nat := 0
  locks : Nat := 0
  orderEdges : Nat := 0
  deadlocks : Nat := 0
  reentrancies : Nat := 0
  diagnostics : Nat := 0
  /-- Some set of stacks was cut, so that findings may be missing. -/
  truncated : Bool := false
  deriving DecidableEq, Repr

/-- One lock held while another is taken, and the calls that lead there. -/
structure ReportedEdge where
  held : String
  taken : String
  heldSince : String
  acquiredIn : String
  path : List String
  deriving DecidableEq, Repr

structure ReportedDeadlock where
  locks : List String
  edges : List ReportedEdge
  deriving DecidableEq, Repr

structure ReportedReentrancy where
  lock : String
  heldSince : String
  acquiredIn : String
  path : List String
  deriving DecidableEq, Repr

structure ReportedDiagnostic where
  kind : DiagnosticKind
  function : String
  expression : String
  deriving DecidableEq, Repr

structure Report where
  summary : ReportSummary := {}
  deadlocks : List ReportedDeadlock := []
  reentrancies : List ReportedReentrancy := []
  diagnostics : List ReportedDiagnostic := []
  deriving DecidableEq, Repr

/-- What a report says about its run besides the findings. -/
structure RunInfo where
  language : String
  files : Nat
  skippedFiles : Nat
  deriving DecidableEq, Repr

namespace Report

def hasFindings (r : Report) : Bool := !r.deadlocks.isEmpty || !r.reentrancies.isEmpty

/-- The name under which a lock is reported. -/
def lockName (locks : LockTable) (id : LockId) : String :=
  match locks.names.find? fun entry => entry.1 == id with
  | some (_, name) => name
  | none => LockId.label id

def edgeOf (m : Model) (locks : LockTable) (e : OrderEdge) : ReportedEdge where
  held := lockName locks e.pair.held
  taken := lockName locks e.pair.taken
  heldSince := m.functionLabel e.witness.heldSince
  acquiredIn := m.functionLabel e.witness.acquiredIn
  path := e.witness.path.map m.functionLabel

def deadlockOf (m : Model) (locks : LockTable) (c : Conflict) : ReportedDeadlock where
  locks := c.locks.map (lockName locks)
  edges := c.edges.map (edgeOf m locks)

def reentrancyOf (m : Model) (locks : LockTable) (r : Reentrancy) : ReportedReentrancy where
  lock := lockName locks r.lock
  heldSince := m.functionLabel r.witness.heldSince
  acquiredIn := m.functionLabel r.witness.acquiredIn
  path := r.witness.path.map m.functionLabel

def diagnosticOf (m : Model) (d : Diagnostic) : ReportedDiagnostic where
  kind := d.kind
  function := m.functionLabel d.function
  expression := d.expression

/-- The report of a run; the table holds the monitors too. -/
def ofFindings (m : Model) (locks : LockTable) (findings : Findings)
    (diagnostics : List Diagnostic) (run : RunInfo) : Report where
  summary :=
    { language := run.language
      files := run.files
      skippedFiles := run.skippedFiles
      classes := m.classes.size
      functions := m.functions.size
      locks := locks.size
      orderEdges := findings.orderEdges
      deadlocks := findings.deadlocks.length
      reentrancies := findings.reentrancies.length
      diagnostics := diagnostics.length
      truncated := findings.truncated }
  deadlocks := findings.deadlocks.map (deadlockOf m locks)
  reentrancies := findings.reentrancies.map (reentrancyOf m locks)
  diagnostics := diagnostics.map (diagnosticOf m)

/-- A report has findings exactly if what it reports on is not clean. -/
theorem hasFindings_ofFindings (m : Model) (locks : LockTable) (findings : Findings)
    (diagnostics : List Diagnostic) (run : RunInfo) :
    (ofFindings m locks findings diagnostics run).hasFindings = !findings.isClean := by
  simp [hasFindings, ofFindings, Findings.isClean, Bool.not_and]

end Report

end Interlock
