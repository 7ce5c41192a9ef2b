import Interlock.Report.Basic
import Interlock.Text.Document

/-! Reports as JSON. -/

namespace Interlock

open Interlock.Text Interlock.CallGraph

def CallGraph.DiagnosticKind.label : DiagnosticKind → String
  | .couldNotDetermine => "could_not_determine"
  | .emptyMethodNode => "empty_method_node"
  | .unidentifiedLock => "unidentified_lock"

def ReportSummary.document (s : ReportSummary) : Document :=
  .record [("language", .text s.language), ("files", .number s.files),
    ("skipped_files", .number s.skippedFiles), ("classes", .number s.classes),
    ("functions", .number s.functions), ("locks", .number s.locks),
    ("order_edges", .number s.orderEdges), ("deadlocks", .number s.deadlocks),
    ("reentrancies", .number s.reentrancies), ("diagnostics", .number s.diagnostics),
    ("truncated", .flag s.truncated)]

def ReportedEdge.document (e : ReportedEdge) : Document :=
  .record [("from", .text e.held), ("to", .text e.taken), ("held_since", .text e.heldSince),
    ("acquired_in", .text e.acquiredIn), ("path", .texts e.path)]

def ReportedDeadlock.document (d : ReportedDeadlock) : Document :=
  .record [("locks", .texts d.locks), ("edges", .list (d.edges.map (·.document)))]

def ReportedReentrancy.document (r : ReportedReentrancy) : Document :=
  .record [("lock", .text r.lock), ("held_since", .text r.heldSince),
    ("acquired_in", .text r.acquiredIn), ("path", .texts r.path)]

def ReportedDiagnostic.document (d : ReportedDiagnostic) : Document :=
  .record [("kind", .text d.kind.label), ("function", .text d.function),
    ("expression", .text d.expression)]

namespace Report

def document (r : Report) : Document :=
  .record [("summary", r.summary.document), ("deadlocks", .list (r.deadlocks.map (·.document))),
    ("reentrancies", .list (r.reentrancies.map (·.document))),
    ("diagnostics", .list (r.diagnostics.map (·.document)))]

def json (r : Report) : String := r.document.pretty ++ "\n"

end Report

end Interlock
