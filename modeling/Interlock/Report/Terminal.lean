import Interlock.Report.Json
import Interlock.Text.Style

/-! Reports as lines for a terminal. -/

namespace Interlock

open Interlock.Text

inductive ReportFormat where
  | terminal
  | json
  deriving DecidableEq, Repr

namespace Report

/-- The style of a heading in a colour. -/
def heading (colour : Colour) : Style := { bold := true, colour := some colour }

def inColour (colour : Colour) : Style := { colour := some colour }

/-- A line of one character across the report. -/
def rule (c : Char) : String := String.ofList (List.replicate 43 c)

section Lines

variable (paint : Style → String → String)

def headerLines (s : ReportSummary) : List String :=
  ["", paint (inColour .cyan) (rule '═'),
   paint (heading .cyan) "          LOCKSCOPE DEADLOCK REPORT",
   paint (inColour .cyan) (rule '═'),
   paint { bold := true } s.language ++ " " ++ toString s.files ++ " files (" ++
     toString s.skippedFiles ++ " skipped), " ++ toString s.classes ++ " classes, " ++
     toString s.functions ++ " functions, " ++ toString s.locks ++ " locks",
   ""]

def pathLine (path : List String) : String :=
  "      via " ++ paint { dimmed := true } (" -> ".intercalate path)

def edgeLines (e : ReportedEdge) : List String :=
  ["    " ++ paint (inColour .yellow) e.held ++ " held in " ++ e.heldSince ++ ", then " ++
     paint (inColour .yellow) e.taken ++ " acquired in " ++ e.acquiredIn,
   pathLine paint e.path]

/-- One deadlock under its number. -/
def deadlockLines (number : Nat) (d : ReportedDeadlock) : List String :=
  [paint (heading .red) ("#" ++ toString number) ++ " " ++
    paint { bold := true } (" <-> ".intercalate d.locks)] ++
    d.edges.flatMap (edgeLines paint) ++ [""]

def deadlocksLines (ds : List ReportedDeadlock) : List String :=
  if ds.isEmpty then [paint (inColour .green) "No lock-order cycles found.", ""]
  else paint (heading .red) "POTENTIAL DEADLOCKS" ::
    (ds.mapIdx fun i d => deadlockLines paint (i + 1) d).flatten

def reentrancyLines (r : ReportedReentrancy) : List String :=
  ["  " ++ paint (inColour .yellow) r.lock ++ " re-acquired in " ++ r.acquiredIn ++
     " (held since " ++ r.heldSince ++ ")",
   pathLine paint r.path]

def reentranciesLines (rs : List ReportedReentrancy) : List String :=
  if rs.isEmpty then []
  else paint (heading .yellow) "REENTRANT ACQUISITIONS" ::
    rs.flatMap (reentrancyLines paint) ++ [""]

def footerLines (s : ReportSummary) : List String :=
  [rule '─',
   "Deadlocks: " ++
     paint (inColour (if s.deadlocks = 0 then .green else .red)) (toString s.deadlocks) ++
     "  Reentrant acquisitions: " ++ toString s.reentrancies ++ "  Order edges: " ++
     toString s.orderEdges ++ "  Unresolved calls: " ++ toString s.diagnostics] ++
  (if s.truncated then
    [paint (inColour .yellow)
      "Some call paths exceeded max_exit_states; results may be incomplete."]
  else [])

/-- Deadlocks come before reentrant acquisitions; diagnostics are only counted. -/
def lines (r : Report) : List String :=
  headerLines paint r.summary ++ deadlocksLines paint r.deadlocks ++
    reentranciesLines paint r.reentrancies ++ footerLines paint r.summary

end Lines

def terminal (colours : Bool) (r : Report) : String :=
  String.join ((r.lines (Style.paint colours)).map (· ++ "\n"))

/-- The text of a report; only a terminal shows colours. -/
def render (format : ReportFormat) (colours : Bool) (r : Report) : String :=
  match format with
  | .terminal => r.terminal colours
  | .json => r.json

end Report

end Interlock
