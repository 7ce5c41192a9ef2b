import Interlock.Program.Resolution
import Interlock.Report.Basic

/-! The analysis of the declarations of a program. -/

namespace Interlock

open Interlock.Program Interlock.CallGraph Interlock.Deadlock

structure Analysis where
  language : Language
  model : Model
  build : GraphBuild
  findings : Findings

/-- Analyses the units of a program. Guards of monitors are texts, which `readGuard` reads. -/
def analyze (language : Language) (readGuard : String → Option Expr) (maxExitStates : Nat)
    (units : List SourceUnit) : Except Failure Analysis := do
  let model ← (Model.ofUnits units).mapError .model
  let build ← (CallGraph.build model language readGuard).mapError .model
  return { language, model, build, findings := detect build.graph maxExitStates }

namespace Analysis

/-- The report on an analysis of so many files, and of those that were left out. -/
def report (a : Analysis) (files skippedFiles : Nat) : Report :=
  .ofFindings a.model a.build.locks a.findings a.build.diagnostics
    { language := a.language.name, files, skippedFiles }

/-- The call graph as text. -/
def graphListing (a : Analysis) : String := listing a.model a.build

end Analysis

end Interlock
