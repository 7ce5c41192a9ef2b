import Interlock.Analysis
import Interlock.CommandLine.Commands
import Interlock.Source.Reading
import Interlock.Workspace

/-! Whole runs: from the settings to the report. -/

namespace Interlock

open Interlock.Settings Interlock.Source Interlock.Program Interlock.CommandLine Interlock.Text

/-- A source file that is left out, and why. -/
structure SkippedFile where
  path : String
  reason : String
  deriving DecidableEq, Repr

structure Run where
  /-- The source files in the order of their paths, those that are left out included. -/
  files : List String
  skipped : List SkippedFile
  analysis : Analysis

def Run.report (r : Run) : Report := r.analysis.report r.files.length r.skipped.length

/-- Whether a file is a source file. The patterns and the extensions are held against the whole
path. -/
def Settings.Resolved.accepts (s : Resolved) (path : String) : Bool :=
  !(s.ignorePatterns.any fun p => p.pattern.matches path) &&
    (s.extensions.isEmpty || s.extensions.any fun e => endsWith e path)

/-- Divides what was read from files into units and files that are left out. A failure that is
fatal stops the run, and so does a run without a single unit, unless there are no files. -/
def sortSources (sources : List (String × Except Failure SourceUnit)) :
    Except Failure (List SourceUnit × List SkippedFile) := do
  let fatal? := sources.findSome? fun s =>
    match s.2 with
    | .error f => if f.isFatal then some f else none
    | .ok _ => none
  if let some f := fatal? then throw f
  let units := sources.filterMap fun s => s.2.toOption
  if units.isEmpty && !sources.isEmpty then throw (.noParsableFiles sources.length)
  return (units, sources.filterMap fun s =>
    match s.2 with
    | .error f => some ⟨s.1, f.message⟩
    | .ok _ => none)

namespace Workspace

variable {m : Type → Type} [Monad m] (w : Workspace m)

/-- The files that a search of a folder finds. Standard input counts if it is a file. -/
def filesFound (folder : String) : m (List String) := do
  if !Files.isStandardInput folder then w.filesBelow folder
  else if ← w.isFile Files.standardInput then return [Files.standardInput]
  else return []

/-- The source files of a run, in the order of their paths. -/
def sourceFiles (s : Resolved) : m (List String) := do
  return ((← w.filesFound s.sourceFolder).filter s.accepts).mergeSort Files.pathLe

def readSource (language : Language) (path : String) : m (Except Failure SourceUnit) := do
  match ← w.read path with
  | .error reason => return .error (.parse path reason)
  | .ok text => return readUnit language path text (← w.outline path)

def readSources (language : Language) (files : List String) :
    m (List (String × Except Failure SourceUnit)) :=
  files.mapM fun path => do return (path, ← w.readSource language path)

/-- Guards are read from the trees of their probes. -/
def guardReader (language : Language) : m (String → Option Expr) := do
  let probes ← w.probes
  return fun text =>
    (probes.find? fun p => p.1 == text).bind fun p => readExpr? language text p.2

/-- Analyses the sources that the settings name. -/
def run (s : Resolved) : ExceptT Failure m Run := do
  let files ← w.sourceFiles s
  let (units, skipped) ← liftExcept (sortSources (← w.readSources s.language files))
  let readGuard ← w.guardReader s.language
  let analysis ← liftExcept (analyze s.language readGuard s.maxExitStates units)
  return { files, skipped, analysis }

/-- The settings of an analysis from its options. -/
def settings (o : AnalyzeOptions) : ExceptT Failure m Resolved := do
  let (config, base) ← w.loadConfig o.config
  config.resolve w.isFolder
    { language := o.language, sourceFolder := o.path, extensions := o.extensions, jobs := o.jobs }
    base

end Workspace

/-- Why a command does not end well. -/
inductive CommandFailure where
  | run (failure : Failure)
  /-- The file for the report cannot be created. -/
  | output (path : String)
  deriving DecidableEq, Repr

def CommandFailure.message : CommandFailure → String
  | run failure => failure.message
  | output path => "Failed to create " ++ path

/-- The command of an analysis. The report goes to the file that is asked for, in which there are
no colours; otherwise the caller prints it. -/
def Workspace.analyzeCommand {m : Type → Type} [Monad m] (w : Workspace m) (colours : Bool)
    (o : AnalyzeOptions) : ExceptT CommandFailure m (Run × String) := do
  let r ← ExceptT.adapt .run (do w.run (← w.settings o))
  match o.output with
  | none => return (r, r.report.render o.format colours)
  | some path =>
    let text := r.report.render o.format false
    if ← w.write path text then return (r, text) else throw (.output path)

end Interlock
