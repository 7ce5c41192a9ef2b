import Interlock.CommandLine.Arguments
import Interlock.Report.Terminal

/-! The commands of the program. -/

namespace Interlock.CommandLine

open Interlock.Text

/-- The options of an analysis. -/
structure AnalyzeOptions where
  /-- The folder with the sources. -/
  path : Option String := none
  language : Option String := none
  extensions : Option String := none
  /-- The configuration file; by default the nearest one is looked for. -/
  config : Option String := none
  format : ReportFormat := .terminal
  /-- The file for the report; by default it is printed. -/
  output : Option String := none
  jobs : Option Nat := none
  dumpGraph : Bool := false
  dumpOnError : Bool := false
  failOnFindings : Bool := false
  /-- How often more messages are asked for; 255 at most. -/
  verbosity : Nat := 0
  deriving DecidableEq, Repr

structure InitOptions where
  force : Bool := false
  deriving DecidableEq, Repr

inductive Command where
  | analyze (options : AnalyzeOptions)
  | init (options : InitOptions)
  deriving DecidableEq, Repr

/-! ## Values -/

/-- A path is not empty. -/
def pathValue (text : String) : Except Fault String :=
  if text.isEmpty then .error .invalidValue else .ok text

/-- Decimal digits, with a plus in front or without one, for a number of at most 64 bits. -/
def countValue (text : String) : Except Fault Nat :=
  let digits := match text.toList with
    | '+' :: ds => ds
    | ds => ds
  let n := digits.foldl (fun n c => 10 * n + (c.toNat - '0'.toNat)) 0
  if !digits.isEmpty && digits.all Char.isDigit && n < UInt64.size then .ok n
  else .error .malformedValue

def formatValue : String → Except Fault ReportFormat
  | "terminal" => .ok .terminal
  | "json" => .ok .json
  | _ => .error .invalidValue

/-! ## Forms -/

def helpParameter {σ : Type} : NamedParameter σ :=
  { long := "help", short := some 'h', parameter := .inquiry .help }

def analyzeForm : Form AnalyzeOptions where
  named := [
    { long := "language", short := some 'l',
      parameter := .value fun v o => .ok { o with language := some v } },
    { long := "extensions",
      parameter := .value fun v o => .ok { o with extensions := some v } },
    { long := "config", short := some 'c',
      parameter := .value fun v o => do return { o with config := some (← pathValue v) } },
    { long := "format", short := some 'f',
      parameter := .value fun v o => do return { o with format := ← formatValue v } },
    { long := "output", short := some 'o',
      parameter := .value fun v o => do return { o with output := some (← pathValue v) } },
    { long := "jobs", short := some 'j',
      parameter := .value fun v o => do return { o with jobs := some (← countValue v) } },
    { long := "dump-graph", parameter := .switch fun o => { o with dumpGraph := true } },
    { long := "dump-on-error", parameter := .switch fun o => { o with dumpOnError := true } },
    { long := "fail-on-findings",
      parameter := .switch fun o => { o with failOnFindings := true } },
    { long := "verbose", short := some 'v',
      parameter := .tally fun o => { o with verbosity := min 255 (o.verbosity + 1) } },
    helpParameter]
  operands := [fun v o => do return { o with path := some (← pathValue v) }]

def initForm : Form InitOptions where
  named := [
    { long := "force", short := some 'f', parameter := .switch fun _ => { force := true } },
    helpParameter]

/-! ## Commands -/

def commandNames : List String := ["analyze", "init", "help"]

/-- Help is given on one command at a time. -/
def helpOn : List String → Fault
  | [] => .help
  | [name] => if commandNames.contains name then .help else .unknownCommand
  | _ => .unknownCommand

/-- What can stand in front of a command: only questions to the program. -/
def topForm : Form Unit where
  named := [
    helpParameter,
    { long := "version", short := some 'V', parameter := .inquiry .version }]

/-- Why a first argument names no command. -/
def topFault (first : String) : Fault :=
  if startsWith "-" first && first != "-" then
    match Reading.step topForm { settled := (), operands := [] } first with
    | .error fault => fault
    | .ok _ => .nothingGiven
  else .unknownCommand

/-- The command that the arguments after the name of the program give. -/
def readCommand (args : List String) : Except Fault Command :=
  match args with
  | [] | ["--"] => .error .nothingGiven
  | "analyze" :: rest => do return .analyze (← analyzeForm.read {} rest)
  | "init" :: rest => do return .init (← initForm.read {} rest)
  | "help" :: rest => .error (helpOn rest)
  | "--" :: name :: _ =>
    .error (if commandNames.contains name then .unknownArgument else .unknownCommand)
  | first :: _ => .error (topFault first)

end Interlock.CommandLine
