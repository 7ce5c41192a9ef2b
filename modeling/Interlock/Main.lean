import Interlock.Run
import Interlock.Source.OutlineText

/-! The command line.

A parser has read the sources beforehand. The outline of a source file is in the file of the same
name with `.outline` added. Guards of monitors are in the folder `.lockscope.probes`: a file
`name.guard` holds the text of a guard, and `name.guard.outline` the outline of its probe. -/

namespace Interlock.Console

open Interlock.CommandLine Interlock.Source Interlock.Settings Interlock.Text

def usage : String := "\n".intercalate [
  "Whole-program lock-order deadlock analyzer for Java and C#",
  "",
  "Usage: lockscope <COMMAND>",
  "",
  "Commands:",
  "  analyze [PATH]  Analyze a source tree for lock-order cycles",
  "  init            Write a default .lockscope.toml in the current directory",
  "  help            Print this message"]

def programVersion : String := "lockscope 0.3.0"

def faultText : Fault → String
  | .help | .nothingGiven => usage
  | .version => programVersion
  | .unknownCommand => "error: unrecognized subcommand"
  | .unknownArgument => "error: unexpected argument"
  | .invalidValue => "error: invalid value"
  | .malformedValue => "error: malformed value"
  | .surplusValue => "error: unexpected value"
  | .repeated => "error: an argument cannot be used multiple times"

/-- All files below a folder; `path` is how the folder is shown. -/
partial def filesBelow (path : String) : IO (List String) := do
  let entries ← ((← IO.currentDir) / path).readDir
  entries.toList.flatMapM fun entry => do
    let child := Files.join path entry.fileName
    if ← entry.path.isDir then filesBelow child else return [child]

def outlineAt (path : String) : IO Outline := do
  try
    let text ← IO.FS.readFile (path ++ ".outline")
    return (Outline.ofText? text).getD .unread
  catch _ => return .unread

def probeFolder : String := ".lockscope.probes"

def readProbes : IO (List (String × Outline)) := do
  let root ← IO.currentDir
  unless ← (root / probeFolder).isDir do return []
  let guards := (← filesBelow probeFolder).filter (endsWith ".guard")
  guards.mapM fun (path : String) => do return (← IO.FS.readFile path, ← outlineAt path)

/-- The disk as seen from the current folder. -/
def diskWorkspace : IO (Workspace IO) := do
  let root ← IO.currentDir
  return {
    folder := root.toString
    isFile := fun path => do
      return !path.isEmpty && (← (root / path).pathExists) && !(← (root / path).isDir)
    isFolder := fun path => do return !path.isEmpty && (← (root / path).isDir)
    read := fun path => do
      try return .ok (← IO.FS.readFile path) catch e => return .error (toString e)
    filesBelow := filesBelow
    outline := outlineAt
    probes := readProbes
    write := fun path text => do
      try IO.FS.writeFile path text; return true catch _ => return false }

def fail (text : String) : IO UInt32 := do
  IO.eprintln ("Error: " ++ text)
  return 1

/-- The variable of the environment that names the language unless an option does. -/
def languageVariable : String := "LOCKSCOPE_LANGUAGE"

def runAnalyze (o : AnalyzeOptions) : IO UInt32 := do
  let o := { o with language := o.language <|> (← IO.getEnv languageVariable) }
  let w ← diskWorkspace
  let stdout ← IO.getStdout
  match ← (w.analyzeCommand (← stdout.isTty) o).run with
  | .error failure => fail failure.message
  | .ok (r, text) =>
    if o.dumpGraph then IO.eprint r.analysis.graphListing
    if o.output.isNone then IO.print text
    return if r.report.hasFindings && o.failOnFindings then 2 else 0

def runInit (o : InitOptions) : IO UInt32 := do
  let root ← IO.currentDir
  match Config.newFile? (← (root / configName).pathExists) o.force with
  | none => fail Config.keptMessage
  | some text =>
    IO.FS.writeFile configName text
    IO.println ("Created " ++ configName ++ " configuration file")
    return 0

def reportFault (fault : Fault) : IO UInt32 := do
  match fault with
  | .help | .version =>
    IO.println (faultText fault)
    return 0
  | _ =>
    IO.eprintln (faultText fault)
    return 2

end Interlock.Console

open Interlock.Console in
def main (args : List String) : IO UInt32 :=
  match Interlock.CommandLine.readCommand args with
  | .ok (.analyze o) => runAnalyze o
  | .ok (.init o) => runInit o
  | .error fault => reportFault fault
