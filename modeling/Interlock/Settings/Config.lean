import Interlock.Deadlock.Findings
import Interlock.Failure
import Interlock.Settings.Toml.Reader

/-! The configuration file. -/

namespace Interlock.Settings

open Interlock.Settings.Toml

/-- The name under which a configuration file is looked for. -/
def configName : String := ".lockscope.toml"

/-- A configuration as its file writes it. Everything may be left out. -/
structure Config where
  language : Option String := none
  sourceFolder : Option String := none
  /-- Extensions between commas; an empty list accepts every file. -/
  extensions : Option String := none
  ignorePatterns : List String := []
  maxExitStates : Nat := Deadlock.defaultMaxExitStates
  /-- The number of workers; zero uses every core. -/
  jobs : Option Nat := none
  deriving DecidableEq, Repr

namespace Config

def textOf? : Item → Option String
  | .scalar (.text s) => some s
  | _ => none

/-- A count is a non-negative integer of at most 64 bits. -/
def countOf? : Item → Option Nat
  | .scalar (.integer n) => if 0 ≤ n ∧ n.toNat < UInt64.size then some n.toNat else none
  | _ => none

def textsOf? : Item → Option (List String)
  | .array items => items.mapM textOf?
  | _ => none

/-- The settings of the detector by name, or by position in an array. Other names are free if what
they name can be read, further positions are not looked at, and a date names nothing. -/
def exitStatesOf? : Item → Option Nat
  | .table _ entries =>
    if !entriesReadable entries then none
    else match Entries.get? "max_exit_states" entries with
      | some item => countOf? item
      | none => some Deadlock.defaultMaxExitStates
  | .array [] => some Deadlock.defaultMaxExitStates
  | .array (item :: _) => countOf? item
  | .scalar .moment => some Deadlock.defaultMaxExitStates
  | _ => none

/-- Sets what one entry of the file says. There are no other entries. -/
def set? (c : Config) (key : String) (item : Item) : Option Config :=
  match key with
  | "language" => (textOf? item).map fun s => { c with language := some s }
  | "src_folder" => (textOf? item).map fun s => { c with sourceFolder := some s }
  | "extensions" => (textOf? item).map fun s => { c with extensions := some s }
  | "ignore_patterns" => (textsOf? item).map fun ps => { c with ignorePatterns := ps }
  | "detector" => (exitStatesOf? item).map fun n => { c with maxExitStates := n }
  | "jobs" => (countOf? item).map fun n => { c with jobs := some n }
  | _ => none

def ofEntries? (entries : Entries) : Option Config :=
  entries.foldlM (fun c e => c.set? e.1 e.2) {}

/-- The configuration that a text writes. -/
def parse (text : String) : Except Failure Config :=
  match (Toml.read? text).bind ofEntries? with
  | some c => .ok c
  | none => .error .malformed

/-- The file that is written for a new project. -/
def template : String := "\n".intercalate [
  "# lockscope configuration",
  "",
  "# \"java\" or \"c#\"",
  "language = \"java\"",
  "",
  "# Root of the sources to analyze, relative to this file",
  "src_folder = \".\"",
  "",
  "# Comma-separated file extensions; leave empty to analyze every file",
  "extensions = \".java\"",
  "",
  "# Glob patterns of paths to skip",
  "ignore_patterns = [",
  "    \"**/build/**\",",
  "    \"**/target/**\",",
  "    \"**/bin/**\",",
  "    \"**/obj/**\",",
  "]",
  "",
  "# Worker threads, 0 = all cores",
  "jobs = 0",
  "",
  "[detector]",
  "# Distinct held-lock states remembered per function",
  "max_exit_states = 64",
  ""]

/-- The file of a new project. A file that is present is kept unless writing is forced. -/
def newFile? (present force : Bool) : Option String :=
  if present && !force then none else some template

/-- The message for a file that is kept. -/
def keptMessage : String := "Configuration file already exists. Use --force to overwrite."

end Config

end Interlock.Settings
