import Interlock.Files.Path
import Interlock.Program.Language
import Interlock.Settings.Config

/-! The settings of one run: the configuration file under the options of the command line, checked
against the files that are there. -/

namespace Interlock.Settings

open Interlock.Program Interlock.Text

/-- Options of the command line that win over the configuration file. -/
structure Overrides where
  language : Option String := none
  sourceFolder : Option String := none
  extensions : Option String := none
  jobs : Option Nat := none
  deriving DecidableEq, Repr

/-- A pattern of paths to skip, as it is written and as it is matched. -/
structure IgnorePattern where
  text : String
  pattern : Glob.Pattern

structure Resolved where
  language : Language
  sourceFolder : String
  /-- Extensions with their point; none accepts every file. -/
  extensions : List String
  ignorePatterns : List IgnorePattern
  /-- At least one. -/
  maxExitStates : Nat
  jobs : Nat

/-- The extensions of a list between commas; a missing point is put in front. -/
def extensionList (list : String) : List String :=
  (((split ',' list).map trim).filter fun e => !e.isEmpty).map fun e =>
    if startsWith "." e then e else "." ++ e

def compilePattern (text : String) : Except Failure IgnorePattern :=
  match Glob.compile text with
  | .ok pattern => .ok ⟨text, pattern⟩
  | .error fault => .error (.pattern fault)

namespace Config

/-- The folder with the sources. A relative folder of the file is relative to the folder that the
file is in. -/
def sourceFolderFrom (c : Config) (o : Overrides) (base : Option String) : String :=
  match o.sourceFolder, c.sourceFolder, base with
  | some folder, _, _ => folder
  | none, some folder, some base => Files.join base folder
  | none, some folder, none => folder
  | none, none, _ => "."

def languageFrom (c : Config) (o : Overrides) : Except Failure Language :=
  match o.language <|> c.language with
  | none => .error (.configuration
      "no language configured; set `language` in .lockscope.toml or pass --language")
  | some name =>
    match Language.ofName? name with
    | some language => .ok language
    | none => .error (.unsupportedLanguage name)

/-- The settings that a configuration and the overrides give together. The language is checked
first, then the folder, the patterns and the number of states. -/
def resolve {m : Type → Type} [Monad m] (isFolder : String → m Bool) (c : Config) (o : Overrides)
    (base : Option String) : ExceptT Failure m Resolved := do
  let language ← liftExcept (c.languageFrom o)
  let sourceFolder := c.sourceFolderFrom o base
  unless ← isFolder sourceFolder do throw (.missingSourceFolder sourceFolder)
  let ignorePatterns ← liftExcept (c.ignorePatterns.mapM compilePattern)
  if c.maxExitStates = 0 then
    throw (.configuration "detector.max_exit_states must be at least 1")
  return {
    language
    sourceFolder
    extensions := ((o.extensions <|> c.extensions).map extensionList).getD language.extensions
    ignorePatterns
    maxExitStates := c.maxExitStates
    jobs := ((o.jobs <|> c.jobs).getD 0) }

end Config

end Interlock.Settings
