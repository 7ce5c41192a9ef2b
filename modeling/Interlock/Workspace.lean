import Interlock.Files.Path
import Interlock.Settings.Resolved
import Interlock.Source.Node

/-! What a run asks of its surroundings, over any monad: the disk in a program, a tree of files in
memory in a test. -/

namespace Interlock

open Interlock.Settings Interlock.Source

structure Workspace (m : Type → Type) where
  /-- The absolute path of the folder that relative paths start from. -/
  folder : String
  isFile : String → m Bool
  isFolder : String → m Bool
  /-- The text of a file, or why it cannot be read. -/
  read : String → m (Except String String)
  /-- The files below a folder, in any order. Their paths go on from that of the folder. -/
  filesBelow : String → m (List String)
  /-- The tree that a parser makes of a source file. -/
  outline : String → m Outline
  /-- The trees that a parser makes of the probes of guards. -/
  probes : m (List (String × Outline))
  /-- Creates a file with a text, and tells whether that was possible. -/
  write : String → String → m Bool

namespace Workspace

variable {m : Type → Type} [Monad m] (w : Workspace m)

/-- How many folders are searched for a configuration file. -/
def searchDepth : Nat := 10

/-- The nearest configuration file in a folder or above it. -/
def findConfig? (start : String) : m (Option String) :=
  ((Files.ancestors start searchDepth).map fun folder => Files.join folder configName).findM? w.isFile

/-- The configuration file at a path, with the folder that it is in. A file that is not understood
stops the run. -/
def readConfig (path : String) : ExceptT Failure m (Config × Option String) := do
  match ← w.read path with
  | .error _ => throw .access
  | .ok text =>
    match Config.parse text with
    | .ok config => return (config, Files.parent? path)
    | .error _ => throw (.malformedFile path)

/-- The configuration of a run: of the file that is asked for, or else of the nearest one, or else
the default. -/
def loadConfig (explicit : Option String) : ExceptT Failure m (Config × Option String) := do
  match explicit with
  | some path =>
    if ← w.isFile path then w.readConfig path
    else throw (.configuration ("config file " ++ path ++ " does not exist"))
  | none =>
    match ← w.findConfig? w.folder with
    | some path => w.readConfig path
    | none => return ({}, none)

end Workspace

end Interlock
