import Interlock.Settings.Glob
import Interlock.Text.Quoted

/-! What can go wrong in a run, and how it is told. -/

namespace Interlock

open Interlock.Text Interlock.Settings

/-- Declarations that do not fit together. -/
inductive ModelFault where
  /-- A class is its own ancestor; the cycle is the text of its path. -/
  | cyclicInheritance (cls cycle : String)
  | missingClass (function : String) (cls : Nat)
  | missingFunction (cls : String) (function : Nat)
  | missingParent (function : String) (parent : Nat)
  | missingNode (function : Nat)
  deriving DecidableEq, Repr

def ModelFault.message : ModelFault → String
  | cyclicInheritance cls cycle =>
    "class " ++ cls ++ " is its own ancestor (cycle through " ++ cycle ++ ")"
  | missingClass function cls =>
    "function " ++ function ++ " references missing class #" ++ toString cls
  | missingFunction cls function =>
    "class " ++ cls ++ " references missing function #" ++ toString function
  | missingParent function parent =>
    "function " ++ function ++ " references missing enclosing function #" ++ toString parent
  | missingNode function =>
    "call graph node for function #" ++ toString function ++ " does not exist"

inductive Failure where
  | configuration (text : String)
  /-- A configuration file is not understood. -/
  | malformedFile (path : String)
  | unsupportedLanguage (name : String)
  | missingSourceFolder (path : String)
  /-- One source file cannot be read. -/
  | parse (file text : String)
  | noParsableFiles (count : Nat)
  | model (fault : ModelFault)
  | frontEnd (text : String)
  /-- A file or folder cannot be accessed. -/
  | access
  /-- The text of a configuration is malformed. -/
  | malformed
  | pattern (fault : Glob.Fault)
  deriving DecidableEq, Repr

namespace Failure

def message : Failure → String
  | configuration text => "Configuration error: " ++ text
  | malformedFile path => "Configuration error: failed to parse " ++ path
  | unsupportedLanguage name => "Unsupported language: " ++ quoted name
  | missingSourceFolder path => "Source folder not found: " ++ path
  | parse file text => "Parse error in " ++ file ++ ": " ++ text
  | noParsableFiles count =>
    "None of the " ++ toString count ++ " source files could be parsed"
  | model fault => fault.message
  | frontEnd text => "Front end error: " ++ text
  | access => "cannot access a file"
  | malformed => "malformed configuration"
  | pattern fault => fault.message

/-- A fatal failure ends the run without a report; others skip one file. -/
def isFatal : Failure → Bool
  | parse _ _ => false
  | _ => true

end Failure

end Interlock
