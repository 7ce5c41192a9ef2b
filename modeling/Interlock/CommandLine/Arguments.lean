import Interlock.Text.Pieces

/-! Reading the arguments of a command.

Arguments are read from left to right. The value of an option that stands in an argument of its own,
and every operand, is checked only when the next argument is accepted or the arguments end. So an
argument that is not known at all is told before a bad value in front of it. -/

namespace Interlock.CommandLine

open Interlock.Text

/-- Why the arguments make no command. -/
inductive Fault where
  /-- Help is asked for. -/
  | help
  | version
  /-- There is no argument at all. -/
  | nothingGiven
  | unknownCommand
  | unknownArgument
  /-- A value is missing, empty or not among those that are possible. -/
  | invalidValue
  /-- A value does not read as a number. -/
  | malformedValue
  /-- A value is given to a switch. -/
  | surplusValue
  /-- An option is given twice. -/
  | repeated
  deriving DecidableEq, Repr

/-- Takes the text of a value into the options. -/
abbrev Setter (σ : Type) := String → σ → Except Fault σ

inductive Parameter (σ : Type) where
  /-- Given at most once. -/
  | switch (set : σ → σ)
  /-- Given any number of times. -/
  | tally (set : σ → σ)
  /-- Given at most once, with a value. -/
  | value (set : Setter σ)
  /-- Ends the reading with a question to the program itself. -/
  | inquiry (question : Fault)

/-- A parameter with its names. -/
structure NamedParameter (σ : Type) where
  long : String
  short : Option Char := none
  parameter : Parameter σ

/-- What a command takes. -/
structure Form (σ : Type) where
  named : List (NamedParameter σ)
  operands : List (Setter σ) := []

/-- A value that is not checked yet. -/
structure Pending (σ : Type) where
  name : String
  set : Setter σ
  /-- Absent while the value of an option is still to come. -/
  value : Option String

/-- The state between two arguments. -/
structure Reading (σ : Type) where
  settled : σ
  /-- The options that are given. -/
  given : List String := []
  pending : Option (Pending σ) := none
  /-- The operands that may still come. -/
  operands : List (Setter σ)
  /-- After two dashes all arguments are operands. -/
  operandsOnly : Bool := false

namespace Reading

variable {σ : Type}

/-- Notes that an option is given. -/
def note (r : Reading σ) (name : String) : Except Fault (Reading σ) :=
  if r.given.contains name then .error .repeated else .ok { r with given := name :: r.given }

def take (r : Reading σ) (name value : String) (set : Setter σ) : Except Fault (Reading σ) := do
  let r ← r.note name
  return { r with settled := ← set value r.settled }

/-- Checks the pending value. -/
def settle (r : Reading σ) : Except Fault (Reading σ) :=
  match r.pending with
  | none => .ok r
  | some p =>
    match p.value with
    | none => .error .invalidValue
    | some value => { r with pending := none }.take p.name value p.set

/-- Takes an operand; there may be one too many. -/
def operand (r : Reading σ) (value : String) : Except Fault (Reading σ) :=
  match r.operands with
  | [] => .error .unknownArgument
  | set :: rest => do
    let r ← r.settle
    return { r with operands := rest, pending := some { name := "", set, value := some value } }

/-- Takes a named parameter with the value that is attached to it. -/
def named (r : Reading σ) (p : NamedParameter σ) (attached : Option String) :
    Except Fault (Reading σ) :=
  match p.parameter, attached with
  | .value set, some value => do (← r.settle).take p.long value set
  | .value set, none => do
    let r ← r.settle
    return { r with pending := some { name := p.long, set, value := none } }
  | _, some _ => .error .surplusValue
  | .switch set, none => do
    let r ← (← r.settle).note p.long
    return { r with settled := set r.settled }
  | .tally set, none => do
    let r ← r.settle
    return { r with settled := set r.settled }
  | .inquiry question, none => do
    let _ ← r.settle
    .error question

/-- What follows a short option in its argument is its value, after an equals sign or at once. -/
def attachedValue : List Char → Option String
  | [] => none
  | '=' :: cs => some (String.ofList cs)
  | cs => some (String.ofList cs)

/-- Takes an argument of short names. -/
def shortNames (form : Form σ) (r : Reading σ) : List Char → Except Fault (Reading σ)
  | [] => .ok r
  | c :: cs =>
    match form.named.find? fun p => p.short == some c with
    | none => .error .unknownArgument
    | some p =>
      match p.parameter with
      | .value _ => r.named p (attachedValue cs)
      | _ => do shortNames form (← r.named p none) cs

/-- Takes an argument of a long name and the value after an equals sign. -/
def longName (form : Form σ) (r : Reading σ) (text : String) : Except Fault (Reading σ) :=
  let (name, attached) := match cutFirst? '=' text with
    | some (name, value) => (name, some value)
    | none => (text, none)
  match form.named.find? fun p => p.long == name with
  | none => .error .unknownArgument
  | some p => r.named p attached

/-- Takes an argument that is neither an option nor the mark of two dashes. -/
def plain (r : Reading σ) (arg : String) : Except Fault (Reading σ) :=
  match r.pending with
  | some { name, set, value := none } =>
    .ok { r with pending := some { name, set, value := some arg } }
  | _ => r.operand arg

def step (form : Form σ) (r : Reading σ) (arg : String) : Except Fault (Reading σ) :=
  if r.operandsOnly then r.operand arg
  else match arg.toList with
    | ['-', '-'] => .ok { r with operandsOnly := true }
    | '-' :: '-' :: cs => r.longName form (String.ofList cs)
    | ['-'] => r.plain arg
    | '-' :: cs => r.shortNames form cs
    | _ => r.plain arg

end Reading

/-- The options that arguments give, from those that hold by default. -/
def Form.read {σ : Type} (form : Form σ) (default_ : σ) (args : List String) : Except Fault σ := do
  let start : Reading σ := { settled := default_, operands := form.operands }
  let r ← args.foldlM (Reading.step form) start
  return (← r.settle).settled

end Interlock.CommandLine
