/-! Structured documents and their layout as JSON, one member per line. -/

namespace Interlock.Text

/-- A value with named members in a fixed order. -/
inductive Document where
  | text (value : String)
  | number (value : Nat)
  | flag (value : Bool)
  | list (items : List Document)
  | record (members : List (String × Document))
  deriving Repr

/-- Two hexadecimal digits of a control character. -/
def controlDigits (c : Char) : List Char :=
  (if c.toNat < 16 then ['0'] else []) ++ Nat.toDigits 16 c.toNat

/-- Escapes what cannot stand in a JSON string; all other characters stand for themselves. -/
def jsonEscape (c : Char) : List Char :=
  if c = '"' then ['\\', '"']
  else if c = '\\' then ['\\', '\\']
  else if c = '\n' then ['\\', 'n']
  else if c = '\r' then ['\\', 'r']
  else if c = '\t' then ['\\', 't']
  else if c.toNat = 8 then ['\\', 'b']
  else if c.toNat = 12 then ['\\', 'f']
  else if c.toNat < 32 then ['\\', 'u', '0', '0'] ++ controlDigits c
  else [c]

def jsonString (text : String) : String :=
  "\"" ++ String.ofList (text.toList.flatMap jsonEscape) ++ "\""

namespace Document

/-- A new line at a depth; each level is two blanks deep. -/
def newline (depth : Nat) : String := "\n" ++ String.ofList (List.replicate (2 * depth) ' ')

/-- Parts between brackets, each on a line of its own; no parts leave the brackets together. -/
def bracketed (opening closing : String) (depth : Nat) (parts : List String) : String :=
  if parts.isEmpty then opening ++ closing
  else opening ++ ",".intercalate (parts.map fun p => newline (depth + 1) ++ p) ++
    newline depth ++ closing

mutual

/-- The text of a document whose first line is already indented. -/
def layout (depth : Nat) : Document → String
  | text value => jsonString value
  | number value => toString value
  | flag value => if value then "true" else "false"
  | list items => bracketed "[" "]" depth (layoutItems (depth + 1) items)
  | record members => bracketed "\x7b" "\x7d" depth (layoutMembers (depth + 1) members)

def layoutItems (depth : Nat) : List Document → List String
  | [] => []
  | d :: ds => layout depth d :: layoutItems depth ds

def layoutMembers (depth : Nat) : List (String × Document) → List String
  | [] => []
  | (name, d) :: ds => (jsonString name ++ ": " ++ layout depth d) :: layoutMembers depth ds

end

def pretty (d : Document) : String := layout 0 d

def texts (ts : List String) : Document := list (ts.map text)

end Document

end Interlock.Text
