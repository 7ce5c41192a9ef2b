import Interlock.Settings.Toml.Scalars

/-! Reading TOML documents. Readers take the characters that are left and return what they read
with the rest. A fuel argument bounds the rounds. Of two rounds in a row at least one uses up a
character, so that twice the length of the document is enough. -/

namespace Interlock.Settings.Toml

open Interlock.Text

/-! ## Blanks and comments -/

def isLineBlank (c : Char) : Bool := c == ' ' || c == '\t'

def dropBlanks (cs : List Char) : List Char := cs.dropWhile isLineBlank

/-- Drops blanks, newlines and comments. A comment is refused if it holds control characters. -/
def dropGap? (inComment : Bool) : List Char → Option (List Char)
  | [] => some []
  | '\n' :: cs => dropGap? false cs
  | '\r' :: '\n' :: cs => dropGap? false cs
  | c :: cs =>
    if inComment then if isPrintable c then dropGap? true cs else none
    else if c = '#' then dropGap? true cs
    else if isLineBlank c then dropGap? false cs
    else some (c :: cs)

/-- Ends a line: nothing but a comment may follow. The blank lines after it are dropped too. -/
def endLine? (cs : List Char) : Option (List Char) :=
  match dropBlanks cs with
  | [] => some []
  | '\n' :: rest => dropGap? false rest
  | '\r' :: '\n' :: rest => dropGap? false rest
  | '#' :: rest => dropGap? true rest
  | _ => none

/-! ## Keys -/

def isKeyChar (c : Char) : Bool := c.isAlphanum || c == '_' || c == '-'

/-- One part of a key. -/
def readKeyPart? (cs : List Char) : Option (String × List Char) :=
  match cs with
  | '"' :: '"' :: '"' :: _ => none
  | '\x27' :: '\x27' :: '\x27' :: _ => none
  | '"' :: _ | '\x27' :: _ => readLineString? cs
  | _ =>
    match cs.takeWhile isKeyChar with
    | [] => none
    | part => some (String.ofList part, cs.dropWhile isKeyChar)

/-- The most parts of a key, and the deepest nesting of arrays and inline tables. -/
def maxDepth : Nat := 80

/-- Parts between points, with blanks around them. The last part comes separately. -/
def readKeyParts? : Nat → List Char → Option (List String × String × List Char)
  | 0, _ => none
  | fuel + 1, cs => do
    let (part, rest) ← readKeyPart? (dropBlanks cs)
    match dropBlanks rest with
    | '.' :: rest =>
      let (path, last, rest) ← readKeyParts? fuel rest
      return (part :: path, last, rest)
    | rest => return ([], part, rest)

/-- A key that has not too many parts. -/
def readKey? (fuel : Nat) (cs : List Char) : Option (List String × String × List Char) :=
  (readKeyParts? fuel cs).filter fun key => key.1.length < maxDepth

/-! ## Values -/

mutual

def readValue? (fuel depth : Nat) (cs : List Char) : Option (Item × List Char) :=
  match fuel with
  | 0 => none
  | fuel + 1 =>
    match cs with
    | '[' :: rest =>
      if depth = maxDepth then none
      else do readItems? fuel (depth + 1) [] (← dropGap? false rest)
    | '\x7b' :: rest =>
      if depth = maxDepth then none
      else do readEntries? fuel (depth + 1) [] (← dropGap? false rest)
    | _ => (readScalar? cs).map fun r => (.scalar r.1, r.2)

/-- The rest of an array, in front of an element or the closing bracket. -/
def readItems? (fuel depth : Nat) (items : List Item) (cs : List Char) :
    Option (Item × List Char) :=
  match fuel with
  | 0 => none
  | fuel + 1 =>
    match cs with
    | ']' :: rest => some (.array items, rest)
    | _ => do
      let (item, rest) ← readValue? fuel depth cs
      match ← dropGap? false rest with
      | ',' :: rest => readItems? fuel depth (items ++ [item]) (← dropGap? false rest)
      | ']' :: rest => return (.array (items ++ [item]), rest)
      | _ => none

/-- The rest of an inline table, in front of a key or the closing brace. Unlike a line of the
document, an entry may go on in the next line before and after the equals sign. -/
def readEntries? (fuel depth : Nat) (entries : Entries) (cs : List Char) :
    Option (Item × List Char) :=
  match fuel with
  | 0 => none
  | fuel + 1 =>
    match cs with
    | '\x7d' :: rest => some (.table .inline entries, rest)
    | _ => do
      let (path, key, rest) ← readKey? fuel cs
      match ← dropGap? false rest with
      | '=' :: rest =>
        let (item, rest) ← readValue? fuel depth (← dropGap? false rest)
        let entries ← entries.assign path key item
        match ← dropGap? false rest with
        | ',' :: rest => readEntries? fuel depth entries (← dropGap? false rest)
        | '\x7d' :: rest => return (.table .inline entries, rest)
        | _ => none
      | _ => none

end

/-! ## Documents -/

/-- The lines of a document below the header whose path is `place`. -/
def readLines? (fuel : Nat) (place : List String) (root : Entries) (cs : List Char) :
    Option Entries :=
  match fuel with
  | 0 => none
  | fuel + 1 =>
    match cs with
    | [] => some root
    | '[' :: '[' :: rest => do
      let (path, key, rest) ← readKey? fuel rest
      match rest with
      | ']' :: ']' :: rest =>
        let root ← root.within path (Entries.openElement key)
        readLines? fuel (path ++ [key]) root (← endLine? rest)
      | _ => none
    | '[' :: rest => do
      let (path, key, rest) ← readKey? fuel rest
      match rest with
      | ']' :: rest =>
        let root ← root.within path (Entries.openTable key)
        readLines? fuel (path ++ [key]) root (← endLine? rest)
      | _ => none
    | _ => do
      let (path, key, rest) ← readKey? fuel cs
      match rest with
      | '=' :: rest =>
        let (item, rest) ← readValue? fuel 0 (dropBlanks rest)
        let root ← root.within place (Entries.assign path key item)
        readLines? fuel place root (← endLine? rest)
      | _ => none

/-- A mark of the byte order at the start is dropped. -/
def dropByteOrderMark : List Char → List Char
  | '\uFEFF' :: cs => cs
  | cs => cs

/-- The top level table of a document. -/
def read? (text : String) : Option Entries := do
  let cs ← dropGap? false (dropByteOrderMark text.toList)
  readLines? (2 * cs.length + 2) [] [] cs

end Interlock.Settings.Toml
