import Interlock.Text.Pieces

/-! The four sorts of strings of a TOML document. A string is first cut out up to its closing
delimiter and then decoded. -/

namespace Interlock.Settings.Toml

open Interlock.Text

/-- Characters that strings and comments may hold: all but the control characters, of which only
the tab is allowed. -/
def isPrintable (c : Char) : Bool := c == '\t' || (32 ≤ c.toNat && c.toNat != 127)

/-! ## Extents -/

/-- Cuts at the first quote that no backslash stands before. -/
def cutBasic? : List Char → Option (List Char × List Char)
  | [] => none
  | '\\' :: c :: cs => (cutBasic? cs).map fun r => ('\\' :: c :: r.1, r.2)
  | c :: cs => if c = '"' then some ([], cs) else (cutBasic? cs).map fun r => (c :: r.1, r.2)

/-- Cuts at the first apostrophe. -/
def cutLiteral? (cs : List Char) : Option (List Char × List Char) :=
  match cs.dropWhile (· != '\x27') with
  | [] => none
  | _ :: rest => some (cs.takeWhile (· != '\x27'), rest)

/-- The rest after three delimiters that close a text. Up to two more belong to the text. -/
def closeLines (quote : Char) : List Char → List Char × List Char
  | a :: b :: cs =>
    if a = quote then if b = quote then ([a, b], cs) else ([a], b :: cs) else ([], a :: b :: cs)
  | [a] => if a = quote then ([a], []) else ([], [a])
  | [] => ([], [])

/-- Cuts at the first three quotes in a row that no backslash stands before. -/
def cutBasicLines? : List Char → Option (List Char × List Char)
  | [] => none
  | '"' :: '"' :: '"' :: cs => some (closeLines '"' cs)
  | '\\' :: c :: cs => (cutBasicLines? cs).map fun r => ('\\' :: c :: r.1, r.2)
  | c :: cs => (cutBasicLines? cs).map fun r => (c :: r.1, r.2)

/-- Cuts at the first three apostrophes in a row. -/
def cutLiteralLines? : List Char → Option (List Char × List Char)
  | [] => none
  | '\x27' :: '\x27' :: '\x27' :: cs => some (closeLines '\x27' cs)
  | c :: cs => (cutLiteralLines? cs).map fun r => (c :: r.1, r.2)

/-! ## Contents -/

def hexDigit? (c : Char) : Option Nat :=
  if '0' ≤ c ∧ c ≤ '9' then some (c.toNat - '0'.toNat)
  else if 'a' ≤ c ∧ c ≤ 'f' then some (c.toNat - 'a'.toNat + 10)
  else if 'A' ≤ c ∧ c ≤ 'F' then some (c.toNat - 'A'.toNat + 10)
  else none

/-- The character with a code point in hexadecimal digits; surrogates are none. -/
def charOfHex? (digits : List Char) : Option Char := do
  let ds ← digits.mapM hexDigit?
  let n := ds.foldl (fun n d => 16 * n + d) 0
  if h : n.isValidChar then some (Char.ofNatAux n h) else none

def shortEscape? : Char → Option Char
  | 'b' => some (Char.ofNat 8)
  | 't' => some '\t'
  | 'n' => some '\n'
  | 'f' => some (Char.ofNat 12)
  | 'r' => some '\r'
  | 'e' => some (Char.ofNat 27)
  | '"' => some '"'
  | '\\' => some '\\'
  | _ => none

/-- The character that an escape stands for, after its backslash. -/
def readEscape? : List Char → Option (Char × List Char)
  | 'x' :: a :: b :: cs => (charOfHex? [a, b]).map fun c => (c, cs)
  | 'u' :: a :: b :: c :: d :: cs => (charOfHex? [a, b, c, d]).map fun c => (c, cs)
  | 'U' :: a :: b :: c :: d :: e :: f :: g :: h :: cs =>
    (charOfHex? [a, b, c, d, e, f, g, h]).map fun c => (c, cs)
  | c :: cs => (shortEscape? c).map fun c => (c, cs)
  | [] => none

/-- Drops blanks and newlines. A carriage return alone is no newline. -/
def dropLayout : List Char → List Char
  | '\r' :: '\n' :: cs => dropLayout cs
  | c :: cs => if c = ' ' ∨ c = '\t' ∨ c = '\n' then dropLayout cs else c :: cs
  | [] => []

/-- What is left after a backslash that ends a line: the rest of the line, which must be blank, and
all blank lines and indentation that follow are dropped. -/
def afterLineEnd? (cs : List Char) : Option (List Char) :=
  match cs.dropWhile fun c => c == ' ' || c == '\t' with
  | '\n' :: rest => some (dropLayout rest)
  | '\r' :: '\n' :: rest => some (dropLayout rest)
  | _ => none

/-- Decodes a text on one line or, with `lines`, on several. Each round uses up a character, so
that as many rounds as there are characters are enough. -/
def unescape? (lines : Bool) : Nat → List Char → Option (List Char)
  | _, [] => some []
  | 0, _ => none
  | fuel + 1, '\\' :: cs =>
    match if lines then afterLineEnd? cs else none with
    | some rest => unescape? lines fuel rest
    | none => do
      let (c, rest) ← readEscape? cs
      return c :: (← unescape? lines fuel rest)
  | fuel + 1, '\r' :: '\n' :: cs =>
    if lines then do return '\r' :: '\n' :: (← unescape? lines fuel cs) else none
  | fuel + 1, c :: cs =>
    if isPrintable c || (lines && c == '\n') then do return c :: (← unescape? lines fuel cs)
    else none

/-- A newline right after the opening delimiter does not belong to the text. -/
def dropFirstNewline : List Char → List Char
  | '\n' :: cs => cs
  | '\r' :: '\n' :: cs => cs
  | cs => cs

/-- Every carriage return starts a newline, and all else is printable. -/
def isPlainLines : List Char → Bool
  | [] => true
  | '\r' :: '\n' :: cs => isPlainLines cs
  | c :: cs => (isPrintable c || c == '\n') && isPlainLines cs

/-! ## Strings -/

/-- The string that starts a text, of a sort that stands on one line. -/
def readLineString? : List Char → Option (String × List Char)
  | '"' :: cs => do
    let (raw, rest) ← cutBasic? cs
    return (String.ofList (← unescape? false raw.length raw), rest)
  | '\x27' :: cs => do
    let (raw, rest) ← cutLiteral? cs
    if raw.all isPrintable then some (String.ofList raw, rest) else none
  | _ => none

/-- The string of any sort that starts a text. -/
def readString? : List Char → Option (String × List Char)
  | '"' :: '"' :: '"' :: cs => do
    let (raw, rest) ← cutBasicLines? (dropFirstNewline cs)
    return (String.ofList (← unescape? true raw.length raw), rest)
  | '\x27' :: '\x27' :: '\x27' :: cs => do
    let (raw, rest) ← cutLiteralLines? (dropFirstNewline cs)
    if isPlainLines raw then some (String.ofList raw, rest) else none
  | cs => readLineString? cs

end Interlock.Settings.Toml
