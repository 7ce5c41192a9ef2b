import Interlock.Text.CharClass

/-! Cutting text into pieces. Every operation is a function on the list of characters, so that
statements about names and paths reduce to statements about lists. -/

namespace Interlock.Text

/-- What follows `start` at the front of `cs`. -/
def dropStartChars? : List Char → List Char → Option (List Char)
  | [], cs => some cs
  | _ :: _, [] => none
  | p :: ps, c :: cs => if p = c then dropStartChars? ps cs else none

theorem dropStartChars?_append (ps cs : List Char) : dropStartChars? ps (ps ++ cs) = some cs := by
  induction ps with
  | nil => rfl
  | cons p ps ih => simp [dropStartChars?, ih]

/-- Some position of the text is the start of an occurrence of `part`. -/
def containsChars (part : List Char) : List Char → Bool
  | [] => part.isEmpty
  | c :: cs => (dropStartChars? part (c :: cs)).isSome || containsChars part cs

def startsWith (start text : String) : Bool := (dropStartChars? start.toList text.toList).isSome

def dropStart? (start text : String) : Option String :=
  (dropStartChars? start.toList text.toList).map String.ofList

def dropEnd? (stop text : String) : Option String :=
  (dropStartChars? stop.toList.reverse text.toList.reverse).map fun cs => String.ofList cs.reverse

def endsWith (stop text : String) : Bool := (dropEnd? stop text).isSome

def contains (part text : String) : Bool := containsChars part.toList text.toList

/-- The pieces between the characters of the class `sep`; there is always at least one piece. -/
def splitChars (sep : Char → Bool) : List Char → List (List Char)
  | [] => [[]]
  | c :: cs =>
    if sep c then [] :: splitChars sep cs
    else match splitChars sep cs with
      | [] => [[c]]
      | piece :: pieces => (c :: piece) :: pieces

def split (sep : Char) (text : String) : List String :=
  (splitChars (· == sep) text.toList).map String.ofList

/-- The piece after the last `sep`, or the whole text. -/
def lastPiece (sep : Char) (text : String) : String :=
  String.ofList (text.toList.reverse.takeWhile (· != sep)).reverse

/-- The pieces around the last `sep`. -/
def cutLast? (sep : Char) (text : String) : Option (String × String) :=
  let back := text.toList.reverse
  match back.dropWhile (· != sep) with
  | [] => none
  | _ :: front =>
    some (String.ofList front.reverse, String.ofList (back.takeWhile (· != sep)).reverse)

/-- The pieces around the first `sep`. -/
def cutFirst? (sep : Char) (text : String) : Option (String × String) :=
  match text.toList.dropWhile (· != sep) with
  | [] => none
  | _ :: rest => some (String.ofList (text.toList.takeWhile (· != sep)), String.ofList rest)

/-- The piece before the first `sep`, or the whole text. -/
def firstPiece (sep : Char) (text : String) : String :=
  String.ofList (text.toList.takeWhile (· != sep))

def trimChars (cs : List Char) : List Char :=
  (((cs.dropWhile isBlank).reverse).dropWhile isBlank).reverse

def trim (text : String) : String := String.ofList (trimChars text.toList)

/-- Fills up with blanks on the right to at least `width` characters. -/
def padRight (width : Nat) (text : String) : String :=
  text ++ String.ofList (List.replicate (width - text.length) ' ')

/-- Fills up with blanks on the left to at least `width` characters. -/
def padLeft (width : Nat) (text : String) : String :=
  String.ofList (List.replicate (width - text.length) ' ') ++ text

end Interlock.Text
