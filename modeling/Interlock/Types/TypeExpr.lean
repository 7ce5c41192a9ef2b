import Interlock.Text.Pieces

/-! Types as declarations write them, such as `Map<String, List<Integer>>[]`.

The reader knows generic arguments, arrays, variable arity, wildcards, nullable and pointer
marks and annotations. Tuples and function types are refused, and the analysis then treats the
type as unknown. -/

namespace Interlock.Types

open Interlock.Text

/-- A written type. Generic arguments belong to the last segment of a dotted name. -/
inductive TypeExpr where
  | mk (name : String) (args : List TypeExpr) (dims : Nat)
  deriving Repr, Inhabited

namespace TypeExpr

def name : TypeExpr → String
  | mk n _ _ => n

def args : TypeExpr → List TypeExpr
  | mk _ as _ => as

def dims : TypeExpr → Nat
  | mk _ _ d => d

/-- A name without arguments and dimensions. -/
def plain (name : String) : TypeExpr := mk name [] 0

/-- The last segment of the name. -/
def simpleName (t : TypeExpr) : String := lastPiece '.' t.name

def isVoid (t : TypeExpr) : Bool := t.dims == 0 && t.args.isEmpty && t.name == "void"

def isGeneric (t : TypeExpr) : Bool := !t.args.isEmpty

/-- The same type with one dimension less. -/
def element (t : TypeExpr) : TypeExpr := mk t.name t.args (t.dims - 1)

end TypeExpr

/-! ## Annotations -/

/-- Where in an annotation the reader is. -/
inductive AnnotationState where
  | outside
  | inName
  | inArguments (depth : Nat)

/-- Removes annotations together with their argument lists. An argument list that is never
closed reaches to the end of the text. -/
def dropAnnotations : AnnotationState → List Char → List Char
  | _, [] => []
  | .outside, c :: cs =>
    if c = '@' then dropAnnotations .inName cs else c :: dropAnnotations .outside cs
  | .inName, c :: cs =>
    if isWordChar c || c == '_' || c == '.' then dropAnnotations .inName cs
    else if c = '(' then dropAnnotations (.inArguments 1) cs
    else if c = '@' then dropAnnotations .inName cs
    else c :: dropAnnotations .outside cs
  | .inArguments depth, c :: cs =>
    if c = '(' then dropAnnotations (.inArguments (depth + 1)) cs
    else if c = ')' then
      if depth ≤ 1 then dropAnnotations .outside cs
      else dropAnnotations (.inArguments (depth - 1)) cs
    else dropAnnotations (.inArguments depth) cs

/-! ## Reading -/

namespace TypeExpr

def skipBlanks (cs : List Char) : List Char := cs.dropWhile isBlank

/-- What follows the character `c`, blanks before it skipped. -/
def eat (c : Char) (cs : List Char) : Option (List Char) :=
  match skipBlanks cs with
  | d :: rest => if d = c then some rest else none
  | [] => none

def isIdentChar (c : Char) : Bool := isWordChar c || c == '_' || c == '$'

/-- An identifier, blanks before it skipped. -/
def ident (cs : List Char) : Option (String × List Char) :=
  let cs := skipBlanks cs
  match cs.takeWhile isIdentChar with
  | [] => none
  | c :: w => some (String.ofList (c :: w), cs.dropWhile isIdentChar)

/-- Words that may stand before a type without being part of it. Each is skipped at most once
and only in this order. -/
def modifiers : List String := ["params", "ref", "out", "in", "final", "const", "scoped"]

def skipModifiers : List String → String × List Char → Option (String × List Char)
  | [], word => some word
  | m :: ms, word => if word.1 = m then (ident word.2).bind (skipModifiers ms) else skipModifiers ms word

/-- Skips the marker `global::`. A single colon after `global` is skipped as well, and `global`
then stays the name. -/
def skipGlobal (word : String × List Char) : Option (String × List Char) :=
  if word.1 = "global" then
    match eat ':' word.2 with
    | none => some word
    | some afterFirst =>
      match eat ':' afterFirst with
      | none => some (word.1, afterFirst)
      | some afterSecond => ident afterSecond
  else some word

def skipCommas : List Char → Nat → List Char
  | cs, 0 => cs
  | cs, fuel + 1 =>
    match eat ',' cs with
    | some rest => skipCommas rest fuel
    | none => cs

/-- Array brackets, nullable and pointer marks and the three points of variable arity, counting
the dimensions they add. -/
def suffixes : Nat → Nat → List Char → Option (Nat × List Char)
  | 0, dims, cs => some (dims, cs)
  | fuel + 1, dims, cs =>
    match skipBlanks cs with
    | '[' :: rest =>
      match eat ']' (skipCommas rest rest.length) with
      | some rest => suffixes fuel (dims + 1) rest
      | none => none
    | '?' :: rest => suffixes fuel dims rest
    | '*' :: rest => suffixes fuel dims rest
    | '.' :: rest =>
      match (eat '.' rest).bind (eat '.') with
      | some rest => suffixes fuel (dims + 1) rest
      | none => none
    | rest => some (dims, rest)

mutual

/-- Reads one type; the first argument bounds the nesting of calls. -/
def read : Nat → List Char → Option (TypeExpr × List Char)
  | 0, _ => none
  | fuel + 1, cs =>
    match eat '?' cs with
    | some rest =>
      match ident rest with
      | some (word, afterWord) =>
        if word = "extends" || word = "super" then read fuel afterWord
        else some (plain "?", rest)
      | none => some (plain "?", rest)
    | none => do
      let word ← ident cs
      let word ← skipModifiers modifiers word
      let (first, rest) ← skipGlobal word
      let (name, args, rest) ← readSegments fuel first [] rest
      let (dims, rest) ← suffixes rest.length 0 rest
      some (mk name args dims, rest)

/-- Reads generic arguments and further segments of the dotted name `name`. -/
def readSegments : Nat → String → List TypeExpr → List Char →
    Option (String × List TypeExpr × List Char)
  | 0, _, _, _ => none
  | fuel + 1, name, args, cs => do
    let (args, rest) ← match eat '<' cs with
      | some inside =>
        match eat '>' inside with
        | some rest => some ([], rest)
        | none => readArgs fuel inside
      | none => some (args, cs)
    match skipBlanks rest with
    | '.' :: '.' :: more => some (name, args, '.' :: '.' :: more)
    | '.' :: more =>
      let (segment, rest) ← ident more
      readSegments fuel (name ++ "." ++ segment) args rest
    | rest => some (name, args, rest)

/-- Reads arguments separated by commas up to the closing bracket. -/
def readArgs : Nat → List Char → Option (List TypeExpr × List Char)
  | 0, _ => none
  | fuel + 1, cs => do
    let (arg, rest) ← read fuel cs
    match eat '>' rest with
    | some rest => some ([arg], rest)
    | none =>
      let rest ← eat ',' rest
      let (args, rest) ← readArgs fuel rest
      some (arg :: args, rest)

end

/-- Reads a whole text as one type. Between two nested calls of one kind a character is
consumed, and there are three kinds, which bounds the nesting. -/
def parse? (text : String) : Option TypeExpr := do
  let cs := dropAnnotations .outside text.toList
  let (t, rest) ← read (4 * (cs.length + 1)) cs
  if (skipBlanks rest).isEmpty then some t else none

end TypeExpr

end Interlock.Types
