import Interlock.Text.Pieces

/-! Glob patterns over paths. `?` stands for a character, `*` for any text, `[…]` for a character
of a set, and `**`, which has to be a whole path component, for any number of components. A `*`
also reaches over separators. -/

namespace Interlock.Settings.Glob

/-- Why a text is no pattern, and at which character that shows. -/
inductive FaultKind where
  | wildcards
  | recursiveWildcards
  | range
  deriving DecidableEq, Repr

structure Fault where
  position : Nat
  kind : FaultKind
  deriving DecidableEq, Repr

def FaultKind.message : FaultKind → String
  | wildcards => "wildcards are either regular `*` or recursive `**`"
  | recursiveWildcards => "recursive wildcards must form a single path component"
  | range => "invalid range pattern"

def Fault.message (f : Fault) : String :=
  "Pattern syntax error near position " ++ toString f.position ++ ": " ++ f.kind.message

/-- Part of a set of characters. -/
inductive CharSpec where
  | single (c : Char)
  | range (first last : Char)
  deriving DecidableEq, Repr

inductive Token where
  | char (c : Char)
  | any
  | within (specs : List CharSpec)
  | except (specs : List CharSpec)
  | sequence
  /-- Any number of whole path components. -/
  | components
  deriving DecidableEq, Repr

abbrev Pattern := List Token

/-! ## Reading -/

def charSpecs : List Char → List CharSpec
  | a :: '-' :: b :: rest => .range a b :: charSpecs rest
  | a :: rest => .single a :: charSpecs rest
  | [] => []

/-- A set after its opening bracket: its members and what follows the closing one. The first
member may be a bracket itself. -/
def charSet? : List Char → Option (List CharSpec × List Char)
  | first :: rest =>
    match rest.dropWhile (· != ']') with
    | _ :: after => some (charSpecs (first :: rest.takeWhile (· != ']')), after)
    | [] => none
  | [] => none

/-- A set of characters, or of all others, after its opening bracket. -/
def charToken? : List Char → Option (Token × List Char)
  | '!' :: inside => (charSet? inside).map fun (specs, after) => (.except specs, after)
  | inside => (charSet? inside).map fun (specs, after) => (.within specs, after)

/-- Reads what is left of a pattern. `position` counts the characters before it and `previous`
is the last of them; `done` holds the tokens read so far, the last one first. -/
def readTokens : Nat → Nat → Option Char → List Token → List Char → Except Fault Pattern
  | 0, _, _, done, _ => .ok done.reverse
  | _, _, _, done, [] => .ok done.reverse
  | fuel + 1, position, previous, done, c :: rest =>
    match c with
    | '?' => readTokens fuel (position + 1) (some c) (.any :: done) rest
    | '*' =>
      let stars := 1 + (rest.takeWhile (· == '*')).length
      let after := rest.dropWhile (· == '*')
      let position' := position + stars
      if stars = 1 then readTokens fuel position' (some c) (.sequence :: done) after
      else if stars > 2 then .error ⟨position + 2, .wildcards⟩
      else if position = 0 || previous == some '/' then
        let done := match done with
          | .components :: _ :: _ => done
          | _ => .components :: done
        match after with
        | [] => .ok done.reverse
        | '/' :: after => readTokens fuel (position' + 1) (some '/') done after
        | _ => .error ⟨position', .recursiveWildcards⟩
      else .error ⟨position - 1, .recursiveWildcards⟩
    | '[' =>
      match charToken? rest with
      | some (token, after) =>
        readTokens fuel (position + 1 + (rest.length - after.length)) (some ']')
          (token :: done) after
      | none => .error ⟨position, .range⟩
    | c => readTokens fuel (position + 1) (some c) (.char c :: done) rest

def compile (text : String) : Except Fault Pattern :=
  readTokens (text.length + 1) 0 none [] text.toList

/-! ## Matching -/

def CharSpec.holds (c : Char) : CharSpec → Bool
  | single d => c == d
  | range first last => first ≤ c && c ≤ last

/-- All texts that are left after skipping some characters. -/
def remainders : List Char → List (List Char)
  | [] => [[]]
  | c :: rest => (c :: rest) :: remainders rest

/-- What follows each separator, and the empty text. -/
def afterSeparators : List Char → List (List Char)
  | [] => [[]]
  | c :: rest => if c = '/' then rest :: afterSeparators rest else afterSeparators rest

/-- Whether a token stands for a character. -/
def Token.holds (c : Char) : Token → Bool
  | char d => c == d
  | any => true
  | within specs => specs.any (CharSpec.holds c)
  | except specs => !specs.any (CharSpec.holds c)
  | sequence | components => false

def longest (texts : List (List Char)) : List Char :=
  texts.foldl (fun a b => if a.length < b.length then b else a) []

/-- What can be left once a token has taken its part of a text. The texts are ends of one text, and
what a longer one can lose covers what a shorter one can, so that the work stays small. -/
def Token.advance (texts : List (List Char)) (token : Token) : List (List Char) :=
  match texts, token with
  | [], _ => []
  | texts, .sequence => remainders (longest texts)
  | texts, .components => texts ++ afterSeparators (longest texts)
  | texts, token => texts.filterMap fun text =>
    match text with
    | c :: rest => if token.holds c then some rest else none
    | [] => none

/-- A pattern matches a text of which nothing has to be left. -/
def Pattern.matches (p : Pattern) (text : String) : Bool :=
  (p.foldl Token.advance [text.toList]).any List.isEmpty

end Interlock.Settings.Glob
