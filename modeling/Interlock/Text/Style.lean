/-! Text with terminal attributes. -/

namespace Interlock.Text

inductive Colour where
  | red
  | green
  | yellow
  | cyan
  deriving DecidableEq, Repr

/-- How a text is set off on a terminal. -/
structure Style where
  bold : Bool := false
  dimmed : Bool := false
  colour : Option Colour := none
  deriving DecidableEq, Repr

def Colour.code : Colour → String
  | red => "31"
  | green => "32"
  | yellow => "33"
  | cyan => "36"

namespace Style

def escapeChar : Char := Char.ofNat 27

/-- The sequence that ends all attributes. -/
def reset : List Char := escapeChar :: ['[', '0', 'm']

def codes (s : Style) : List String :=
  (if s.bold then ["1"] else []) ++ (if s.dimmed then ["2"] else []) ++
    (s.colour.map Colour.code).toList

/-- The sequence that starts the attributes. -/
def start (s : Style) : List Char :=
  escapeChar :: '[' :: (";".intercalate s.codes ++ "m").toList

/-- Starts the attributes again after every reset that the text itself holds. -/
def resume (start : List Char) : List Char → List Char
  | a :: b :: c :: d :: rest =>
    if [a, b, c, d] = reset then reset ++ start ++ resume start rest
    else a :: resume start (b :: c :: d :: rest)
  | short => short

/-- Sets a text in a style. Without colours, or with no attribute at all, the text is plain. -/
def paint (colours : Bool) (s : Style) (text : String) : String :=
  if colours && !s.codes.isEmpty then
    String.ofList (s.start ++ resume s.start text.toList ++ reset)
  else text

end Style

end Interlock.Text
