import Interlock.Settings.Toml.Strings
import Interlock.Settings.Toml.Value

/-! Numbers, flags, dates and times of a TOML document. -/

namespace Interlock.Settings.Toml

open Interlock.Text

/-! ## Digits -/

def isDecimal (c : Char) : Bool := '0' ≤ c && c ≤ '9'

/-- Digits in which single underscores may stand between two digits. -/
def groupedDigits? (isDigit : Char → Bool) (cs : List Char) : Option (List Char) :=
  let groups := splitChars (· == '_') cs
  if groups.all fun g => !g.isEmpty && g.all isDigit then some groups.flatten else none

/-- The number that digits write in a base. -/
def numeral (base : Nat) (digits : List Char) : Nat :=
  digits.foldl (fun n c => base * n + (hexDigit? c).getD 0) 0

def isDigitOf (base : Nat) (c : Char) : Bool :=
  match hexDigit? c with
  | some d => d < base
  | none => false

def splitSign : List Char → Bool × List Char
  | '-' :: cs => (true, cs)
  | '+' :: cs => (false, cs)
  | cs => (false, cs)

def withSign (negative : Bool) (n : Nat) : Int := if negative then -n else n

/-! ## Integers -/

/-- Bounds of the integers that can be held. -/
def inRange (n : Int) : Bool :=
  -(Nat.pow 2 127 : Int) ≤ n && n < (Nat.pow 2 128 : Int)

def integerOf (n : Int) : Scalar := if inRange n then .integer n else .unreadable

/-- An integer in a base other than ten, after the mark of the base. Its digits may be missing. -/
def basedOf? (base : Nat) (ds : List Char) : Option Scalar :=
  if ds.isEmpty then some .unreadable
  else (groupedDigits? (isDigitOf base) ds).map fun ds => integerOf (numeral base ds)

/-- Whether the ends of parts that stand between underscores are digits of some base. A first part
of one character is free: it can be a sign. -/
def endsFit (parts : List (List Char)) : Bool :=
  let isHex := isDigitOf 16
  (parts.drop 1).all (fun part => part.head?.any isHex) &&
    parts.dropLast.all fun part => part.length == 1 || part.getLast?.any isHex

/-- The integer that a sign and digits write. -/
def plainDecimal (cs : List Char) : Scalar :=
  let (negative, ds) := splitSign cs
  if !ds.isEmpty && ds.all isDecimal then integerOf (withSign negative (numeral 10 ds))
  else .unreadable

/-- An integer in base ten has no zero in front. What stands inside its parts is not looked at
before the value is asked for. -/
def decimalOf? (cs : List Char) : Option Scalar :=
  let digits := (splitSign cs).2
  match digits, digits.dropWhile isDecimal with
  | [], _ | '0' :: _ :: _, _ => none
  | _, [] => some (plainDecimal cs)
  | _, '_' :: _ =>
    let parts := splitChars (· == '_') cs
    if endsFit parts then some (plainDecimal parts.flatten) else none
  | _, _ => none

def readInteger? : List Char → Option Scalar
  | '0' :: 'x' :: ds => basedOf? 16 ds
  | '0' :: 'o' :: ds => basedOf? 8 ds
  | '0' :: 'b' :: ds => basedOf? 2 ds
  | cs => decimalOf? cs

/-! ## Reals -/

/-- The least number that is nearer to 2 to the power of 1024 than to any finite binary number of
double precision, or as near. -/
def doubleLimit : Nat := Nat.pow 2 1024 - Nat.pow 2 970

/-- Whether a decimal number stays below the limit of double precision. Numbers of very many or
very few places before the point are told apart by their length alone. -/
def isFiniteDouble (mantissa : Nat) (exponent : Int) : Bool :=
  let places : Int := (Nat.toDigits 10 mantissa).length + exponent
  if mantissa = 0 || places < 300 then true
  else if 310 < places then false
  else mantissa * Nat.pow 10 exponent.toNat < doubleLimit * Nat.pow 10 (-exponent).toNat

/-- The value of an exponent, with or without a sign. -/
def readExponent? (cs : List Char) : Option Int := do
  let (negative, digits) := splitSign cs
  return withSign negative (numeral 10 (← groupedDigits? isDecimal digits))

/-- The digits before the point: there is no zero in front of others. After a sign they may start
with an underscore, and then zeros are free. -/
def wholeDigits? (signed : Bool) (cs : List Char) : Option (List Char) :=
  match signed, cs with
  | true, '_' :: ds => groupedDigits? isDecimal ds
  | _, '0' :: _ :: _ => none
  | _, ds => groupedDigits? isDecimal ds

def isExponentMark (c : Char) : Bool := c == 'e' || c == 'E'

def isRealMark (c : Char) : Bool := c == '.' || isExponentMark c

/-- A number with a point or an exponent, as a whole number times a power of ten. -/
def readReal? (cs : List Char) : Option (Nat × Int) := do
  let digits := (splitSign cs).2
  let front := digits.takeWhile fun c => !isExponentMark c
  let exponent := digits.dropWhile fun c => !isExponentMark c
  let whole := front.takeWhile (· != '.')
  let fraction := front.dropWhile (· != '.')
  let ws ← wholeDigits? (digits.length < cs.length) whole
  let fs ← if fraction.isEmpty then some [] else groupedDigits? isDecimal (fraction.drop 1)
  let e ← if exponent.isEmpty then some 0 else readExponent? (exponent.drop 1)
  return (numeral 10 (ws ++ fs), e - fs.length)

def realOf? (cs : List Char) : Option Scalar :=
  (readReal? cs).map fun r => if isFiniteDouble r.1 r.2 then .real else .unreadable

/-- The reals that are no finite numbers have names. -/
def isNamedReal (cs : List Char) : Bool :=
  let name := (splitSign cs).2
  name == ['i', 'n', 'f'] || name == ['n', 'a', 'n']

/-! ## Dates and times -/

def daysIn (year month : Nat) : Nat :=
  if month = 2 then
    if year % 4 = 0 && (year % 100 != 0 || year % 400 = 0) then 29 else 28
  else if [4, 6, 9, 11].contains month then 30
  else 31

/-- A number of exactly so many decimal digits. -/
def fixedDigits? (width : Nat) (cs : List Char) : Option Nat :=
  if cs.length = width && cs.all isDecimal then some (numeral 10 cs) else none

def isDate (cs : List Char) : Bool :=
  match splitChars (· == '-') cs with
  | [year, month, day] =>
    match fixedDigits? 4 year, fixedDigits? 2 month, fixedDigits? 2 day with
    | some y, some m, some d => 1 ≤ m && m ≤ 12 && 1 ≤ d && d ≤ daysIn y m
    | _, _, _ => false
  | _ => false

def isHour (cs : List Char) : Bool := (fixedDigits? 2 cs).any (· ≤ 23)

def isMinute (cs : List Char) : Bool := (fixedDigits? 2 cs).any (· ≤ 59)

/-- Seconds up to a leap second, with or without a fraction. -/
def isSecond (cs : List Char) : Bool :=
  (fixedDigits? 2 (cs.takeWhile (· != '.'))).any (· ≤ 60) &&
    match cs.dropWhile (· != '.') with
    | [] => true
    | _ :: fraction => !fraction.isEmpty && fraction.all isDecimal

def isTime (cs : List Char) : Bool :=
  match splitChars (· == ':') cs with
  | [h, m] => isHour h && isMinute m
  | [h, m, s] => isHour h && isMinute m && isSecond s
  | _ => false

/-- A time with a distance from universal time, or without one. -/
def isZonedTime (cs : List Char) : Bool :=
  let time := cs.takeWhile fun c => !(['Z', 'z', '+', '-'].contains c)
  isTime time &&
    match cs.drop time.length with
    | [] | ['Z'] | ['z'] => true
    | sign :: distance =>
      match splitChars (· == ':') distance with
      | [h, m] => (sign == '+' || sign == '-') && isHour h && isMinute m
      | _ => false

def isMoment (cs : List Char) : Bool :=
  isDate cs || isTime cs ||
    (isDate (cs.take 10) &&
      match cs.drop 10 with
      | c :: time => ['T', 't', ' '].contains c && isZonedTime time
      | [] => false)

/-! ## Scalars -/

def isScalarChar (c : Char) : Bool := c.isAlphanum || ['+', '-', '_', '.', ':'].contains c

/-- Cuts off the characters of a scalar. A date goes on after a space if a digit follows. -/
def cutScalar (cs : List Char) : List Char × List Char :=
  let front := cs.takeWhile isScalarChar
  match cs.dropWhile isScalarChar with
  | ' ' :: c :: rest =>
    if isDate front && isDecimal c then
      (front ++ ' ' :: (c :: rest).takeWhile isScalarChar, (c :: rest).dropWhile isScalarChar)
    else (front, ' ' :: c :: rest)
  | rest => (front, rest)

/-- A number in one of its forms. A point or an exponent makes it real; the letter of an exponent
can also be a digit in base sixteen. -/
def numberOf? (cs : List Char) : Option Scalar :=
  match cs with
  | '0' :: 'x' :: _ => readInteger? cs
  | _ =>
    if isNamedReal cs then some .real
    else if cs.any isRealMark then realOf? cs
    else readInteger? cs

/-- The scalar that a text writes without quotes. -/
def scalarOf? (cs : List Char) : Option Scalar :=
  if cs = ['t', 'r', 'u', 'e'] then some (.flag true)
  else if cs = ['f', 'a', 'l', 's', 'e'] then some (.flag false)
  else if isMoment cs then some .moment
  else numberOf? cs

/-- The scalar that starts a text. -/
def readScalar? (cs : List Char) : Option (Scalar × List Char) :=
  match cs with
  | '"' :: _ | '\x27' :: _ => (readString? cs).map fun r => (.text r.1, r.2)
  | _ =>
    let (front, rest) := cutScalar cs
    (scalarOf? front).map fun s => (s, rest)

end Interlock.Settings.Toml
