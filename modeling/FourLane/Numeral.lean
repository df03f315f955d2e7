import FourLane.Lane

/-!
# Numerals at the start of a text

An atom is a number as far as a numeral stands at its start: an infinity or a NaN
by name, a hexadecimal or a decimal numeral, each after an optional sign.
Whatever follows is ignored, and a text that starts with no numeral counts as
zero. A decimal numeral is rounded once. A hexadecimal one is built up in double
precision, digit by digit, then scaled by a power of two and rounded to a lane.
-/
namespace FourLane

structure Exponent where
  negative : Bool := false
  digits : List Char := []

inductive Numeral where
  | infinity
  | nan
  | hexadecimal (whole places : List Char) (exponent : Exponent)
  | decimal (whole places : List Char) (exponent : Exponent)

def splitSign : List Char → Bool × List Char
  | '-' :: cs => (true, cs)
  | '+' :: cs => (false, cs)
  | cs => (false, cs)

def digitValue (c : Char) : Nat :=
  if c.isDigit then c.toNat - '0'.toNat
  else c.toLower.toNat - 'a'.toNat + 10

def isHexDigit (c : Char) : Bool := c.isDigit || ('a' ≤ c.toLower && c.toLower ≤ 'f')

namespace Numeral

/-- Whether the text starts with the word, in capitals or not. -/
def startsWith (word text : List Char) : Bool :=
  (text.take word.length).map Char.toLower == word

/-- Digits with an optional point among them, and the rest of the text. A point
alone has no digits. -/
def splitDigits (isDigit : Char → Bool) (text : List Char) :
    Option (List Char × List Char × List Char) :=
  let whole := text.takeWhile isDigit
  match text.dropWhile isDigit with
  | '.' :: rest =>
    let places := rest.takeWhile isDigit
    if whole.isEmpty && places.isEmpty then none
    else some (whole, places, rest.dropWhile isDigit)
  | rest => if whole.isEmpty then none else some (whole, [], rest)

/-- An exponent needs its mark and at least one digit; otherwise the numeral ends
before the mark. -/
def exponentAt (mark : Char) : List Char → Exponent
  | c :: cs =>
    let (negative, rest) := splitSign cs
    let digits := rest.takeWhile Char.isDigit
    if c.toLower = mark && !digits.isEmpty then { negative, digits } else {}
  | [] => {}

def hexadecimal? : List Char → Option Numeral
  | '0' :: x :: cs =>
    if x.toLower = 'x' then
      (splitDigits isHexDigit cs).map fun (whole, places, rest) =>
        .hexadecimal whole places (exponentAt 'p' rest)
    else none
  | _ => none

def decimal? (text : List Char) : Option Numeral :=
  (splitDigits Char.isDigit text).map fun (whole, places, rest) =>
    .decimal whole places (exponentAt 'e' rest)

def ofText? (text : List Char) : Option Numeral :=
  if startsWith ['i', 'n', 'f'] text then some .infinity
  else if startsWith ['n', 'a', 'n'] text then some .nan
  else (hexadecimal? text).orElse fun _ => decimal? text

def digitsValue (base : Nat) (digits : List Char) : Nat :=
  digits.foldl (fun n c => n * base + digitValue c) 0

/-- Exponents of hexadecimal numerals stay within 32 bits. -/
def clamp (n : Int) : Int := max (-2 ^ (31 : Nat)) (min n (2 ^ (31 : Nat) - 1))

def binaryScale (places : Nat) (exponent : Exponent) : Int :=
  let start := clamp (-4 * clamp places)
  let shift := exponent.digits.foldl (fun n c => clamp (clamp (n * 10) + digitValue c)) 0
  clamp (if exponent.negative then start - shift else start + shift)

/-- Powers of two in double precision. Those with a negative exponent are reciprocals,
so they vanish where the power itself is infinite. -/
def powTwo : Int → Binary .double
  | .ofNat n => .ofNat (2 ^ min n 1024)
  | .negSucc n => (Binary.ofNat 1).div (.ofNat (2 ^ min (n + 1) 1024))

def mantissa (digits : List Char) : Binary .double :=
  digits.foldl (fun m c => (m.mul (.ofNat 16)).add (.ofNat (digitValue c))) (.zero false)

def decimalExponent (places : Nat) (exponent : Exponent) : Int :=
  let n : Int := digitsValue 10 exponent.digits
  (if exponent.negative then -n else n) - places

def value : Numeral → Lane
  | .infinity => .infinite false
  | .nan => .nan false
  | .hexadecimal whole places exponent =>
    ((mantissa (whole ++ places)).mul (powTwo (binaryScale places.length exponent))).convert .single
  | .decimal whole places exponent =>
    .ofDecimal (digitsValue 10 (whole ++ places)) (decimalExponent places.length exponent)

end Numeral

def readNumber (text : List Char) : Lane :=
  let (negative, body) := splitSign text
  let magnitude := ((Numeral.ofText? body).map Numeral.value).getD (.zero false)
  if negative then magnitude.neg else magnitude

end FourLane
