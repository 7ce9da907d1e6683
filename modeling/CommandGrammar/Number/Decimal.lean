import CommandGrammar.Number.Digits

/-!
# Decimal numerals

Digits around an optional point, then an optional power of ten. At least one digit stands beside the
point, and at least one digit follows the letter of the power.
-/

namespace CommandGrammar

/-- The number `significand * 10 ^ exponent` and a sign. -/
structure Decimal where
  negative : Bool
  significand : Nat
  exponent : Int
deriving DecidableEq, Repr

namespace Decimal

/-- Whether a minus sign comes first, and the text behind an optional sign. -/
def splitSign : List Char → Bool × List Char
  | '-' :: text => (true, text)
  | '+' :: text => (false, text)
  | text => (false, text)

/-- The power of ten at the end of a numeral; without one it is zero. -/
def power? : List Char → Option Int
  | [] => some 0
  | c :: text =>
    let (negative, digits) := splitSign text
    if (c == 'e' || c == 'E') && !digits.isEmpty && digits.all Char.isDigit then
      some (if negative then -(Digits.value digits : Int) else Digits.value digits)
    else none

/-- The digits behind a point that comes first, and the text behind them. -/
def splitFraction : List Char → List Char × List Char
  | '.' :: text => (text.takeWhile Char.isDigit, text.dropWhile Char.isDigit)
  | text => ([], text)

def ofChars? (text : List Char) : Option Decimal :=
  let (negative, body) := splitSign text
  let whole := body.takeWhile Char.isDigit
  let (fraction, rest) := splitFraction (body.dropWhile Char.isDigit)
  if (whole ++ fraction).isEmpty then none
  else (power? rest).map fun power =>
    ⟨negative, Digits.value (whole ++ fraction), power - fraction.length⟩

end Decimal

end CommandGrammar
