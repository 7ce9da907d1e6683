import CommandGrammar.Data.Content
import CommandGrammar.Yaml.Scalar.Flow

/-!
# The meaning of plain scalars

Scalars without quotes are null, truth values, integers in base ten, sixteen, eight or two, or finite
decimals and the values beyond them; all else is text. Digits behind a leading zero are no number.
-/

namespace CommandGrammar.Yaml

inductive Meaning where
  | null
  | bool (value : Bool)
  | number (value : Numeral)
  | text
deriving DecidableEq, Repr

def isNull (text : List Char) : Bool :=
  ["null".toList, "Null".toList, "NULL".toList, "~".toList].contains text

def bool? (text : List Char) : Option Bool :=
  if ["true".toList, "True".toList, "TRUE".toList].contains text then some true
  else if ["false".toList, "False".toList, "FALSE".toList].contains text then some false
  else none

def digits? (base : Nat) (text : List Char) : Option Nat :=
  if text.isEmpty then none
  else text.foldlM (fun n c => (digitOf? base c).map (base * n + ·)) 0

/-- Whether a text is a sign and digits behind a zero. -/
def isPadded (text : List Char) : Bool :=
  match (Decimal.splitSign text).2 with
  | '0' :: d :: digits => (d :: digits).all Char.isDigit
  | _ => false

/-- The number of digits that may have their base in front. -/
def magnitude? : List Char → Option Nat
  | '0' :: 'x' :: digits => digits? 16 digits
  | '0' :: 'o' :: digits => digits? 8 digits
  | '0' :: 'b' :: digits => digits? 2 digits
  | digits => if isPadded digits then none else digits? 10 digits

/-- The integer that a text spells, if it fits in 128 bits. -/
def integer? (text : List Char) : Option Numeral :=
  let (negative, body) := Decimal.splitSign text
  (magnitude? body).bind fun n =>
    if negative then if n ≤ twoTo 127 then some (.negative n) else none
    else if n < twoTo 128 then some (.natural n) else none

/-- The text without a plus sign, if no second sign follows that. -/
def dropPlus? : List Char → Option (List Char)
  | '+' :: '+' :: _ => none
  | '+' :: '-' :: _ => none
  | '+' :: text => some text
  | text => some text

/-- The number in double precision that a text spells. -/
def float? (text : List Char) : Option (Binary .double) :=
  (dropPlus? text).bind fun body =>
    if [".inf".toList, ".Inf".toList, ".INF".toList].contains body then
      some (Binary.infinity .double false)
    else if ["-.inf".toList, "-.Inf".toList, "-.INF".toList].contains text then
      some (Binary.infinity .double true)
    else if [".nan".toList, ".NaN".toList, ".NAN".toList].contains text then
      some (Binary.nan .double)
    else (Binary.ofNumeral? .double body).filter Binary.isFinite

def meaning (text : List Char) : Meaning :=
  if text.isEmpty ∨ isNull text then .null
  else match bool? text, integer? text with
    | some value, _ => .bool value
    | none, some n => .number n
    | none, none =>
      match if isPadded text then none else float? text with
      | some x => .number (.float x)
      | none => .text

end CommandGrammar.Yaml
