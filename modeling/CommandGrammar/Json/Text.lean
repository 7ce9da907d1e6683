import CommandGrammar.Data.Basic

/-!
# JSON text

Data as JSON, on one line or with an indentation of two spaces. In strings only quotes, backslashes
and control characters below the space are escaped.
-/

namespace CommandGrammar.Json

/-- Powers of ten stand for numbers below `10 ^ -6` and from `10 ^ 13` on. -/
def singleLayout : Layout where
  tie := .even
  positional := some (-5, 13)
  wholeMark := ".0".toList
  powerMark := "e+".toList
  negativePowerMark := "e-".toList
  infinity := "null".toList
  negativeInfinity := "null".toList
  nan := "null".toList

/-- Powers of ten stand for numbers below `10 ^ -5` and from `10 ^ 16` on. -/
def doubleLayout : Layout := { singleLayout with positional := some (-4, 16) }

def hexDigit (n : Nat) : Char := if n < 10 then Char.ofNat (48 + n) else Char.ofNat (87 + n)

def escapeChar (c : Char) : List Char :=
  if c = '"' then ['\\', '"']
  else if c = '\\' then ['\\', '\\']
  else if 32 ≤ c.toNat then [c]
  else if c = '\x08' then ['\\', 'b']
  else if c = '\t' then ['\\', 't']
  else if c = '\n' then ['\\', 'n']
  else if c = '\x0c' then ['\\', 'f']
  else if c = '\r' then ['\\', 'r']
  else ['\\', 'u', '0', '0', hexDigit (c.toNat / 16), hexDigit (c.toNat % 16)]

def quote (text : String) : List Char := '"' :: text.toList.flatMap escapeChar ++ ['"']

end Json

namespace Data

open Json

mutual

def compact : Data → List Char
  | bool value => if value then ['t', 'r', 'u', 'e'] else ['f', 'a', 'l', 's', 'e']
  | integer value => Digits.ofInt value
  | single value => singleLayout.render value
  | double value => doubleLayout.render value
  | text value => quote value
  | list [] => ['[', ']']
  | list (item :: items) => '[' :: item.compact ++ compactItems items
  | record [] => ['\x7b', '\x7d']
  | record ((name, value) :: fields) =>
    '\x7b' :: quote name ++ ':' :: value.compact ++ compactFields fields

def compactItems : List Data → List Char
  | [] => [']']
  | item :: items => ',' :: item.compact ++ compactItems items

def compactFields : List (String × Data) → List Char
  | [] => ['\x7d']
  | (name, value) :: fields => ',' :: quote name ++ ':' :: value.compact ++ compactFields fields

end

def newLine (depth : Nat) : List Char := '\n' :: List.replicate (2 * depth) ' '

mutual

/-- One line to an item or field, indented below `depth` brackets. -/
def prettyAt (depth : Nat) : Data → List Char
  | bool value => compact (bool value)
  | integer value => compact (integer value)
  | single value => compact (single value)
  | double value => compact (double value)
  | text value => compact (text value)
  | list [] => ['[', ']']
  | list (item :: items) =>
    '[' :: newLine (depth + 1) ++ item.prettyAt (depth + 1) ++ prettyItems depth items
  | record [] => ['\x7b', '\x7d']
  | record ((name, value) :: fields) =>
    '\x7b' :: newLine (depth + 1) ++ quote name ++ ':' :: ' ' :: value.prettyAt (depth + 1)
      ++ prettyFields depth fields

def prettyItems (depth : Nat) : List Data → List Char
  | [] => newLine depth ++ [']']
  | item :: items =>
    ',' :: newLine (depth + 1) ++ item.prettyAt (depth + 1) ++ prettyItems depth items

def prettyFields (depth : Nat) : List (String × Data) → List Char
  | [] => newLine depth ++ ['\x7d']
  | (name, value) :: fields =>
    ',' :: newLine (depth + 1) ++ quote name ++ ':' :: ' ' :: value.prettyAt (depth + 1)
      ++ prettyFields depth fields

end

def pretty (data : Data) : List Char := data.prettyAt 0

end Data

end CommandGrammar
