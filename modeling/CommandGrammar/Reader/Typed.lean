import CommandGrammar.Number.Layout
import CommandGrammar.Number.Signed
import CommandGrammar.SyntaxError

/-!
# Typed reads

A read yields a value or an error, and the reader after it. Numbers and truth values are read whole
or not at all: on failure the reader is the one before the read. A number starts with an optional
minus sign and a digit; the longest text of the right form is then its numeral.
-/

namespace CommandGrammar

/-- A value or an error, and the reader afterwards. -/
abbrev ReadResult (α : Type) := Except SyntaxError α × Reader

namespace Numeral

def minus : List Char → List Char
  | '-' :: _ => ['-']
  | _ => []

def digits (text : List Char) : List Char := text.takeWhile Char.isDigit

/-- A point that comes first and the digits behind it. -/
def fraction : List Char → List Char
  | '.' :: text => '.' :: digits text
  | _ => []

def sign : List Char → List Char
  | '+' :: _ => ['+']
  | '-' :: _ => ['-']
  | _ => []

/-- The letter of a power of ten that comes first, its sign and its digits. -/
def power : List Char → List Char
  | c :: text =>
    if c == 'e' || c == 'E' then c :: sign text ++ digits (text.drop (sign text).length) else []
  | [] => []

/-- Digits, fraction and power of ten, as far as they are there. -/
def decimal (text : List Char) : List Char :=
  let whole := digits text
  let part := fraction (text.drop whole.length)
  whole ++ part ++ power (text.drop (whole.length + part.length))

/-- The numeral at the start of a text, if an optional minus sign and a digit are there. -/
def ofText? (body : List Char → List Char) (text : List Char) : Option (List Char) :=
  let sign := minus text
  let rest := text.drop sign.length
  match rest with
  | c :: _ => if c.isDigit then some (sign ++ body rest) else none
  | [] => none

end Numeral

/-- A type of numbers with its numerals and bounds. -/
class Numeric (α : Type) extends ToString α where
  kind : NumberKind
  /-- The longest numeral without sign at the start of a text. -/
  body : List Char → List Char
  ofNumeral? : List Char → Option α
  /-- The bounds of an argument that has none of its own. -/
  lowest : α
  highest : α
  lt : α → α → Bool

namespace Reader

def number (α : Type) [Numeric α] (r : Reader) : ReadResult α :=
  match Numeral.ofText? (Numeric.body α) r.after with
  | none => (.error ⟨.expectedNumber (Numeric.kind α), r⟩, r)
  | some numeral =>
    match Numeric.ofNumeral? numeral with
    | some value => (.ok value, r.advance numeral.length)
    | none => (.error ⟨.invalidNumber (Numeric.kind α), r⟩, r)

/-- Reads one of the words `true` and `false`. -/
def bool (r : Reader) : ReadResult Bool :=
  let (w, s) := r.word
  if w = ['t', 'r', 'u', 'e'] then (.ok true, s)
  else if w = ['f', 'a', 'l', 's', 'e'] then (.ok false, s)
  else (.error ⟨.expectedBool, r⟩, r)

end Reader

instance : Numeric (Signed 32) where
  kind := .int
  body := Numeral.digits
  ofNumeral? := Signed.ofNumeral? 32
  lowest := Signed.lowest 32
  highest := Signed.highest 32
  lt m n := decide (m.val < n.val)

instance : Numeric (Signed 64) where
  kind := .long
  body := Numeral.digits
  ofNumeral? := Signed.ofNumeral? 64
  lowest := Signed.lowest 64
  highest := Signed.highest 64
  lt m n := decide (m.val < n.val)

instance : Numeric (Binary .single) where
  kind := .float
  body := Numeral.decimal
  ofNumeral? := Binary.ofNumeral? .single
  lowest := Binary.lowest .single
  highest := Binary.highest .single
  lt := Binary.lt

instance : Numeric (Binary .double) where
  kind := .double
  body := Numeral.decimal
  ofNumeral? := Binary.ofNumeral? .double
  lowest := Binary.lowest .double
  highest := Binary.highest .double
  lt := Binary.lt

end CommandGrammar
