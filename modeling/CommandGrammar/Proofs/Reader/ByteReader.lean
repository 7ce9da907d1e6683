import CommandGrammar.Argument.Kind
import CommandGrammar.Proofs.Text.Boundary

/-!
# Readers as byte offsets

A text and any number as the offset of the cursor. Here nothing keeps the offset between two
characters: every look at the text splits it at a byte offset and may miss, loops move by one
character at a time, and a failed read puts the offset back by hand. The reads of `Reader` are
carried out here step by step, in the order in which the text is looked at.
-/

namespace CommandGrammar

/-- A text and a byte offset into it. -/
structure ByteReader where
  text : List Char
  offset : Nat
deriving DecidableEq, Repr

namespace ByteReader

/-- Why a step cannot be carried out: it is a misuse, or it cuts a part out of the text whose ends
are not two boundaries in order. -/
inductive Fault where
  | misuse (misuse : Misuse)
  | slice (first last : Nat)
deriving DecidableEq, Repr

/-- A value, or the cause of a failure with the reader kept for it, and the reader afterwards. -/
abbrev Result (α : Type) := Except (SyntaxError.Cause × ByteReader) α × ByteReader

def length (b : ByteReader) : Nat := Text.byteLength b.text

def canRead (b : ByteReader) (count : Nat) : Bool := b.offset + count ≤ b.length

def moveTo (b : ByteReader) (position : Nat) : Except Fault ByteReader :=
  if (Text.splitAtByte? position b.text).isSome then .ok ⟨b.text, position⟩
  else .error (.misuse (.cursorOutOfRange position b.length))

def peekAt (b : ByteReader) (count : Nat) : Except Fault Char :=
  match Text.splitAtByte? (b.offset + count) b.text with
  | some (_, c :: _) => .ok c
  | _ => .error (.misuse (.peekOutOfRange (b.offset + count) b.length))

def next (b : ByteReader) : Except Fault (Char × ByteReader) :=
  (b.peekAt 0).map fun c => (c, ⟨b.text, b.offset + c.utf8Size⟩)

def skip (b : ByteReader) : Except Fault ByteReader := b.next.map Prod.snd

/-- The part of the text from one offset to another. -/
def slice (b : ByteReader) (first last : Nat) : Except Fault (List Char) :=
  match Text.splitAtByte? last b.text with
  | none => .error (.slice first last)
  | some (upTo, _) =>
    match Text.splitAtByte? first upTo with
    | none => .error (.slice first last)
    | some (_, part) => .ok part

def consumed (b : ByteReader) : Except Fault (List Char) := b.slice 0 b.offset

def remaining (b : ByteReader) : Except Fault (List Char) := b.slice b.offset b.length

/-- Whether a byte is left and the character that starts there passes a test. -/
def meets (p : Char → Bool) (b : ByteReader) : Except Fault Bool :=
  if b.canRead 1 then (b.peekAt 0).map p else .ok false

/-! ### Runs of characters -/

theorem text_of_skip {b s : ByteReader} (h : b.skip = .ok s) : s.text = b.text := by
  unfold skip next at h
  cases hpeek : b.peekAt 0 with
  | error fault => simp [hpeek, Except.map] at h
  | ok c =>
      rw [hpeek] at h
      cases h
      rfl

theorem offset_lt_of_skip {b s : ByteReader} (h : b.skip = .ok s) : b.offset < s.offset := by
  unfold skip next at h
  cases hpeek : b.peekAt 0 with
  | error fault => simp [hpeek, Except.map] at h
  | ok c =>
      rw [hpeek] at h
      cases h
      exact Nat.lt_add_of_pos_right c.utf8Size_pos

/-- Skips characters as long as one is left that passes the test. -/
def skipWhile (p : Char → Bool) (b : ByteReader) : Except Fault ByteReader :=
  if _hleft : b.canRead 1 then
    match b.peekAt 0 with
    | .error fault => .error fault
    | .ok c =>
      if p c then
        match _hskip : b.skip with
        | .error fault => .error fault
        | .ok s => skipWhile p s
      else .ok b
  else .ok b
termination_by b.length - b.offset
decreasing_by
  have hleft : b.offset + 1 ≤ b.length := of_decide_eq_true _hleft
  have hoffset := offset_lt_of_skip _hskip
  have hlength : s.length = b.length := by rw [length, length, text_of_skip _hskip]
  omega

/-- Skips one character if it passes the test. -/
def skipIf (p : Char → Bool) (b : ByteReader) : Except Fault ByteReader := do
  if ← b.meets p then b.skip else return b

def skipSpaces (b : ByteReader) : Except Fault ByteReader := b.skipWhile Reader.isSpace

def word (b : ByteReader) : Except Fault (List Char × ByteReader) := do
  let s ← b.skipWhile Reader.isWordChar
  let w ← s.slice b.offset s.offset
  return (w, s)

/-! ### Numbers -/

def skipDigits (b : ByteReader) : Except Fault ByteReader := b.skipWhile Char.isDigit

def skipFraction (b : ByteReader) : Except Fault ByteReader := do
  if ← b.meets (· == '.') then
    let s ← b.skip
    s.skipDigits
  else return b

def skipPower (b : ByteReader) : Except Fault ByteReader := do
  if ← b.meets fun c => c == 'e' || c == 'E' then
    let s ← b.skip
    let s ← s.skipIf fun c => c == '+' || c == '-'
    s.skipDigits
  else return b

/-- Skips the numeral behind the sign. -/
def skipBody (kind : NumberKind) (b : ByteReader) : Except Fault ByteReader :=
  match kind with
  | .int | .long => b.skipDigits
  | .float | .double => do
    let s ← b.skipDigits
    let s ← s.skipFraction
    s.skipPower

def number (α : Type) [Numeric α] (b : ByteReader) : Except Fault (Result α) := do
  let start := b.offset
  let s ← b.skipIf (· == '-')
  if ← s.meets Char.isDigit then
    let s ← s.skipBody (Numeric.kind α)
    let numeral ← s.slice start s.offset
    match Numeric.ofNumeral? numeral with
    | some value => return (.ok value, s)
    | none =>
      let s : ByteReader := ⟨s.text, start⟩
      return (.error (.invalidNumber (Numeric.kind α), s), s)
  else
    let s : ByteReader := ⟨s.text, start⟩
    return (.error (.expectedNumber (Numeric.kind α), s), s)

/-! ### Words and numbers within bounds -/

def bool (b : ByteReader) : Except Fault (Result Bool) := do
  let start := b.offset
  let (w, s) ← b.word
  if w = ['t', 'r', 'u', 'e'] then return (.ok true, s)
  else if w = ['f', 'a', 'l', 's', 'e'] then return (.ok false, s)
  else
    let s : ByteReader := ⟨s.text, start⟩
    return (.error (.expectedBool, s), s)

def nonEmptyWord (b : ByteReader) : Except Fault (Result String) := do
  let (w, s) ← b.word
  if w = [] then return (.error (.expectedWord, s), s) else return (.ok (String.ofList w), s)

def within {α : Type} [Numeric α] (range : Range α) (b : ByteReader) : Except Fault (Result α) := do
  let start := b.offset
  let (result, s) ← b.number α
  match result with
  | .error e => return (.error e, s)
  | .ok value =>
    match range.violation? value with
    | none => return (.ok value, s)
    | some cause =>
      let s ← s.moveTo start
      return (.error (cause, s), s)

/-- Applies a function to the value of a read. -/
def Result.map {α β : Type} (f : α → β) (result : Result α) : Result β := (result.1.map f, result.2)

def argument (type : ArgumentType) (b : ByteReader) : Except Fault (Result ArgumentValue) :=
  match type with
  | .integer bounds => (b.within bounds.toRange).map (Result.map .integer)
  | .long bounds => (b.within bounds.toRange).map (Result.map .long)
  | .float bounds => (b.within bounds.toRange).map (Result.map .float)
  | .double bounds => (b.within bounds.toRange).map (Result.map .double)
  | .bool => b.bool.map (Result.map .bool)
  | .word => b.nonEmptyWord.map (Result.map .word)

end ByteReader

end CommandGrammar
