import CommandGrammar.Text.Bytes

/-!
# Readers

A reader is a text with a cursor between two of its characters. The text before the cursor is kept
nearest character first, so that moving on takes a character from one side to the other. Places are
given as byte offsets. Moving to, or looking at, a place that is not between two characters of the
text is a misuse by the caller and not a failure of the input.
-/

namespace CommandGrammar

/-- What a caller may not ask for. -/
inductive Misuse where
  | cursorOutOfRange (position length : Nat)
  | peekOutOfRange (position length : Nat)
  | notExecutable (name : String)
deriving DecidableEq, Repr

namespace Misuse

def message : Misuse → String
  | cursorOutOfRange position length => s!"cursor out of range: {position} (length {length})"
  | peekOutOfRange position length => s!"peek out of range: {position} (length {length})"
  | notExecutable name => "command node `" ++ name ++ "` is not executable"

end Misuse

structure Reader where
  /-- The characters before the cursor, the nearest one first. -/
  before : List Char
  /-- The characters behind the cursor. -/
  after : List Char
deriving DecidableEq, Repr, Inhabited

namespace Reader

def isSpace (c : Char) : Bool := c == ' ' || c == '\t' || c == '\n' || c == '\r'

/-- The characters of a word: ASCII letters and digits, `_`, `-`, `.` and `+`. -/
def isWordChar (c : Char) : Bool := c.isAlphanum || c == '_' || c == '-' || c == '.' || c == '+'

/-- A reader at the start of a text. -/
def ofChars (text : List Char) : Reader := ⟨[], text⟩

def ofString (text : String) : Reader := ofChars text.toList

/-- The text before the cursor, in reading order. -/
def consumed (r : Reader) : List Char := r.before.reverse

def remaining (r : Reader) : List Char := r.after

def text (r : Reader) : List Char := r.consumed ++ r.remaining

/-- The byte offset of the cursor. -/
def cursor (r : Reader) : Nat := Text.byteLength r.before

def length (r : Reader) : Nat := r.cursor + Text.byteLength r.after

def remainingLength (r : Reader) : Nat := Text.byteLength r.after

/-- Whether `count` more bytes are left. -/
def canRead (r : Reader) (count : Nat) : Bool := r.cursor + count ≤ r.length

def advance (r : Reader) (count : Nat) : Reader :=
  ⟨(r.after.take count).reverse ++ r.before, r.after.drop count⟩

def moveTo (r : Reader) (position : Nat) : Except Misuse Reader :=
  match Text.splitAtByte? position r.text with
  | some (before, after) => .ok ⟨before.reverse, after⟩
  | none => .error (.cursorOutOfRange position r.length)

/-- The character that starts `offset` bytes behind the cursor. -/
def peekAt (r : Reader) (offset : Nat) : Except Misuse Char :=
  match Text.splitAtByte? offset r.after with
  | some (_, c :: _) => .ok c
  | _ => .error (.peekOutOfRange (r.cursor + offset) r.length)

def peek (r : Reader) : Except Misuse Char := r.peekAt 0

/-- The next character and the reader behind it. -/
def next (r : Reader) : Except Misuse (Char × Reader) :=
  r.peek.map fun c => (c, r.advance 1)

def skipSpaces (r : Reader) : Reader := r.advance (r.after.takeWhile isSpace).length

/-- The longest word at the cursor, which may be empty, and the reader behind it. -/
def word (r : Reader) : List Char × Reader :=
  let w := r.after.takeWhile isWordChar
  (w, r.advance w.length)

/-! ## The two sides of the cursor -/

@[simp] theorem consumed_ofChars (text : List Char) : (ofChars text).consumed = [] := rfl

@[simp] theorem text_ofChars (text : List Char) : (ofChars text).text = text := rfl

@[simp] theorem cursor_ofChars (text : List Char) : (ofChars text).cursor = 0 := rfl

theorem byteLength_consumed (r : Reader) : Text.byteLength r.consumed = r.cursor := by
  simp [consumed, cursor]

theorem length_eq (r : Reader) : r.length = Text.byteLength r.text := by
  simp [length, text, byteLength_consumed, remaining]

@[simp] theorem text_advance (r : Reader) (count : Nat) : (r.advance count).text = r.text := by
  simp [advance, text, consumed, remaining]

theorem consumed_advance (r : Reader) (count : Nat) :
    (r.advance count).consumed = r.consumed ++ r.after.take count := by
  simp [advance, consumed]

theorem cursor_advance (r : Reader) (count : Nat) :
    (r.advance count).cursor = r.cursor + Text.byteLength (r.after.take count) := by
  simp [advance, cursor, Nat.add_comm]

@[simp] theorem advance_zero (r : Reader) : r.advance 0 = r := by
  simp [advance]

/-- Two readers of one text are equal if their cursors are. -/
theorem eq_of_text_of_cursor {r s : Reader} (htext : r.text = s.text) (hcursor : r.cursor = s.cursor) :
    r = s := by
  have hr := Text.splitAtByte?_byteLength r.consumed r.after
  have hs := Text.splitAtByte?_byteLength s.consumed s.after
  simp only [text, remaining] at htext
  rw [byteLength_consumed, htext, hcursor, ← byteLength_consumed s, hs] at hr
  obtain ⟨hc, ha⟩ := Prod.mk.inj (Option.some.inj hr)
  cases r
  cases s
  simp_all [consumed]

/-- The cursor goes to exactly the offsets that lie between two characters of the text. -/
theorem moveTo_eq_ok_iff {r s : Reader} {position : Nat} :
    r.moveTo position = .ok s ↔ s.text = r.text ∧ s.cursor = position := by
  unfold moveTo
  constructor
  · intro h
    split at h
    · rename_i before after hsplit
      obtain ⟨htext, hlen⟩ := Text.splitAtByte?_eq_some_iff.mp hsplit
      cases h
      exact ⟨by simp [text, consumed, remaining, ← htext], by simp [cursor, hlen]⟩
    · cases h
  · rintro ⟨htext, rfl⟩
    rw [← htext, text, ← byteLength_consumed, Text.splitAtByte?_byteLength]
    simp [consumed, remaining]

end Reader

end CommandGrammar
