/-!
# Characters and their places

YAML goes by lines and columns, so a text is read as characters that know where they stand. Every
line end is one character: a line feed, or one of the two separators of Unicode.
-/

namespace CommandGrammar.Yaml

/-- A character and its place, counted from zero. -/
structure Glyph where
  char : Char
  line : Nat
  column : Nat
deriving DecidableEq, Repr

def isBlank (c : Char) : Bool := c == ' ' || c == '\t'

def isBreak (c : Char) : Bool := c == '\n' || c == '\u2028' || c == '\u2029'

def isWord (c : Char) : Bool := c.isAlphanum || c == '_' || c == '-'

/-- Whether a text may have a character in it. -/
def isReadable (c : Char) : Bool :=
  let n := c.toNat
  n == 0x9 || n == 0xA || n == 0xD || (0x20 ≤ n && n ≤ 0x7E) || n == 0x85
    || (0xA0 ≤ n && n ≤ 0xFFFD) || 0x10000 ≤ n

/-- Line ends other than the separators become line feeds. -/
def unifyBreaks : List Char → List Char
  | '\r' :: '\n' :: text => '\n' :: unifyBreaks text
  | c :: text => (if c = '\r' ∨ c = '\x85' then '\n' else c) :: unifyBreaks text
  | [] => []

namespace Glyph

def place (line column : Nat) : List Char → List Glyph
  | [] => []
  | c :: text =>
    ⟨c, line, column⟩ :: if isBreak c then place (line + 1) 0 text else place line (column + 1) text

/-- A whole text, if all of it is readable. -/
def ofText? (text : List Char) : Option (List Glyph) :=
  if text.all isReadable then some (place 0 0 (unifyBreaks text)) else none

end Glyph

/-- Whether a blank, a line end or the end of the text comes first. -/
def atGap : List Glyph → Bool
  | [] => true
  | g :: _ => isBlank g.char || isBreak g.char

/-- Whether a line comes first that starts or ends a document. -/
def atMarker : List Glyph → Bool
  | a :: b :: c :: rest =>
    a.column == 0 && (a.char == '-' || a.char == '.') && b.char == a.char && c.char == a.char
      && atGap rest
  | _ => false

def atChar (c : Char) : List Glyph → Bool
  | [] => false
  | g :: _ => g.char == c

/-- The characters before the first one that fails a test, and what is left. -/
def spanChars (p : Char → Bool) (gs : List Glyph) : List Char × List Glyph :=
  ((gs.takeWhile fun g => p g.char).map Glyph.char, gs.dropWhile fun g => p g.char)

end CommandGrammar.Yaml
