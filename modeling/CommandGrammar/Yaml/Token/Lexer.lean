import CommandGrammar.Number.Digits
import CommandGrammar.Yaml.Scalar.Block
import CommandGrammar.Yaml.Scalar.Flow
import CommandGrammar.Yaml.Tag

/-!
# From text to tokens

Outside of brackets the columns at which blocks start are kept; a token further left closes blocks.
A token that may start a key is remembered, and a colon on the same line, at most 1024 characters
later, makes it one: the mark of the key, and that of a new mapping, go before it.
-/

namespace CommandGrammar.Yaml

/-- A place where a key may have started. -/
structure Candidate where
  /-- In a mapping every line that starts at its column has to start with a key. -/
  required : Bool
  /-- The number of tokens before it. -/
  index : Nat
  line : Nat
  column : Nat

/-- What has been read, and what is known about the text to come. -/
structure Lexer where
  rest : List Glyph
  tokens : Array Token
  /-- The columns of the blocks around, the innermost one first. -/
  columns : List Nat
  candidate : Option Candidate
  /-- The candidates outside of the brackets around. -/
  outer : List (Option Candidate)
  /-- Whether a key may start here. -/
  keyAllowed : Bool

/-- Passes blanks, comments and line ends before a token; tells whether a key may start there. A
line may start with a byte order mark, and tabs stand only where no key may start. -/
def skipGap (flow : Bool) (comment keyAllowed : Bool) : List Glyph → Bool × List Glyph
  | [] => (keyAllowed, [])
  | g :: rest =>
    if isBreak g.char then skipGap flow false (keyAllowed || !flow) rest
    else if comment || g.char == ' ' || (g.char == '\t' && (flow || !keyAllowed))
        || (g.char == '\uFEFF' && g.column == 0) then
      skipGap flow comment keyAllowed rest
    else if g.char == '#' then skipGap flow true keyAllowed rest
    else (keyAllowed, g :: rest)

namespace Candidate

def reach : Nat := 1024

/-- A candidate too far away is given up. -/
def expire (g : Glyph) : Option Candidate → Option (Option Candidate)
  | none => some none
  | some c =>
    if c.line < g.line ∨ c.column + reach < g.column then if c.required then none else some none
    else some (some c)

end Candidate

namespace Lexer

def start (gs : List Glyph) : Lexer := ⟨gs, #[], [], none, [], true⟩

def inFlow (s : Lexer) : Bool := !s.outer.isEmpty

def push (s : Lexer) (t : Token) : Lexer := { s with tokens := s.tokens.push t }

/-- The column that text of the innermost block cannot start before. -/
def base (s : Lexer) : Nat :=
  match s.columns with
  | [] => 0
  | column :: _ => column + 1

def close (s : Lexer) (closes : Nat → Bool) : Lexer :=
  if s.inFlow then s
  else { s with
    tokens := s.tokens ++ ((s.columns.takeWhile closes).map fun _ => Token.blockEnd).toArray
    columns := s.columns.dropWhile closes }

/-- Opens a block at a column right of the block around. -/
def opens (s : Lexer) (column index : Nat) (t : Token) : Lexer :=
  if s.inFlow ∨ column < s.base then s
  else { s with
    tokens := s.tokens.insertIdxIfInBounds index t
    columns := column :: s.columns }

def dropCandidate (s : Lexer) : Option Lexer :=
  match s.candidate with
  | none => some s
  | some c => if c.required then none else some { s with candidate := none }

def saveCandidate (s : Lexer) (g : Glyph) : Option Lexer :=
  if s.keyAllowed then
    let required := !s.inFlow && s.columns.head? == some g.column
    s.dropCandidate.map fun s =>
      { s with candidate := some ⟨required, s.tokens.size, g.line, g.column⟩ }
  else some s

def pushNode (s : Lexer) (g : Glyph) (t : Token) (rest : List Glyph) : Option Lexer :=
  (s.saveCandidate g).map fun s => { s.push t with rest, keyAllowed := false }

/-- A mark behind which no key can have started. -/
def pushMark (s : Lexer) (t : Token) (keyAllowed : Bool) (rest : List Glyph) : Option Lexer :=
  s.dropCandidate.map fun s => { s.push t with rest, keyAllowed }

/-- A mark that starts a line of its own. -/
def pushLine (s : Lexer) (t : Token) (rest : List Glyph) : Option Lexer :=
  (s.close fun _ => true).pushMark t false rest

def openFlow (s : Lexer) (g : Glyph) (t : Token) (rest : List Glyph) : Option Lexer :=
  (s.saveCandidate g).map fun s =>
    { s.push t with rest, keyAllowed := true, candidate := none, outer := s.candidate :: s.outer }

def closeFlow (s : Lexer) (t : Token) (rest : List Glyph) : Option Lexer :=
  s.dropCandidate.map fun s =>
    let s := match s.outer with
      | [] => s
      | candidate :: outer => { s with candidate, outer }
    { s.push t with rest, keyAllowed := false }

/-- A dash or question mark; outside of brackets a block of its kind starts there. -/
def blockMark (s : Lexer) (g : Glyph) (block mark : Token) (rest : List Glyph) : Option Lexer :=
  if !s.inFlow && !s.keyAllowed then none
  else (s.opens g.column s.tokens.size block).pushMark mark (!s.inFlow || mark == .entry) rest

/-- A colon, which makes the candidate a key. -/
def valueMark (s : Lexer) (g : Glyph) (rest : List Glyph) : Option Lexer :=
  match s.candidate with
  | some c =>
    let s := { s with tokens := s.tokens.insertIdxIfInBounds c.index .key, candidate := none }
    some { (s.opens c.column c.index .blockMapping).push .value with rest, keyAllowed := false }
  | none =>
    if !s.inFlow && !s.keyAllowed then none
    else
      let s := s.opens g.column s.tokens.size .blockMapping
      some { s.push .value with rest, keyAllowed := !s.inFlow }

/-! ## Directives -/

/-- A number of at most nine digits. -/
def directiveNumber? (gs : List Glyph) : Option (Nat × List Glyph) :=
  let (digits, rest) := spanChars Char.isDigit gs
  if digits.isEmpty ∨ 9 < digits.length then none else some (Digits.value digits, rest)

def directive? (gs : List Glyph) : Option (Token × List Glyph) := do
  let (name, rest) := spanChars isWord gs
  if !atGap rest then none
  let rest := rest.dropWhile fun g => isBlank g.char
  let (t, rest) ←
    if name = ['Y', 'A', 'M', 'L'] then do
      let (major, rest) ← directiveNumber? rest
      if !atChar '.' rest then none
      let (minor, rest) ← directiveNumber? (rest.drop 1)
      some (Token.version major minor, rest)
    else if name = ['T', 'A', 'G'] then do
      let (handle, named, rest) ← handle? rest
      if !named ∧ handle ≠ ['!'] then none
      if !(rest.head?.any fun g => isBlank g.char) then none
      let (start, rest) ← tagBytes true .no 0 (rest.dropWhile fun g => isBlank g.char)
      if start.isEmpty ∨ !atGap rest then none
      some (Token.handle handle start, rest)
    else none
  return (t, ← restOfLine? rest)

/-! ## Tokens -/

def anchorName? (gs : List Glyph) : Option (List Char × List Glyph) :=
  let (name, rest) := spanChars isWord gs
  let ends := atGap rest
    || rest.head?.any fun g => ['?', ':', ',', ']', '\x7d', '%', '@', '\x60'].contains g.char
  if name.isEmpty ∨ !ends then none else some (name, rest)

/-- Marks that a plain scalar cannot start with. -/
def isIndicator (c : Char) : Bool :=
  ['-', '?', ':', ',', '[', ']', '\x7b', '\x7d', '#', '&', '*', '!', '|', '>', '\'', '"', '%', '@',
    '\x60'].contains c

def startsPlain (flow : Bool) (g : Glyph) (rest : List Glyph) : Bool :=
  !(isBlank g.char || isIndicator g.char)
    || (g.char == '-' && !(rest.head?.any fun h => isBlank h.char))
    || (!flow && (g.char == '?' || g.char == ':') && !atGap rest)

/-- Reads the token that starts with a character. -/
def token (s : Lexer) (g : Glyph) (rest : List Glyph) : Option Lexer :=
  if g.column = 0 ∧ g.char = '%' then do
    let (t, rest) ← directive? rest
    s.pushLine t rest
  else if atMarker (g :: rest) then
    s.pushLine (if g.char = '-' then .documentStart else .documentEnd) (rest.drop 2)
  else if g.char = '[' then s.openFlow g .flowSequence rest
  else if g.char = '\x7b' then s.openFlow g .flowMapping rest
  else if g.char = ']' then s.closeFlow .flowSequenceEnd rest
  else if g.char = '\x7d' then s.closeFlow .flowMappingEnd rest
  else if g.char = ',' then s.pushMark .comma true rest
  else if g.char = '-' ∧ atGap rest then s.blockMark g .blockSequence .entry rest
  else if g.char = '?' ∧ (s.inFlow ∨ atGap rest) then s.blockMark g .blockMapping .key rest
  else if g.char = ':' ∧ (s.inFlow ∨ atGap rest) then s.valueMark g rest
  else if g.char = '*' then do
    let (name, rest) ← anchorName? rest
    s.pushNode g (.reference name) rest
  else if g.char = '&' then do
    let (name, rest) ← anchorName? rest
    s.pushNode g (.anchor name) rest
  else if g.char = '!' then do
    let (form, rest) ← tagForm? s.inFlow g rest
    s.pushNode g (.tag form) rest
  else if (g.char = '|' ∨ g.char = '>') ∧ !s.inFlow then do
    let folded := g.char == '>'
    let (text, rest) ← blockScalar folded s.base rest
    s.pushMark (.scalar (if folded then .folded else .literal) text) true rest
  else if g.char = '\'' then do
    let (text, rest) ← singleQuoted false .none rest
    s.pushNode g (.scalar .single text) rest
  else if g.char = '"' then do
    let (text, rest) ← doubleQuoted .no .none rest
    s.pushNode g (.scalar .double text) rest
  else if startsPlain s.inFlow g rest then do
    let (text, ended, rest) ← plainScalar s.inFlow s.base .none (g :: rest)
    (s.pushNode g (.scalar .plain text) rest).map fun s => { s with keyAllowed := ended }
  else none

/-- Reads one token, or closes everything at the end of the text. -/
def step (s : Lexer) : Option (Lexer ⊕ Array Token) :=
  let (keyAllowed, gs) := skipGap s.inFlow false s.keyAllowed s.rest
  match gs with
  | [] => (s.close fun _ => true).dropCandidate.map fun s => .inr s.tokens
  | g :: rest => do
    let candidate ← Candidate.expire g s.candidate
    let outer ← s.outer.mapM (Candidate.expire g)
    let s := { s with keyAllowed, candidate, outer }.close (g.column < ·)
    return .inl (← s.token g rest)

/-- All tokens; every step takes some of the text. -/
def run (s : Lexer) : Option (Array Token) :=
  match s.step with
  | none => none
  | some (.inr tokens) => some tokens
  | some (.inl next) => if _ : next.rest.length < s.rest.length then next.run else none
termination_by s.rest.length

end Lexer

def Token.ofText? (text : List Char) : Option (List Token) :=
  (Glyph.ofText? text).bind fun gs => (Lexer.start gs).run.map Array.toList

end CommandGrammar.Yaml
