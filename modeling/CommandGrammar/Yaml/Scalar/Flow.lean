import CommandGrammar.Yaml.Glyph

/-!
# Scalars in running text

Plain and quoted scalars may go on over several lines. A line end in between is folded: alone it is
read as a space, and of several the first is dropped.
-/

namespace CommandGrammar.Yaml

/-- What has been passed since the last character of a scalar. Characters are in reverse. -/
inductive Gap where
  /-- Blanks on one line. -/
  | blanks (passed : List Char)
  /-- A line end and further ones; blanks around them do not count. -/
  | breaks (first : Char) (more : List Char)
  /-- Further line ends behind one that does not count. -/
  | joined (more : List Char)

namespace Gap

def none : Gap := blanks []

def isNone : Gap → Bool
  | blanks [] => true
  | _ => false

def hasBreak : Gap → Bool
  | blanks _ => false
  | _ => true

def addBlank (c : Char) : Gap → Gap
  | blanks passed => blanks (c :: passed)
  | gap => gap

def addBreak (c : Char) : Gap → Gap
  | blanks _ => breaks c []
  | breaks first more => breaks first (c :: more)
  | joined more => joined (c :: more)

/-- What a gap inside a scalar is read as. -/
def text : Gap → List Char
  | blanks passed => passed.reverse
  | breaks '\n' [] => [' ']
  | breaks '\n' more => more.reverse
  | breaks first more => first :: more.reverse
  | joined more => more.reverse

end Gap

/-- Characters between brackets that end a plain scalar there. -/
def isFlowMark (c : Char) : Bool := c == ',' || c == '[' || c == ']' || c == '\x7b' || c == '\x7d'

/-- A plain scalar, whether a line has ended behind it, and what is left. Outside of brackets its
lines start at column `indent` or further right. -/
def plainScalar (flow : Bool) (indent : Nat) (gap : Gap) :
    List Glyph → Option (List Char × Bool × List Glyph)
  | [] => some ([], gap.hasBreak, [])
  | g :: rest =>
    if isBlank g.char then
      if gap.hasBreak ∧ g.column < indent ∧ g.char = '\t' then none
      else plainScalar flow indent (gap.addBlank g.char) rest
    else if isBreak g.char then plainScalar flow indent (gap.addBreak g.char) rest
    else if !gap.isNone && ((!flow && decide (g.column < indent)) || atMarker (g :: rest) || g.char == '#')
    then some ([], gap.hasBreak, g :: rest)
    else if flow && g.char == ':' && rest.head?.any (fun h => isFlowMark h.char || h.char == '?') then
      none
    else if (g.char == ':' && atGap rest) || (flow && isFlowMark g.char) then
      some ([], gap.hasBreak, g :: rest)
    else do
      let (text, ended, rest) ← plainScalar flow indent .none rest
      return (gap.text ++ g.char :: text, ended, rest)

/-- A scalar in single quotes, from behind the first quote. After `quote` one quote has been seen
that either is doubled or ends the scalar. -/
def singleQuoted (quote : Bool) (gap : Gap) : List Glyph → Option (List Char × List Glyph)
  | [] => if quote then some ([], []) else none
  | g :: rest =>
    if quote && g.char != '\'' then some ([], g :: rest)
    else if quote then do
      let (text, rest) ← singleQuoted false .none rest
      return ('\'' :: text, rest)
    else if atMarker (g :: rest) then none
    else if isBlank g.char then singleQuoted false (gap.addBlank g.char) rest
    else if isBreak g.char then singleQuoted false (gap.addBreak g.char) rest
    else if g.char = '\'' then do
      let (text, rest) ← singleQuoted true .none rest
      return (gap.text ++ text, rest)
    else do
      let (text, rest) ← singleQuoted false .none rest
      return (gap.text ++ g.char :: text, rest)

def escapes : List (Char × Char) :=
  [('0', '\x00'), ('a', '\x07'), ('b', '\x08'), ('t', '\t'), ('\t', '\t'), ('n', '\n'),
    ('v', '\x0b'), ('f', '\x0c'), ('r', '\r'), ('e', '\x1b'), (' ', ' '), ('"', '"'), ('/', '/'),
    ('\\', '\\'), ('N', '\x85'), ('_', '\xa0'), ('L', '\u2028'), ('P', '\u2029')]

/-- Escapes by number, with the count of hexadecimal digits. -/
def numericEscapes : List (Char × Nat) := [('x', 2), ('u', 4), ('U', 8)]

/-- The value of a digit in bases up to sixteen. -/
def digitOf? (base : Nat) (c : Char) : Option Nat :=
  let n :=
    if c.isDigit then c.toNat - 48
    else if 'a' ≤ c && c ≤ 'z' then c.toNat - 87
    else if 'A' ≤ c && c ≤ 'Z' then c.toNat - 55
    else base
  if n < base then some n else none

def charOf? (n : Nat) : Option Char := if n.isValidChar then some (Char.ofNat n) else none

inductive Escape where
  | no
  /-- Behind a backslash. -/
  | opened
  /-- In a number of which some digits are missing. -/
  | number (missing value : Nat)

/-- A scalar in double quotes, from behind the first quote. -/
def doubleQuoted (escape : Escape) (gap : Gap) : List Glyph → Option (List Char × List Glyph)
  | [] => none
  | g :: rest =>
    match escape with
    | .opened =>
      if isBreak g.char then doubleQuoted .no (.joined []) rest
      else match escapes.lookup g.char, numericEscapes.lookup g.char with
        | some c, _ => do
          let (text, rest) ← doubleQuoted .no .none rest
          return (c :: text, rest)
        | none, some digits => doubleQuoted (.number digits 0) .none rest
        | none, none => none
    | .number missing value =>
      match digitOf? 16 g.char with
      | none => none
      | some d =>
        let value := 16 * value + d
        if missing ≤ 1 then do
          let c ← charOf? value
          let (text, rest) ← doubleQuoted .no .none rest
          return (c :: text, rest)
        else doubleQuoted (.number (missing - 1) value) .none rest
    | .no =>
      if atMarker (g :: rest) then none
      else if isBlank g.char then doubleQuoted .no (gap.addBlank g.char) rest
      else if isBreak g.char then doubleQuoted .no (gap.addBreak g.char) rest
      else if g.char = '"' then some (gap.text, rest)
      else if g.char = '\\' then do
        let (text, rest) ← doubleQuoted .opened .none rest
        return (gap.text ++ text, rest)
      else do
        let (text, rest) ← doubleQuoted .no .none rest
        return (gap.text ++ g.char :: text, rest)

end CommandGrammar.Yaml
