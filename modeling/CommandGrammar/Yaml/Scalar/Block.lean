import CommandGrammar.Yaml.Glyph

/-!
# Scalars in blocks

A block scalar consists of whole lines that are indented further than what is around it. A literal
one keeps its line ends, a folded one joins lines of text. What happens to line ends behind the last
text is said in front.
-/

namespace CommandGrammar.Yaml

/-- What remains of the line ends behind the last text. -/
inductive Chomping where
  | strip
  /-- The first one. -/
  | clip
  | keep
deriving DecidableEq, Repr

namespace Chomping

def ofMark? : Char → Option Chomping
  | '-' => some strip
  | '+' => some keep
  | _ => none

def apply (first more : List Char) : Chomping → List Char
  | strip => []
  | clip => first
  | keep => first ++ more

end Chomping

def indentMark? (c : Char) : Option Nat :=
  if c.isDigit && c != '0' then some (c.toNat - 48) else none

/-- The marks behind the first one, in either order: chomping and indentation. -/
def blockMarks : List Glyph → Chomping × Option Nat × List Glyph
  | [] => (.clip, none, [])
  | g :: rest =>
    match Chomping.ofMark? g.char, indentMark? g.char with
    | some chomping, _ =>
      match rest with
      | h :: rest' => match indentMark? h.char with
        | some n => (chomping, some n, rest')
        | none => (chomping, none, rest)
      | [] => (chomping, none, [])
    | none, some n =>
      match rest with
      | h :: rest' => match Chomping.ofMark? h.char with
        | some chomping => (chomping, some n, rest')
        | none => (.clip, some n, rest)
      | [] => (.clip, some n, [])
    | none, none => (.clip, none, g :: rest)

/-- The rest of a line that has nothing more on it than a comment. -/
def restOfLine? (gs : List Glyph) : Option (List Glyph) :=
  let gs := gs.dropWhile fun g => isBlank g.char
  let gs := if atChar '#' gs then gs.dropWhile fun g => !isBreak g.char else gs
  match gs with
  | [] => some []
  | g :: rest => if isBreak g.char then some rest else none

/-- The ends of empty lines, the first column of the text or the furthest one that blanks have
reached before it, and what is left. Indentation goes up to the limit if there is one; tabs cannot
indent. -/
def emptyLines (limit : Option Nat) (reached : Nat) :
    List Glyph → Option (List Char × Nat × List Glyph)
  | [] => some ([], reached, [])
  | g :: rest =>
    let margin := limit.all (g.column < ·)
    if margin && g.char == ' ' then emptyLines limit (max reached (g.column + 1)) rest
    else if margin && g.char == '\t' then none
    else if isBreak g.char then do
      let (ends, reached, rest) ← emptyLines limit (max reached g.column) rest
      return (g.char :: ends, reached, rest)
    else some ([], max reached g.column, g :: rest)

/-- Lines of text that start at column `indent`. `first` is the end of the last line with text,
`more` are the ends of empty lines behind it, and `blank` says whether that line started with a
blank. -/
def blockLines (folded : Bool) (chomping : Chomping) (indent : Nat) :
    (inLine blank : Bool) → (first more : List Char) → List Glyph → Option (List Char × List Glyph)
  | _, _, first, more, [] => some (chomping.apply first more, [])
  | true, blank, _, _, g :: rest =>
    if isBreak g.char then blockLines folded chomping indent false blank [g.char] [] rest
    else do
      let (text, rest) ← blockLines folded chomping indent true blank [] [] rest
      return (g.char :: text, rest)
  | false, blank, first, more, g :: rest =>
    if g.column < indent ∧ g.char = ' ' then
      blockLines folded chomping indent false blank first more rest
    else if g.column < indent ∧ g.char = '\t' then none
    else if isBreak g.char then
      blockLines folded chomping indent false blank first (more ++ [g.char]) rest
    else if g.column < indent then some (chomping.apply first more, g :: rest)
    else do
      let joint :=
        if folded && first == ['\n'] && !blank && !isBlank g.char then
          if more.isEmpty then [' '] else more
        else first ++ more
      let (text, rest) ← blockLines folded chomping indent true (isBlank g.char) [] [] rest
      return (joint ++ g.char :: text, rest)

/-- A block scalar, from behind its first mark. `base` is the least column that is further right
than the block around it. -/
def blockScalar (folded : Bool) (base : Nat) (gs : List Glyph) : Option (List Char × List Glyph) := do
  let (chomping, step, gs) := blockMarks gs
  let gs ← restOfLine? gs
  let limit := step.map fun n => base - 1 + n
  let (ends, reached, gs) ← emptyLines limit 0 gs
  let indent := limit.getD (max reached (max base 1))
  blockLines folded chomping indent false false [] ends gs

end CommandGrammar.Yaml
