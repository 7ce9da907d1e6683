import CommandGrammar.Data.Basic
import CommandGrammar.Yaml.Scalar.Meaning
import CommandGrammar.Yaml.Token

/-!
# YAML text

Data as YAML in blocks. A text is written plain if it is read back as that text, else in single
quotes, and in double quotes if there are characters in it that have to be escaped. A text with a
line feed is written as a literal block.
-/

namespace CommandGrammar.Yaml

/-- Powers of ten stand for numbers below `10 ^ -6` and from `10 ^ 13` on. -/
def singleLayout : Layout where
  tie := .even
  positional := some (-5, 13)
  wholeMark := ".0".toList
  powerMark := ['e']
  negativePowerMark := ['e', '-']
  infinity := ".inf".toList
  negativeInfinity := "-.inf".toList
  nan := ".nan".toList

/-- Powers of ten stand for numbers below `10 ^ -5` and from `10 ^ 16` on. -/
def doubleLayout : Layout := { singleLayout with positional := some (-4, 16) }

/-! ## The style of a text -/

/-- Characters that can be written as they are, line ends among them. -/
def isPrintable (c : Char) : Bool :=
  let n := c.toNat
  n == 0xA || (0x20 ≤ n && n ≤ 0x7E) || (0xA0 ≤ n && n ≤ 0xFFFD && n != 0xFEFF) || 0x10000 ≤ n

def hasPair (p : Char → Char → Bool) : List Char → Bool
  | a :: b :: text => p a b || hasPair p (b :: text)
  | _ => false

/-- Whether a space stands before a line end, or a character needs an escape. -/
def needsEscape (text : List Char) : Bool :=
  !text.all isPrintable || hasPair (fun a b => a == ' ' && isBreak b) text

/-- Whether a text has the mark of an entry or comment in it. -/
def hasMark : List Char → Bool
  | [] => false
  | [c] => c == ':'
  | a :: b :: text =>
    (a == ':' && (isBlank b || isBreak b)) || ((isBlank a || isBreak a) && b == '#')
      || hasMark (b :: text)

/-- Whether a text starts like something else than a plain scalar. -/
def startsWithMark : List Char → Bool
  | [] => false
  | c :: text =>
    let gap := text.head?.all fun d => isBlank d || isBreak d
    ['#', ',', '[', ']', '\x7b', '\x7d', '&', '*', '!', '|', '>', '\'', '"', '%', '@', '\x60'].contains c
      || (['?', ':', '-'].contains c && gap)
      || "---".toList.isPrefixOf (c :: text) || "...".toList.isPrefixOf (c :: text)

/-- Whether a text can be written on one line without quotes. -/
def canBePlain (text : List Char) : Bool :=
  let atEnd (c : Option Char) : Bool := c == some ' '
  !atEnd text.head? && !atEnd text.getLast? && !text.any isBreak && !needsEscape text
    && !startsWithMark text && !hasMark text

def styleOf (text : List Char) : Style :=
  if text.contains '\n' then
    if needsEscape text || text.getLast? == some ' ' then .double else .literal
  else if meaning text = .text ∧ !isPadded text ∧ canBePlain text then .plain
  else if needsEscape text || hasPair (fun a b => isBreak a && b == ' ') text then .double
  else .single

/-! ## Scalars -/

def spaces (n : Nat) : List Char := List.replicate n ' '

/-- Text between single quotes; lines behind line ends are indented. -/
def singleText (indent : Nat) : (broken : Bool) → List Char → List Char
  | broken, [] => if broken then spaces indent else []
  | broken, c :: text =>
    if isBreak c then c :: singleText indent true text
    else
      (if broken then spaces indent else []) ++ (if c = '\'' then ['\'', '\''] else [c])
        ++ singleText indent false text

def upperDigit (n : Nat) : Char := if n < 10 then Char.ofNat (48 + n) else Char.ofNat (55 + n)

/-- A number in a fixed count of hexadecimal digits. -/
def hexDigits : (count n : Nat) → List Char
  | 0, _ => []
  | count + 1, n => hexDigits count (n / 16) ++ [upperDigit (n % 16)]

/-- Escapes of one letter that are written. -/
def writtenEscapes : List (Char × Char) :=
  [('\x00', '0'), ('\x07', 'a'), ('\x08', 'b'), ('\t', 't'), ('\n', 'n'), ('\x0b', 'v'),
    ('\x0c', 'f'), ('\r', 'r'), ('\x1b', 'e'), ('"', '"'), ('\\', '\\'), ('\x85', 'N'),
    ('\u2028', 'L'), ('\u2029', 'P')]

def doubleChar (c : Char) : List Char :=
  match writtenEscapes.lookup c with
  | some letter => ['\\', letter]
  | none =>
    let n := c.toNat
    if isPrintable c then [c]
    else if n < 0x100 then '\\' :: 'x' :: hexDigits 2 n
    else if n < 0x10000 then '\\' :: 'u' :: hexDigits 4 n
    else '\\' :: 'U' :: hexDigits 8 n

/-- What stands behind the mark of a literal block: the indentation if the first line does not show
it, and what becomes of the last line ends. -/
def literalMarks (text : List Char) : List Char :=
  let start := match text with
    | c :: _ => if c = ' ' ∨ isBreak c then ['2'] else []
    | [] => []
  let tail := match text.reverse with
    | [] => ['-']
    | [c] => if isBreak c then ['+'] else ['-']
    | c :: d :: _ => if !isBreak c then ['-'] else if isBreak d then ['+'] else []
  start ++ tail

def literalText (indent : Nat) : (broken : Bool) → List Char → List Char
  | _, [] => []
  | broken, c :: text =>
    if isBreak c then c :: literalText indent true text
    else (if broken then spaces indent else []) ++ c :: literalText indent false text

/-- A text and the end of its last line. -/
def writeText (indent : Nat) (text : List Char) : List Char :=
  match styleOf text with
  | .plain => text ++ ['\n']
  | .single => '\'' :: singleText indent false text ++ ['\'', '\n']
  | .literal =>
    '|' :: literalMarks text ++ '\n' :: literalText indent true text
      ++ (if text.getLast?.any isBreak then [] else ['\n'])
  | _ => '"' :: text.flatMap doubleChar ++ ['"', '\n']

end Yaml

namespace Data

open Yaml

def isBlock : Data → Bool
  | list (_ :: _) => true
  | record (_ :: _) => true
  | _ => false

/-- A value without lines of its own, up to the end of its line; `indent` is where its further lines
would start. -/
def yamlScalar (indent : Nat) : Data → List Char
  | bool value => (if value then "true\n" else "false\n").toList
  | integer value => Digits.ofInt value ++ ['\n']
  | single value => singleLayout.render value ++ ['\n']
  | double value => doubleLayout.render value ++ ['\n']
  | text value => writeText indent value.toList
  | list _ => "[]\n".toList
  | record _ => ['\x7b', '\x7d', '\n']

mutual

/-- The lines of a value whose first line has been indented to column `indent`. -/
def yamlLines (indent : Nat) : Data → List Char
  | list (item :: items) => '-' :: ' ' :: item.yamlLines (indent + 2) ++ yamlItems indent items
  | record ((name, value) :: fields) =>
    writeField indent name value ++ yamlFields indent fields
  | data => data.yamlScalar indent

def yamlItems (indent : Nat) : List Data → List Char
  | [] => []
  | item :: items =>
    spaces indent ++ '-' :: ' ' :: item.yamlLines (indent + 2) ++ yamlItems indent items

def yamlFields (indent : Nat) : List (String × Data) → List Char
  | [] => []
  | (name, value) :: fields =>
    spaces indent ++ writeField indent name value ++ yamlFields indent fields

/-- A field of a record at a column. A list below it stays at that column. -/
def writeField (indent : Nat) (name : String) : Data → List Char
  | list (item :: items) => name.toList ++ ':' :: '\n' :: yamlItems indent (item :: items)
  | record ((inner, value) :: fields) =>
    name.toList ++ ':' :: '\n' :: yamlFields (indent + 2) ((inner, value) :: fields)
  | data => name.toList ++ ':' :: ' ' :: data.yamlScalar (indent + 2)

end

def yaml (data : Data) : List Char := data.yamlLines 0

end Data

end CommandGrammar
