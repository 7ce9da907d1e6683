import CommandGrammar.Text.Decoding
import CommandGrammar.Yaml.Glyph
import CommandGrammar.Yaml.Scalar.Flow
import CommandGrammar.Yaml.Token

/-!
# Tags

A tag names the type of a value. It is written in full between angles, or short with a handle in
front that stands for its beginning. Percent signs introduce bytes by number.
-/

namespace CommandGrammar.Yaml

namespace Tag

def ofString (name : String) : Tag := name.toUTF8.toList

/-- What all tags of the core types start with. -/
def coreStart : Tag := ofString "tag:yaml.org,2002:"

def null : Tag := coreStart ++ ofString "null"

def bool : Tag := coreStart ++ ofString "bool"

def int : Tag := coreStart ++ ofString "int"

def float : Tag := coreStart ++ ofString "float"

/-- The tag that stands for no type in particular. -/
def unspecific : Tag := ofString "!"

/-- Whether a tag starts with the mark of local types. -/
def isMarked (tag : Tag) : Bool := tag.head? == some 33

/-- A local type has a name after the mark. -/
def isLocal (tag : Tag) : Bool := tag.isMarked && (Text.ofBytes? (tag.drop 1)).isSome

end Tag

/-- Characters of tags; some count only where no bracket can follow. -/
def isTagChar (bracketed : Bool) (c : Char) : Bool :=
  isWord c || [';', '/', '?', ':', '@', '&', '=', '+', '$', '.', '!', '~', '*', '\'', '(', ')'].contains c
    || (bracketed && [',', '[', ']'].contains c)

/-- How many bytes the form of a character has, by its first one. -/
def widthOf? (b : Nat) : Option Nat :=
  if b < 0x80 then some 1
  else if b < 0xC0 then none
  else if b < 0xE0 then some 2
  else if b < 0xF0 then some 3
  else if b < 0xF8 then some 4
  else none

inductive Percent where
  | no
  /-- Behind a percent sign. -/
  | opened
  /-- Behind the first digit of a byte. -/
  | half (digit : Nat)

/-- The bytes of a tag up to the first character that cannot belong to it; `missing` counts the
bytes that the character in numbers still needs. -/
def tagBytes (bracketed : Bool) (percent : Percent) (missing : Nat) :
    List Glyph → Option (Tag × List Glyph)
  | [] => match percent, missing with
    | .no, 0 => some ([], [])
    | _, _ => none
  | g :: rest =>
    match percent with
    | .opened => (digitOf? 16 g.char).bind fun d => tagBytes bracketed (.half d) missing rest
    | .half digit => do
      let value := 16 * digit + (← digitOf? 16 g.char)
      let missing ←
        if missing = 0 then (widthOf? value).map (· - 1)
        else if 0x80 ≤ value ∧ value < 0xC0 then some (missing - 1) else none
      let (bytes, rest) ← tagBytes bracketed .no missing rest
      return (value.toUInt8 :: bytes, rest)
    | .no =>
      if g.char = '%' then tagBytes bracketed .opened missing rest
      else if missing ≠ 0 then none
      else if isTagChar bracketed g.char then do
        let (bytes, rest) ← tagBytes bracketed .no 0 rest
        return (g.char.toNat.toUInt8 :: bytes, rest)
      else some ([], g :: rest)

def bytesOf (word : List Char) : List UInt8 := word.map fun c => c.toNat.toUInt8

/-- A handle: a mark, a word, and a mark again unless the handle is not named. -/
def handle? : List Glyph → Option (List Char × Bool × List Glyph)
  | [] => none
  | g :: rest =>
    if g.char = '!' then
      let (word, rest) := spanChars isWord rest
      match rest with
      | h :: rest' =>
        if h.char = '!' then some ('!' :: word ++ ['!'], true, rest')
        else some ('!' :: word, false, rest)
      | [] => some ('!' :: word, false, [])
    else none

def tagForm? (flow : Bool) (mark : Glyph) (gs : List Glyph) : Option (TagForm × List Glyph) := do
  let (form, rest) ←
    if atChar '<' gs then do
      let (bytes, rest) ← tagBytes true .no 0 (gs.drop 1)
      if bytes.isEmpty || !atChar '>' rest then none
      else some (TagForm.whole bytes, rest.drop 1)
    else do
      let (word, named, rest) ← handle? (mark :: gs)
      let (bytes, rest) ← tagBytes false .no 0 rest
      if named then
        if bytes.isEmpty then none else some (TagForm.short word bytes, rest)
      else
        let bytes := bytesOf (word.drop 1) ++ bytes
        some (if bytes.isEmpty then .whole Tag.unspecific else .short ['!'] bytes, rest)
  if atGap rest || (flow && atChar ',' rest) then some (form, rest) else none

abbrev Handles := List (List Char × Tag)

def usualHandles : Handles := [(['!'], Tag.unspecific), (['!', '!'], Tag.coreStart)]

def TagForm.resolve? (handles : Handles) : TagForm → Option Tag
  | whole tag => some tag
  | short handle rest => (handles.lookup handle).map (· ++ rest)

end CommandGrammar.Yaml
