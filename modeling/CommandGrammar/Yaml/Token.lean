/-!
# Tokens

What a text consists of. Blocks that are laid out by indentation have tokens of their own at their
start and end, so that all structure can be seen from the tokens.
-/

namespace CommandGrammar.Yaml

abbrev Tag := List UInt8

inductive TagForm where
  | whole (tag : Tag)
  /-- A handle stands for the beginning of the tag. -/
  | short (handle : List Char) (rest : Tag)
deriving DecidableEq, Repr

inductive Style where
  | plain
  | single
  | double
  | literal
  | folded
deriving DecidableEq, Repr

inductive Token where
  | version (major minor : Nat)
  | handle (name : List Char) (start : Tag)
  | documentStart
  | documentEnd
  | blockSequence
  | blockMapping
  | blockEnd
  | flowSequence
  | flowSequenceEnd
  | flowMapping
  | flowMappingEnd
  /-- A dash before an item. -/
  | entry
  /-- A comma between items. -/
  | comma
  | key
  | value
  | reference (name : List Char)
  | anchor (name : List Char)
  | tag (form : TagForm)
  | scalar (style : Style) (text : List Char)
deriving DecidableEq, Repr

end CommandGrammar.Yaml
