import CommandGrammar.Yaml.Document
import CommandGrammar.Yaml.Scalar.Meaning

/-!
# Decoding

Nodes as values of given types. Collections within each other are read to a depth of 128.
-/

namespace CommandGrammar.Yaml

def depthLimit : Nat := 128

/-- Numbers outside of 64 bits have no content. -/
def numberContent? : Numeral → Option Content
  | .natural n => if n < twoTo 64 then some (.number (.natural n)) else none
  | .negative n => if n ≤ twoTo 63 then some (.number (.negative n)) else none
  | .float x => some (.number (.float x))

def plainContent? (text : List Char) : Option Content :=
  match meaning text with
  | .null => some .null
  | .bool value => some (.bool value)
  | .number n => numberContent? n
  | .text => some (.text (String.ofList text))

/-- The content of a scalar: a core tag says what it has to be, and a local one has no place here. -/
def scalarContent? (tag : Option Tag) (style : Style) (text : List Char) : Option Content :=
  let quoted : Option Content := some (.text (String.ofList text))
  match tag with
  | none => if style = .plain then plainContent? text else quoted
  | some tag =>
    if tag.isLocal then none
    else if tag = Tag.bool then (bool? text).map .bool
    else if tag = Tag.int then (integer? text).bind numberContent?
    else if tag = Tag.float then (float? text).map fun x => .number (.float x)
    else if tag = Tag.null then if isNull text then some .null else none
    else if tag.isMarked ∧ style = .plain then plainContent? text
    else quoted

namespace Document

variable (d : Document)

/-- Whether a collection has a type of its own. -/
def isLocal (p : Properties Nat) : Bool := p.tag.any Tag.isLocal

def content : Nat → Node Nat → Decoder Content
  | depth, n => do
    match ← d.follow n with
    | .reference _ => failure
    | .scalar p style text => fun followed => (scalarContent? p.tag style text).map (·, followed)
    | .sequence p items =>
      match depth with
      | 0 => failure
      | depth + 1 =>
        if isLocal p then failure
        return .list (← items.mapM (content depth))
    | .mapping p entries =>
      match depth with
      | 0 => failure
      | depth + 1 =>
        if isLocal p then failure
        return .map (← entries.mapM fun (key, value) =>
          return (← content depth key, ← content depth value))

def text (n : Node Nat) : Decoder String := do
  match ← d.follow n with
  | .scalar _ _ text => return String.ofList text
  | _ => failure

/-- Whether a scalar can be read as a value of a type: it is plain, or it is a literal block with the
tag of the type. -/
def isValue (tag : Tag) (p : Properties Nat) (style : Style) : Bool :=
  style == .plain || (style == .literal && p.tag == some tag)

def flag (n : Node Nat) : Decoder Bool := do
  match ← d.follow n with
  | .scalar p style text =>
    if !isValue Tag.bool p style then failure
    fun followed => (bool? text).map (·, followed)
  | _ => failure

def integer (n : Node Nat) : Decoder (Signed 32) := do
  match ← d.follow n with
  | .scalar p style text =>
    if !isValue Tag.int p style then failure
    fun followed => match integer? text with
      | some n => (n.toSigned 32 "").toOption.map (·, followed)
      | none => none
  | _ => failure

/-- Whether a node stands for no value. -/
def isAbsent? : Node Nat → Option Bool
  | .scalar p .plain text =>
    match p.tag with
    | none => some (text.isEmpty || isNull text)
    | some tag =>
      if tag ≠ Tag.null then some false else if isNull text then some true else none
  | _ => some false

/-- A value, or none where the node says so. -/
def optional {α : Type} (decode : Node Nat → Decoder α) (n : Node Nat) : Decoder (Option α) := do
  let n ← d.follow n
  match isAbsent? n with
  | none => failure
  | some true => return none
  | some false => return some (← decode n)

/-- The items of a sequence, with the depth inside of it; an empty scalar is an empty one. -/
def items (depth : Nat) (n : Node Nat) : Decoder (Nat × List (Node Nat)) := do
  match ← d.follow n, depth with
  | .scalar _ .plain [], _ => return (0, [])
  | .sequence _ items, depth + 1 => return (depth, items)
  | _, _ => failure

/-- Decodes entries up to the one that names the kind, and those behind it. -/
def kindAndRest (depth : Nat) : Option String → List (Node Nat × Node Nat) →
    Decoder (Option String × List (Content × Content))
  | kind, [] => return (kind, [])
  | kind, (key, value) :: entries => do
    match ← d.content depth key with
    | .text "kind" =>
      if kind.isSome then failure
      kindAndRest depth (some (← d.text value)) entries
    | key =>
      let value ← d.content depth value
      let (kind, rest) ← kindAndRest depth kind entries
      return (kind, (key, value) :: rest)

/-- An argument type: entries among which one names the kind, or the name of a kind and what belongs
to it in order. -/
def argumentType (depth : Nat) (n : Node Nat) : Decoder ArgumentType := do
  let (kind, rest) ← match n, depth with
    | .mapping p entries, depth + 1 => do
      if isLocal p then failure
      let (kind, rest) ← d.kindAndRest depth none entries
      pure (kind, Content.map rest)
    | .sequence p (kind :: rest), depth + 1 => do
      if isLocal p then failure
      let kind ← d.text kind
      pure (some kind, Content.list (← rest.mapM (d.content depth)))
    | _, _ => failure
  fun followed => do
    let tag ← (ArgumentTag.ofName (← kind)).toOption
    return (← (ArgumentType.ofContent tag rest).toOption, followed)

end Document

end CommandGrammar.Yaml
