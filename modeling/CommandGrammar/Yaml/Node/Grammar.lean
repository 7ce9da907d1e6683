import CommandGrammar.Yaml.Node
import CommandGrammar.Yaml.Tag

/-!
# From tokens to a node

A text holds one document. Values that are left out are empty plain scalars. Every function takes
tokens off the front of a list; of the calls within each other at most two take no token, so the
number of tokens bounds their depth.
-/

namespace CommandGrammar.Yaml

inductive Position where
  | block
  /-- In a block mapping, where a sequence need not be indented. -/
  | entry
  | flow
deriving DecidableEq, Repr

abbrev NamedNode := Node (List Char)

namespace Token

/-- Whether a value has been left out of a block sequence. -/
def endsItem : List Token → Bool
  | .entry :: _ => true
  | .blockEnd :: _ => true
  | _ => false

/-- Whether a value has been left out of a block mapping. -/
def endsEntry : List Token → Bool
  | .key :: _ => true
  | .value :: _ => true
  | .blockEnd :: _ => true
  | _ => false

/-- Whether a value has been left out between brackets. -/
def endsFlow (close : Token) : List Token → Bool
  | t :: _ => t == .comma || t == close
  | [] => false

/-- The anchor and the tag in front of a node. -/
def properties : List Token → Option (List Char) × Option TagForm × List Token
  | .anchor name :: .tag form :: ts => (some name, some form, ts)
  | .tag form :: .anchor name :: ts => (some name, some form, ts)
  | .anchor name :: ts => (some name, none, ts)
  | .tag form :: ts => (none, some form, ts)
  | ts => (none, none, ts)

end Token

namespace NamedNode

variable (handles : Handles)

mutual

def node : Nat → Position → List Token → Option (NamedNode × List Token)
  | 0, _, _ => none
  | _, _, .reference name :: ts => some (.reference name, ts)
  | fuel + 1, position, ts => do
    let (anchor, form, ts) := Token.properties ts
    let tag ← match form with
      | none => some none
      | some form => (form.resolve? handles).map some
    let p : Properties (List Char) := ⟨anchor, tag⟩
    match ts with
    | .scalar style text :: ts =>
      return (.scalar ⟨anchor, tag.filter (· != Tag.unspecific)⟩ style text, ts)
    | .flowSequence :: ts =>
      let (items, ts) ← flowItems fuel true ts
      return (.sequence p items, ts)
    | .flowMapping :: ts =>
      let (entries, ts) ← flowEntries fuel true ts
      return (.mapping p entries, ts)
    | ts =>
      match position, ts with
      | .entry, .entry :: _ =>
        let (items, ts) ← looseItems fuel ts
        return (.sequence p items, ts)
      | .block, .blockSequence :: ts | .entry, .blockSequence :: ts =>
        let (items, ts) ← blockItems fuel ts
        return (.sequence p items, ts)
      | .block, .blockMapping :: ts | .entry, .blockMapping :: ts =>
        let (entries, ts) ← blockEntries fuel ts
        return (.mapping p entries, ts)
      | _, ts =>
        if anchor.isNone && tag.isNone then none
        return (.scalar p .plain [], ts)

/-- A node that may have been left out. -/
def optional : Nat → Position → Bool → List Token → Option (NamedNode × List Token)
  | 0, _, _, _ => none
  | fuel + 1, position, left, ts => if left then some (.empty, ts) else node fuel position ts

/-- The items of a block and its end. -/
def blockItems : Nat → List Token → Option (List NamedNode × List Token)
  | fuel + 1, .entry :: ts => do
    let (item, ts) ← optional fuel .block (Token.endsItem ts) ts
    let (items, ts) ← blockItems fuel ts
    return (item :: items, ts)
  | _, .blockEnd :: ts => some ([], ts)
  | _, _ => none

/-- Items that no block has been opened for. -/
def looseItems : Nat → List Token → Option (List NamedNode × List Token)
  | fuel + 1, .entry :: ts => do
    let (item, ts) ← optional fuel .block (Token.endsItem ts || Token.endsEntry ts) ts
    let (items, ts) ← looseItems fuel ts
    return (item :: items, ts)
  | 0, .entry :: _ => none
  | _, ts => some ([], ts)

/-- The entries of a block and its end. -/
def blockEntries : Nat → List Token → Option (List (NamedNode × NamedNode) × List Token)
  | fuel + 1, .key :: ts => do
    let (key, ts) ← optional fuel .entry (Token.endsEntry ts) ts
    let (value, ts) ← match ts with
      | .value :: ts => optional fuel .entry (Token.endsEntry ts) ts
      | ts => some (.empty, ts)
    let (entries, ts) ← blockEntries fuel ts
    return ((key, value) :: entries, ts)
  | _, .blockEnd :: ts => some ([], ts)
  | _, _ => none

/-- Items and the closing bracket; all but the first follow a comma. -/
def flowItems : Nat → Bool → List Token → Option (List NamedNode × List Token)
  | 0, _, _ => none
  | _, _, .flowSequenceEnd :: ts => some ([], ts)
  | fuel + 1, first, ts => do
    let ts ← match first, ts with
      | true, ts => some ts
      | false, .comma :: ts => some ts
      | false, _ => none
    match ts with
    | .flowSequenceEnd :: ts => return ([], ts)
    | .key :: ts =>
      let (key, ts) ← match ts with
        | .value :: ts | .comma :: ts | .flowSequenceEnd :: ts => some (.empty, ts)
        | ts => node fuel .flow ts
      let (value, ts) ← flowValue fuel .flowSequenceEnd ts
      let (items, ts) ← flowItems fuel false ts
      return (.mapping ⟨none, none⟩ [(key, value)] :: items, ts)
    | ts =>
      let (item, ts) ← node fuel .flow ts
      let (items, ts) ← flowItems fuel false ts
      return (item :: items, ts)

/-- Entries and the closing brace; all but the first follow a comma. -/
def flowEntries : Nat → Bool → List Token → Option (List (NamedNode × NamedNode) × List Token)
  | 0, _, _ => none
  | _, _, .flowMappingEnd :: ts => some ([], ts)
  | fuel + 1, first, ts => do
    let ts ← match first, ts with
      | true, ts => some ts
      | false, .comma :: ts => some ts
      | false, _ => none
    match ts with
    | .flowMappingEnd :: ts => return ([], ts)
    | .key :: ts =>
      let left := Token.endsFlow .flowMappingEnd ts || ts.head? == some .value
      let (key, ts) ← optional fuel .flow left ts
      let (value, ts) ← flowValue fuel .flowMappingEnd ts
      let (entries, ts) ← flowEntries fuel false ts
      return ((key, value) :: entries, ts)
    | ts =>
      let (key, ts) ← node fuel .flow ts
      let (entries, ts) ← flowEntries fuel false ts
      return ((key, .empty) :: entries, ts)

def flowValue : Nat → Token → List Token → Option (NamedNode × List Token)
  | fuel + 1, close, .value :: ts => optional fuel .flow (Token.endsFlow close ts) ts
  | 0, _, .value :: _ => none
  | _, _, ts => some (.empty, ts)

end

end NamedNode

/-! ## Documents -/

/-- Reads directives: one version at most, of the first or second edition, and no handle twice. -/
def directives? : (version : Bool) → Handles → List Token → Option (Handles × List Token)
  | version, handles, .version major minor :: ts =>
    if version ∨ major ≠ 1 ∨ (minor ≠ 1 ∧ minor ≠ 2) then none
    else directives? true handles ts
  | version, handles, .handle name start :: ts =>
    if (handles.lookup name).isSome then none
    else directives? version ((name, start) :: handles) ts
  | _, handles, ts => some (handles ++ usualHandles, ts)

def startsEmpty : List Token → Bool
  | [] => true
  | .version _ _ :: _ => true
  | .handle _ _ :: _ => true
  | .documentStart :: _ => true
  | .documentEnd :: _ => true
  | _ => false

/-- The root of a text with one document. -/
def NamedNode.ofTokens? (tokens : List Token) : Option NamedNode := do
  let fuel := 3 * tokens.length + 3
  let (handles, ts) ← directives? false [] tokens
  let (root, ts) ←
    match ts with
    | .documentStart :: ts =>
      if startsEmpty ts then some (Node.empty, ts) else NamedNode.node handles fuel .block ts
    | ts =>
      if ts.length < tokens.length then none else NamedNode.node handles fuel .block ts
  if ts.all (· == .documentEnd) then some root else none

end CommandGrammar.Yaml
