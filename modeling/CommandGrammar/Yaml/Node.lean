import CommandGrammar.Yaml.Token

/-!
# Nodes

The values that a text describes. A node may have an anchor, and an alias stands for a node with an
anchor. `numbered?` says which: an anchor is numbered by the count of different names before it, and
an alias has the number that its name was given last.
-/

namespace CommandGrammar.Yaml

structure Properties (ν : Type) where
  anchor : Option ν
  tag : Option Tag
deriving Repr

inductive Node (ν : Type) where
  | reference (target : ν)
  | scalar (properties : Properties ν) (style : Style) (text : List Char)
  | sequence (properties : Properties ν) (items : List (Node ν))
  | mapping (properties : Properties ν) (entries : List (Node ν × Node ν))

abbrev Numbering := List (List Char × Nat)

namespace Numbering

/-- Gives a name the next number, in place of the one that it had. -/
def add (names : Numbering) (name : List Char) : Nat × Numbering :=
  (names.length, (name, names.length) :: names.filter fun entry => entry.1 != name)

/-- The properties with a number for the anchor. -/
def anchor (names : Numbering) (p : Properties (List Char)) : Properties Nat × Numbering :=
  match p.anchor with
  | none => (⟨none, p.tag⟩, names)
  | some name => (⟨some (names.add name).1, p.tag⟩, (names.add name).2)

end Numbering

namespace Node

variable {ν : Type}

/-- A value that is left out. -/
def empty : Node ν := scalar ⟨none, none⟩ .plain []

mutual

/-- The node with numbers in place of names; every alias needs an anchor before it. -/
def numbered? (names : Numbering) : Node (List Char) → Option (Node Nat × Numbering)
  | reference name => (names.lookup name).map fun n => (reference n, names)
  | scalar p style text =>
    let (p, names) := names.anchor p
    some (scalar p style text, names)
  | sequence p items => do
    let (p, names) := names.anchor p
    let (items, names) ← numberedItems? names items
    return (sequence p items, names)
  | mapping p entries => do
    let (p, names) := names.anchor p
    let (entries, names) ← numberedEntries? names entries
    return (mapping p entries, names)

def numberedItems? (names : Numbering) :
    List (Node (List Char)) → Option (List (Node Nat) × Numbering)
  | [] => some ([], names)
  | item :: items => do
    let (item, names) ← item.numbered? names
    let (items, names) ← numberedItems? names items
    return (item :: items, names)

def numberedEntries? (names : Numbering) :
    List (Node (List Char) × Node (List Char)) → Option (List (Node Nat × Node Nat) × Numbering)
  | [] => some ([], names)
  | (key, value) :: entries => do
    let (key, names) ← key.numbered? names
    let (value, names) ← value.numbered? names
    let (entries, names) ← numberedEntries? names entries
    return ((key, value) :: entries, names)

end

def properties? : Node ν → Option (Properties ν)
  | reference _ => none
  | scalar p _ _ => some p
  | sequence p _ => some p
  | mapping p _ => some p

mutual

/-- The node and all nodes in it, in the order of the text. -/
def nodes : Node ν → List (Node ν)
  | reference target => [reference target]
  | scalar p style text => [scalar p style text]
  | sequence p items => sequence p items :: nodesOfItems items
  | mapping p entries => mapping p entries :: nodesOfEntries entries

def nodesOfItems : List (Node ν) → List (Node ν)
  | [] => []
  | item :: items => item.nodes ++ nodesOfItems items

def nodesOfEntries : List (Node ν × Node ν) → List (Node ν)
  | [] => []
  | (key, value) :: entries => key.nodes ++ value.nodes ++ nodesOfEntries entries

end

/-- One for a scalar or alias, and one for each end of a collection. -/
def weight : Node ν → Nat
  | reference _ => 1
  | scalar _ _ _ => 1
  | sequence _ _ => 2
  | mapping _ _ => 2

end Node

end CommandGrammar.Yaml
