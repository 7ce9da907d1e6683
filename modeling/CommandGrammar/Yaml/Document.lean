import CommandGrammar.Yaml.Node.Grammar
import CommandGrammar.Yaml.Token.Lexer

/-!
# Documents

A root and the nodes that aliases stand for. Of nodes with one number the last one counts. Aliases
may be followed a hundred times as often as the document is long, so that a short document cannot
describe a value without end.
-/

namespace CommandGrammar.Yaml

structure Document where
  root : Node Nat
  /-- The nodes with anchors, the last one first. -/
  anchored : List (Nat × Node Nat)
  /-- How many aliases may be followed. -/
  limit : Nat

namespace Document

def ofNode (root : Node Nat) : Document :=
  let nodes := root.nodes
  { root
    anchored := (nodes.filterMap fun n =>
      (n.properties?.bind (·.anchor)).map fun number => (number, n)).reverse
    limit := 100 * nodes.foldl (fun n m => n + m.weight) 0 }

/-- The only document of a text. -/
def ofText? (text : List Char) : Option Document := do
  let tokens ← Token.ofText? text
  let root ← NamedNode.ofTokens? tokens
  let (root, _) ← root.numbered? []
  return ofNode root

/-- Reads from a document; the state counts the aliases that have been followed. -/
abbrev Decoder (α : Type) := StateT Nat Option α

def follow (d : Document) : Node Nat → Decoder (Node Nat)
  | .reference number => fun followed =>
    if d.limit ≤ followed then none
    else (d.anchored.lookup number).map fun n => (n, followed + 1)
  | n => pure n

end Document

end CommandGrammar.Yaml
