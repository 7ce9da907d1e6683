import CommandGrammar.Tree.Node

/-!
# Snapshots

The shape of a tree without its functions: names, kinds, and which nodes run something or are
restricted. Children of a captured tree are ascending by name. A snapshot that was read from a text
keeps the order given there.
-/

namespace CommandGrammar

inductive SnapshotKind where
  | literal
  | argument
deriving DecidableEq, Repr

structure SnapshotHeader where
  name : String
  kind : SnapshotKind
  /-- Given for keywords only. -/
  caseSensitive : Option Bool
  /-- The short name of the type of values, given for arguments only. -/
  valueType : Option String
  executable : Bool
  restricted : Bool
deriving DecidableEq, Repr

/-- The shape of a node and of everything below it. -/
structure Snapshot where
  header : SnapshotHeader
  children : List Snapshot
deriving Repr

namespace Snapshot

variable {Source Value : Type}

def name (s : Snapshot) : String := s.header.name

def headerOf (n : NodeHeader Source Value) : SnapshotHeader where
  name := n.name
  kind := match n.kind with
    | .literal _ => .literal
    | .argument _ => .argument
  caseSensitive := match n.kind with
    | .literal caseSensitive => some caseSensitive
    | .argument _ => none
  valueType := match n.kind with
    | .literal _ => none
    | .argument parser => some parser.typeName
  executable := n.executor.isSome
  restricted := n.requirement.isSome

mutual

def capture : Node Source Value → Snapshot
  | ⟨h, children⟩ => ⟨headerOf h, Text.sortByKey name (captureAll children)⟩

def captureAll : List (Node Source Value) → List Snapshot
  | [] => []
  | c :: children => capture c :: captureAll children

end

mutual

/-- What a source can use; a node that it cannot use is left out with everything below it. -/
def captureVisible (source : Source) : Node Source Value → Option Snapshot
  | ⟨h, children⟩ =>
    if Node.canUse ⟨h, children⟩ source then
      some ⟨headerOf h, Text.sortByKey name (captureAllVisible source children)⟩
    else none

def captureAllVisible (source : Source) : List (Node Source Value) → List Snapshot
  | [] => []
  | c :: children =>
    match captureVisible source c with
    | some s => s :: captureAllVisible source children
    | none => captureAllVisible source children

end

/-- How a node appears in a path: a keyword as it is, an argument in angle brackets. -/
def label (s : Snapshot) : List Char :=
  match s.header.kind with
  | .literal => s.name.toList
  | .argument => '<' :: s.name.toList ++ ['>']

def joinLabels (labels : List (List Char)) : List Char := List.intercalate [' '] labels

mutual

/-- The labels from the root to each executable node, below the labels `above`. -/
def labelPaths (above : List (List Char)) : Snapshot → List (List (List Char))
  | ⟨h, children⟩ =>
    let here := above ++ [label ⟨h, children⟩]
    (if h.executable then [here] else []) ++ labelPathsAll here children

def labelPathsAll (above : List (List Char)) : List Snapshot → List (List (List Char))
  | [] => []
  | c :: children => labelPaths above c ++ labelPathsAll above children

end

def paths (s : Snapshot) : List String :=
  Text.sort ((s.labelPaths []).map fun labels => String.ofList (joinLabels labels))

def child? (s : Snapshot) (name : String) : Option Snapshot :=
  s.children.find? fun c => c.name == name

/-- The snapshot at the end of a path of names. -/
def find? (s : Snapshot) : List String → Option Snapshot
  | [] => some s
  | name :: path => (s.child? name).bind fun c => c.find? path

mutual

def size : Snapshot → Nat
  | ⟨_, children⟩ => 1 + sizes children

def sizes : List Snapshot → Nat
  | [] => 0
  | c :: children => c.size + sizes children

end

mutual

def same : Snapshot → Snapshot → Bool
  | ⟨h, children⟩, ⟨h', children'⟩ => decide (h = h') && sameAll children children'

def sameAll : List Snapshot → List Snapshot → Bool
  | [], [] => true
  | c :: children, c' :: children' => c.same c' && sameAll children children'
  | _, _ => false

end

end Snapshot

end CommandGrammar
