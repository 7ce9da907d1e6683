import CommandGrammar.Argument.Parser
import CommandGrammar.Text.Sorting

/-!
# Command trees

A node is a keyword or an argument, with the nodes that may follow it. What a source may use is
decided by requirements, what happens at the end of a command by executors. Children are kept
ascending by name, one child to a name.

A child whose name is taken is added by the rule of the parent. A literal parent replaces the old
child with everything below it. An argument parent keeps the old child and adds to it, by the rule
of that old child, the children of the new one.
-/

namespace CommandGrammar

/-- What a node matches: a keyword, or a value that a parser reads. -/
inductive NodeKind (Value : Type) where
  | literal (caseSensitive : Bool)
  | argument (parser : Parser Value)

/-- Decides whether a source may use a node. -/
abbrev Requirement (Source : Type) := Source → Bool

abbrev Executor (Source : Type) := Source → Except Failure (Signed 32)

/-- All of a node but its children. -/
structure NodeHeader (Source Value : Type) where
  name : String
  kind : NodeKind Value
  requirement : Option (Requirement Source)
  executor : Option (Executor Source)

structure Node (Source Value : Type) where
  header : NodeHeader Source Value
  children : List (Node Source Value)

namespace NodeKind

variable {Value Value' : Type}

def isLiteral : NodeKind Value → Bool
  | literal _ => true
  | argument _ => false

def map (f : Value → Value') : NodeKind Value → NodeKind Value'
  | literal caseSensitive => literal caseSensitive
  | argument parser => argument (parser.map f)

end NodeKind

namespace NodeHeader

variable {Source Value : Type}

def literal (name : String) (caseSensitive : Bool) : NodeHeader Source Value :=
  ⟨name, .literal caseSensitive, none, none⟩

def argument (name : String) (parser : Parser Value) : NodeHeader Source Value :=
  ⟨name, .argument parser, none, none⟩

/-- Sets the requirement, in place of an earlier one. -/
def requires (requirement : Requirement Source) (h : NodeHeader Source Value) :
    NodeHeader Source Value :=
  { h with requirement := some requirement }

/-- Sets the executor, in place of an earlier one. -/
def executes (executor : Executor Source) (h : NodeHeader Source Value) :
    NodeHeader Source Value :=
  { h with executor := some executor }

end NodeHeader

namespace Node

variable {Source Value Value' : Type}

def name (n : Node Source Value) : String := n.header.name

def isLiteral (n : Node Source Value) : Bool := n.header.kind.isLiteral

def isArgument (n : Node Source Value) : Bool := !n.isLiteral

/-- Whether a keyword is matched to the letter. -/
def caseSensitive (n : Node Source Value) : Option Bool :=
  match n.header.kind with
  | .literal caseSensitive => some caseSensitive
  | .argument _ => none

def parser (n : Node Source Value) : Option (Parser Value) :=
  match n.header.kind with
  | .literal _ => none
  | .argument parser => some parser

def acceptsLiteral (n : Node Source Value) (token : String) : Bool :=
  match n.header.kind with
  | .literal true => n.name == token
  | .literal false => n.name.toList.map Char.toLower == token.toList.map Char.toLower
  | .argument _ => false

def canUse (n : Node Source Value) (source : Source) : Bool :=
  match n.header.requirement with
  | none => true
  | some requirement => requirement source

def isExecutable (n : Node Source Value) : Bool := n.header.executor.isSome

def isRestricted (n : Node Source Value) : Bool := n.header.requirement.isSome

/-- Runs the executor; without one there is nothing to run. -/
def execute (n : Node Source Value) (source : Source) : Except Failure (Signed 32) :=
  match n.header.executor with
  | some executor => executor source
  | none => .error (.misuse (.notExecutable n.name))

/-! ## Children -/

def child? (n : Node Source Value) (name : String) : Option (Node Source Value) :=
  n.children.find? fun c => c.name == name

def childNames (n : Node Source Value) : List String := Text.sort (n.children.map name)

/-- The node at the end of a path of names. -/
def at? (n : Node Source Value) : List String → Option (Node Source Value)
  | [] => some n
  | name :: path => (n.child? name).bind fun c => c.at? path

/-- Puts a node among others in the place of its name. -/
def put (n : Node Source Value) : List (Node Source Value) → List (Node Source Value)
  | [] => [n]
  | m :: ms =>
    if n.name = m.name then n :: ms
    else if n.name < m.name then n :: m :: ms
    else m :: put n ms

mutual

/-- Adds a node to the children of `parent`. -/
def addTo : Node Source Value → Node Source Value → Node Source Value
  | ⟨h, children⟩, parent =>
    match parent.header.kind with
    | .literal _ => ⟨parent.header, put ⟨h, children⟩ parent.children⟩
    | .argument _ =>
      match parent.child? h.name with
      | some old => ⟨parent.header, put (addAllTo children old) parent.children⟩
      | none => ⟨parent.header, put ⟨h, children⟩ parent.children⟩

def addAllTo : List (Node Source Value) → Node Source Value → Node Source Value
  | [], parent => parent
  | c :: children, parent => addAllTo children (addTo c parent)

end

def addChild (parent child : Node Source Value) : Node Source Value := child.addTo parent

def build (header : NodeHeader Source Value) (children : List (Node Source Value)) :
    Node Source Value :=
  addAllTo children ⟨header, []⟩

/-- Changes the node at the end of a path, if there is one. -/
def modifyAt? (f : Node Source Value → Node Source Value) :
    List String → Node Source Value → Option (Node Source Value)
  | [], n => some (f n)
  | name :: path, n => do
    let c ← n.child? name
    let c' ← modifyAt? f path c
    return ⟨n.header, put c' n.children⟩

mutual

/-- Changes the type of the values that arguments yield. -/
def mapValue (f : Value → Value') : Node Source Value → Node Source Value'
  | ⟨h, children⟩ =>
    ⟨⟨h.name, h.kind.map f, h.requirement, h.executor⟩, mapValues f children⟩

def mapValues (f : Value → Value') : List (Node Source Value) → List (Node Source Value')
  | [] => []
  | c :: children => c.mapValue f :: mapValues f children

end

mutual

def size : Node Source Value → Nat
  | ⟨_, children⟩ => 1 + sizes children

def sizes : List (Node Source Value) → Nat
  | [] => 0
  | c :: children => c.size + sizes children

end

/-- Nodes are alike if they match in the same way and have one name. -/
def alike (m n : Node Source Value) : Bool := m.isLiteral == n.isLiteral && m.name == n.name

end Node

end CommandGrammar
