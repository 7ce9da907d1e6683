import CommandGrammar.Definition.Permission
import CommandGrammar.Tree.Validation

/-!
# Definitions

Command trees written down as data. A node with an argument type is an argument, any other one a
keyword. Compiling adds children in the order of the file, so siblings of one name follow the rule
of their parent.
-/

namespace CommandGrammar

/-- A node of a definition with everything below it. -/
structure NodeDefinition where
  name : String
  argument : Option ArgumentType
  /-- Without meaning for arguments. -/
  caseSensitive : Bool
  requires : Option String
  executes : Option (Signed 32)
  children : List NodeDefinition

structure TreeDefinition where
  version : String
  roots : List NodeDefinition

namespace NodeDefinition

def literal (name : String) : NodeDefinition := ⟨name, none, true, none, none, []⟩

def ofArgument (name : String) (type : ArgumentType) : NodeDefinition :=
  ⟨name, some type, true, none, none, []⟩

def withChild (d child : NodeDefinition) : NodeDefinition :=
  { d with children := d.children ++ [child] }

def withExecutes (d : NodeDefinition) (code : Signed 32) : NodeDefinition :=
  { d with executes := some code }

def withRequires (d : NodeDefinition) (permission : String) : NodeDefinition :=
  { d with requires := some permission }

section Compile

variable {Source : Type} [PermissionSource Source]

def header (d : NodeDefinition) : NodeHeader Source ArgumentValue where
  name := d.name
  kind := match d.argument with
    | none => .literal d.caseSensitive
    | some type => .argument (.ofType type)
  requirement := d.requires.map fun permission source =>
    PermissionSource.hasPermission source permission
  executor := d.executes.map fun code _ => .ok code

mutual

def compile : NodeDefinition → Node Source ArgumentValue
  | ⟨name, argument, caseSensitive, requires, executes, children⟩ =>
    Node.build (header ⟨name, argument, caseSensitive, requires, executes, []⟩) (compileAll children)

def compileAll : List NodeDefinition → List (Node Source ArgumentValue)
  | [] => []
  | d :: ds => compile d :: compileAll ds

end

end Compile

def sameArgument : Option ArgumentType → Option ArgumentType → Bool
  | none, none => true
  | some a, some b => a.same b
  | _, _ => false

mutual

/-- Equality, with numeric equality of bounds. -/
def same : NodeDefinition → NodeDefinition → Bool
  | ⟨name, argument, caseSensitive, requires, executes, children⟩,
    ⟨name', argument', caseSensitive', requires', executes', children'⟩ =>
    name == name' && sameArgument argument argument' && caseSensitive == caseSensitive'
      && requires == requires' && decide (executes = executes') && sameAll children children'

def sameAll : List NodeDefinition → List NodeDefinition → Bool
  | [], [] => true
  | d :: ds, d' :: ds' => d.same d' && sameAll ds ds'
  | _, _ => false

end

end NodeDefinition

namespace TreeDefinition

/-- Roots in the current version of the format. -/
def ofRoots (roots : List NodeDefinition) : TreeDefinition := ⟨"1.0", roots⟩

def same (d d' : TreeDefinition) : Bool :=
  d.version == d'.version && NodeDefinition.sameAll d.roots d'.roots

/-- The command trees of all roots; the first root with a fault decides. -/
def build {Source : Type} [PermissionSource Source] (d : TreeDefinition) :
    Except TreeFault (List (Node Source ArgumentValue)) :=
  go d.roots
where
  go : List NodeDefinition → Except TreeFault (List (Node Source ArgumentValue))
    | [] => .ok []
    | root :: roots =>
      let node := root.compile
      match node.fault? with
      | some fault => .error fault
      | none => (go roots).map (node :: ·)

end TreeDefinition

end CommandGrammar
