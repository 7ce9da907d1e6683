import CommandGrammar.Definition.Basic

/-!
# The fields of a definition

What the record of a node consists of, in whatever format it is written.
-/

namespace CommandGrammar.NodeDefinition

structure Fields where
  name : Option String := none
  argument : Option (Option ArgumentType) := none
  caseSensitive : Option Bool := none
  requires : Option (Option String) := none
  executes : Option (Option (Signed 32)) := none
  children : Option (List NodeDefinition) := none

inductive Field where
  | name
  | argument
  | caseSensitive
  | requires
  | executes
  | children
deriving DecidableEq, Repr

namespace Field

def all : List (String × Field) :=
  [("name", name), ("argument", argument), ("case_sensitive", caseSensitive),
    ("requires", requires), ("executes", executes), ("children", children)]

end Field

namespace Fields

def has (f : Fields) : Field → Bool
  | .name => f.name.isSome
  | .argument => f.argument.isSome
  | .caseSensitive => f.caseSensitive.isSome
  | .requires => f.requires.isSome
  | .executes => f.executes.isSome
  | .children => f.children.isSome

/-- The node, with the usual values for fields that were not given; a name is needed. -/
def finish? (f : Fields) : Option NodeDefinition :=
  f.name.map fun name =>
    ⟨name, f.argument.join, f.caseSensitive.getD true, f.requires.join, f.executes.join,
      f.children.getD []⟩

end Fields

end CommandGrammar.NodeDefinition
