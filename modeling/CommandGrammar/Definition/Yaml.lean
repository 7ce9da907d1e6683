import CommandGrammar.Definition.Fields
import CommandGrammar.Yaml.Decoding

/-!
# Definitions from YAML
-/

namespace CommandGrammar

open Yaml

namespace NodeDefinition

variable (d : Document)

/-- Adds the value of a field, in a record that collections may be nested in to the given depth. -/
def addField (depth : Nat) (children : Yaml.Node Nat → Document.Decoder (List NodeDefinition))
    (f : Fields) (field : Field) (value : Yaml.Node Nat) : Document.Decoder Fields := do
  if f.has field then failure
  match field with
  | .name => return { f with name := some (← d.text value) }
  | .argument => return { f with argument := some (← d.optional (d.argumentType depth) value) }
  | .caseSensitive => return { f with caseSensitive := some (← d.flag value) }
  | .requires => return { f with requires := some (← d.optional d.text value) }
  | .executes => return { f with executes := some (← d.optional d.integer value) }
  | .children => return { f with children := some (← children value) }

mutual

/-- A node; fields of other names are passed over. -/
def ofYaml : Nat → Yaml.Node Nat → Document.Decoder NodeDefinition
  | 0, _ => failure
  | depth + 1, n => do
    match ← d.follow n with
    | .mapping _ entries =>
      let fields ← entries.foldlM (fun f (key, value) => do
        match Field.all.lookup (← d.text key) with
        | none => return f
        | some field => addField d depth (allOfYaml depth) f field value) {}
      fun followed => fields.finish?.map (·, followed)
    | _ => failure

/-- The nodes of a sequence; an empty scalar stands for none. -/
def allOfYaml : Nat → Yaml.Node Nat → Document.Decoder (List NodeDefinition)
  | depth, n => do
    match ← d.follow n with
    | .scalar _ .plain [] => return []
    | .sequence _ items =>
      match depth with
      | 0 => failure
      | depth + 1 => items.mapM (ofYaml depth)
    | _ => failure

end

end NodeDefinition

namespace TreeDefinition

/-- Reads the entries of a file behind those that gave a version and roots. -/
def ofEntries (d : Document) (depth : Nat) (version : Option String)
    (roots : Option (List NodeDefinition)) :
    List (Yaml.Node Nat × Yaml.Node Nat) → Document.Decoder TreeDefinition
  | [] => fun followed => version.map fun version => (⟨version, roots.getD []⟩, followed)
  | (key, value) :: entries => do
    let key ← d.text key
    if key = "version" then
      if version.isSome then failure
      ofEntries d depth (some (← d.text value)) roots entries
    else if key = "roots" then
      if roots.isSome then failure
      ofEntries d depth version (some (← NodeDefinition.allOfYaml d depth value)) entries
    else ofEntries d depth version roots entries

def ofYaml? (text : List Char) : Option TreeDefinition := do
  let d ← Document.ofText? text
  let decode : Document.Decoder TreeDefinition := do
    match ← d.follow d.root with
    | .mapping _ entries => ofEntries d (depthLimit - 1) none none entries
    | _ => failure
  return (← decode 0).1

end TreeDefinition

end CommandGrammar
