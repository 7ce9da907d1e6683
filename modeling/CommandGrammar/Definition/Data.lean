import CommandGrammar.Argument.Data
import CommandGrammar.Definition.Basic

/-!
# Definitions as data

Fields that have their usual value are left out, the roots of a file excepted.
-/

namespace CommandGrammar

namespace NodeDefinition

mutual

def toData : NodeDefinition → Data
  | ⟨name, argument, caseSensitive, requires, executes, children⟩ =>
    .record (("name", .text name)
      :: Data.optional "argument" ArgumentType.toData argument
      ++ (if caseSensitive then [] else [("case_sensitive", .bool false)])
      ++ Data.optional "requires" .text requires
      ++ Data.optional "executes" (fun code => .integer code.val) executes
      ++ Data.nonEmpty "children" (toDataAll children))

def toDataAll : List NodeDefinition → List Data
  | [] => []
  | d :: ds => d.toData :: toDataAll ds

end

end NodeDefinition

def TreeDefinition.toData (d : TreeDefinition) : Data :=
  .record [("version", .text d.version), ("roots", .list (NodeDefinition.toDataAll d.roots))]

end CommandGrammar
