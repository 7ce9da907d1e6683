import CommandGrammar.Text.Quoted
import CommandGrammar.Tree.Node

/-!
# One-line descriptions

The fields of a node, its children by name only, for a log or a failed test.
-/

namespace CommandGrammar

def NodeKind.describe {Value : Type} : NodeKind Value → List Char
  | literal caseSensitive =>
    "Literal \x7b case_sensitive: ".toList ++ (toString caseSensitive).toList ++ " \x7d".toList
  | argument parser =>
    "Argument \x7b parser: ErasedParser \x7b value_type: ".toList
      ++ Text.quoted parser.typePath.toList ++ " \x7d \x7d".toList

def Node.describe {Source Value : Type} (n : Node Source Value) : List Char :=
  "CommandNode \x7b name: ".toList ++ Text.quoted n.name.toList
    ++ ", kind: ".toList ++ n.header.kind.describe
    ++ ", executable: ".toList ++ (toString n.isExecutable).toList
    ++ ", restricted: ".toList ++ (toString n.isRestricted).toList
    ++ ", children: [".toList
    ++ List.intercalate [',', ' '] (n.childNames.map fun name => Text.quoted name.toList)
    ++ "] \x7d".toList

/-- A value that a parser yields shows its type and hides what it is. -/
def Parser.describeValue {Value : Type} (p : Parser Value) : List Char :=
  "ParsedArgument \x7b type_name: ".toList ++ Text.quoted p.typePath.toList ++ ", .. \x7d".toList

end CommandGrammar
