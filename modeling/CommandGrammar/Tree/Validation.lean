import CommandGrammar.Text.Blank
import CommandGrammar.Tree.Node

/-!
# Validation

A tree can be built and still not work: a blank name, a keyword that no word of the input can spell,
or a branch that ends without running anything. Only the first fault is reported. A node comes
before the nodes below it, siblings come ascending by name.
-/

namespace CommandGrammar

/-- A fault and the names from the root to it. -/
inductive TreeFault where
  /-- The path is that of the parent. -/
  | emptyName (parent : List String)
  | unreadableLiteral (path : List String)
  | deadEnd (path : List String)
deriving DecidableEq, Repr

namespace TreeFault

def joinNames (names : List String) : String :=
  String.ofList (List.intercalate [' '] (names.map String.toList))

/-- The place of the fault; the root has no parent to name. -/
def path : TreeFault → String
  | emptyName [] => "<root>"
  | emptyName parent => joinNames parent
  | unreadableLiteral path => joinNames path
  | deadEnd path => joinNames path

def message (fault : TreeFault) : String :=
  match fault with
  | emptyName _ => "node name cannot be empty (under: " ++ fault.path ++ ")"
  | unreadableLiteral _ => "literal cannot be read as an unquoted word: " ++ fault.path
  | deadEnd _ => "non-executable leaf at path: " ++ fault.path

end TreeFault

namespace Node

variable {Source Value : Type}

/-- The fault of a node itself, which has `above` over it. -/
def ownFault? (above : List String) (n : Node Source Value) : Option TreeFault :=
  if Text.trim n.name.toList = [] then some (.emptyName above)
  else if n.isLiteral && !n.name.toList.all Reader.isWordChar then
    some (.unreadableLiteral (above ++ [n.name]))
  else if n.children.isEmpty && !n.isExecutable then some (.deadEnd (above ++ [n.name]))
  else none

mutual

/-- The first fault of each node under `above`, with the name of the node. -/
def faultBelow? (above : List String) : Node Source Value → Option TreeFault
  | ⟨h, children⟩ =>
    match ownFault? above ⟨h, children⟩ with
    | some fault => some fault
    | none =>
      (Text.sortByKey Prod.fst (faultsBelow (above ++ [h.name]) children)).findSome? Prod.snd

def faultsBelow (above : List String) :
    List (Node Source Value) → List (String × Option TreeFault)
  | [] => []
  | c :: children => (c.name, faultBelow? above c) :: faultsBelow above children

end

def fault? (root : Node Source Value) : Option TreeFault := root.faultBelow? []

end Node

end CommandGrammar
