import CommandGrammar.Text.Blank

/-!
# Permissions

A set of permission names, kept ascending without repetition. It is read from a list between commas,
from whose entries blanks are cut off at both ends and the empty ones are left out.
-/

namespace CommandGrammar

class PermissionSource (Source : Type) where
  hasPermission : Source → String → Bool

/-- Granted permissions, ascending. -/
structure PermissionSet where
  names : List String
deriving DecidableEq, Repr, Inhabited

namespace PermissionSet

def empty : PermissionSet := ⟨[]⟩

/-- Puts a name in its place, unless it is there. -/
def insert (name : String) : List String → List String
  | [] => [name]
  | n :: names =>
    if name = n then n :: names
    else if name < n then name :: n :: names
    else n :: insert name names

def grant (p : PermissionSet) (name : String) : PermissionSet := ⟨insert name p.names⟩

def ofList (names : List String) : PermissionSet := names.foldl grant empty

def pieces : List Char → List (List Char)
  | [] => [[]]
  | c :: text =>
    if c = ',' then [] :: pieces text
    else match pieces text with
      | [] => [[c]]
      | piece :: rest => (c :: piece) :: rest

def ofCommaList (text : String) : PermissionSet :=
  ofList ((((pieces text.toList).map Text.trim).filter fun entry => !entry.isEmpty).map String.ofList)

instance : PermissionSource PermissionSet := ⟨fun p name => p.names.contains name⟩

end PermissionSet

end CommandGrammar
