/-!
# File formats

The format of a definition file follows from the extension of its name, upper or lower case.
-/

namespace CommandGrammar

inductive FileFormat where
  | yaml
  | json
deriving DecidableEq, Repr

namespace FileFormat

/-- The parts of a path between slashes, without empty parts and without single points behind the
first part. -/
def components (path : List Char) : List (List Char) :=
  match path.splitOn '/' with
  | [] => []
  | first :: rest =>
    (if first = [] then [] else [first]) ++ rest.filter fun part => !(part.isEmpty || part == ['.'])

/-- What follows the last point of a name, unless the name starts with that point. -/
def extension? (name : List Char) : Option (List Char) :=
  let tail := name.reverse.takeWhile (· != '.')
  if tail.length + 1 < name.length then some tail.reverse else none

/-- The last part of a path, if it names something in its directory. -/
def fileName? (path : List Char) : Option (List Char) :=
  match (components path).getLast? with
  | some name => if name = ['.'] || name = ['.', '.'] then none else some name
  | none => none

def ofPath? (path : String) : Option FileFormat := do
  let name ← fileName? path.toList
  let extension ← extension? name
  let lower := extension.map Char.toLower
  if lower = "yaml".toList || lower = "yml".toList then some .yaml
  else if lower = "json".toList then some .json
  else none

end FileFormat

end CommandGrammar
