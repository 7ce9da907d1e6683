/-!
# Files

A working directory with everything in it, and what happens when a path is opened for reading or for
writing. Paths go through directories only. A trailing slash asks for a directory.
-/

namespace CommandGrammar

inductive IoError where
  | notFound
  | notDirectory
  | isDirectory
  | other (message : String)
deriving DecidableEq, Repr

def IoError.message : IoError → String
  | notFound => "No such file or directory (os error 2)"
  | notDirectory => "Not a directory (os error 20)"
  | isDirectory => "Is a directory (os error 21)"
  | other message => message

/-- What a path stands for. A directory can be opened and not be read. -/
inductive Entry where
  | file (bytes : List UInt8)
  | directory
deriving DecidableEq, Repr

/-- The files and directories below the working directory by the names that lead to them. -/
structure Files where
  entries : List (List String × Entry)

namespace Files

def empty : Files := ⟨[]⟩

/-- The working directory itself has the empty path. -/
def lookup (files : Files) : List String → Option Entry
  | [] => some .directory
  | names => files.entries.lookup names

/-- Puts a file or directory in its place and makes the directories on the way there. -/
def put (files : Files) (names : List String) (entry : Entry) : Files :=
  let above := (List.range names.length).map fun n => names.take n
  let missing := above.filter fun names => (files.lookup names).isNone
  ⟨(names, entry) :: missing.map (fun names => (names, .directory))
    ++ files.entries.filter fun e => e.1 != names⟩

/-- Follows the parts of a path from a place. -/
def walk (files : Files) (place : List String) : List String → Except IoError (List String)
  | [] => .ok place
  | part :: parts =>
    match files.lookup place with
    | none => .error .notFound
    | some (.file _) => .error .notDirectory
    | some .directory =>
      if part = "." then walk files place parts
      else if part = ".." then
        if place.isEmpty then .error .notFound else walk files place.dropLast parts
      else walk files (place ++ [part]) parts

/-- The parts of a path, and whether it ends with a slash. -/
def parts (path : String) : List String × Bool :=
  let pieces := (path.toList.splitOn '/').map String.ofList
  (pieces.filter fun piece => !piece.isEmpty, pieces.getLast? == some "")

/-- The names from the working directory that a path written in it leads through. -/
def namesOf (path : String) : List String := (parts path).1

/-- Opens a path for reading. Nothing is known outside the working directory. -/
def read (files : Files) (path : String) : Except IoError Entry := do
  if path.isEmpty || path.startsWith "/" then throw .notFound
  let (parts, slash) := parts path
  let place ← files.walk [] parts
  match files.lookup place with
  | none => throw .notFound
  | some (.file bytes) => if slash then throw .notDirectory else return .file bytes
  | some .directory => return .directory

def write (files : Files) (path : String) (bytes : List UInt8) : Except IoError Files := do
  if path.isEmpty || path.startsWith "/" then throw .notFound
  let (parts, slash) := parts path
  let parent ← files.walk [] parts.dropLast
  match files.lookup parent with
  | none => throw .notFound
  | some (.file _) => throw .notDirectory
  | some .directory =>
    match parts.getLast? with
    | none => throw .isDirectory
    | some name =>
      if slash || name = "." || name = ".." then throw .isDirectory
      let place := parent ++ [name]
      match files.lookup place with
      | some .directory => throw .isDirectory
      | _ => return files.put place (.file bytes)

end Files

end CommandGrammar
