import CommandGrammar.CommandLine.Command
import CommandGrammar.Definition.File
import CommandGrammar.Tree.SnapshotJson

/-!
# Runs

What a command prints is a function of the command, of what opening its file gives, and of what the
reader of the file says if it refuses it.
-/

namespace CommandGrammar.CommandLine

structure Outcome where
  exit : Nat
  stdout : String
  stderr : String
deriving DecidableEq, Repr

namespace Outcome

def success (output : List Char) : Outcome := ⟨0, String.ofList output, ""⟩

def failure (message : String) : Outcome := ⟨1, "", "error: " ++ message ++ "\n"⟩

end Outcome

/-- Data in the chosen format, one line feed at the end. -/
def render (data : Data) : OutputFormat → List Char
  | .json => data.pretty ++ ['\n']
  | .yaml => Text.trimRight data.yaml ++ ['\n']

/-- The read of each kind. Numbers have no bounds, and a word may be empty. -/
def LexKind.read : LexKind → Reader → ReadResult ArgumentValue
  | int, r => (r.number (Signed 32)).map .integer
  | long, r => (r.number (Signed 64)).map .long
  | float, r => (r.number (Binary .single)).map .float
  | double, r => (r.number (Binary .double)).map .double
  | bool, r => r.bool.map .bool
  | string, r => (.ok (.word (String.ofList r.word.1)), r.word.2)

/-- A value, the cursor behind it, the text that it was read from, and the text that is left. -/
def lexData (value : ArgumentValue) (start final : Reader) : Data :=
  .record [("value", value.toData), ("cursor", .integer final.cursor),
    ("read", .text (String.ofList (final.consumed.drop start.consumed.length))),
    ("remaining", .text (String.ofList final.remaining))]

def lex (kind : LexKind) (input : String) (cursor : Nat) (format : OutputFormat) : Outcome :=
  match (Reader.ofString input).moveTo cursor with
  | .error _ => .failure s!"--cursor {cursor} is not a character boundary of the input"
  | .ok r =>
    match kind.read r with
    | (.ok value, s) => .success (render (lexData value r s) format)
    | (.error e, _) => .failure (toString e ++ ": " ++ String.ofList e.context)

def loadRoots (file : String) (opened : Except IoError Entry) (complaint : Complaint) :
    Except String (List (Node PermissionSet ArgumentValue)) :=
  match TreeDefinition.load file opened with
  | .error e => .error ("Failed to load '" ++ file ++ "': " ++ e.message complaint)
  | .ok d =>
    match (d.buildRoots : Except _ (List (Node PermissionSet ArgumentValue))) with
    | .error e => .error ("Failed to build '" ++ file ++ "': " ++ e.message complaint)
    | .ok roots => .ok roots

/-- The shapes of trees, or of what a list of permissions leaves of them. -/
def snapshots (roots : List (Node PermissionSet ArgumentValue)) : Option String → List Snapshot
  | none => roots.map Snapshot.capture
  | some list => roots.filterMap (Snapshot.captureVisible (PermissionSet.ofCommaList list))

def tree (file : String) (permissions : Option String) (format : OutputFormat)
    (opened : Except IoError Entry) (complaint : Complaint) : Outcome :=
  match loadRoots file opened complaint with
  | .error message => .failure message
  | .ok roots =>
    .success (render (.list (Snapshot.toDataAll (snapshots roots permissions))) format)

/-- The executable paths of all trees, ascending, one to a line. -/
def paths (file : String) (permissions : Option String) (opened : Except IoError Entry)
    (complaint : Complaint) : Outcome :=
  match loadRoots file opened complaint with
  | .error message => .failure message
  | .ok roots =>
    .success ((Text.sort ((snapshots roots permissions).flatMap Snapshot.paths)).flatMap
      fun path => path.toList ++ ['\n'])

/-- Runs a command; `opened` is what opening its file gives. -/
def Command.run (opened : Except IoError Entry) (command : Command)
    (complaint : Complaint := .brief) : Outcome :=
  match command with
  | lex kind input cursor format => CommandLine.lex kind input cursor format
  | tree file permissions format => CommandLine.tree file permissions format opened complaint
  | paths file permissions => CommandLine.paths file permissions opened complaint

end CommandGrammar.CommandLine
