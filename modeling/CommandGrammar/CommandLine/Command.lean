import CommandGrammar.CommandLine.Options
import CommandGrammar.Number.Digits
import CommandGrammar.Number.Power

/-!
# Commands

Three commands: `lex` runs one read on a text, `tree` shows the trees of a definition file, and
`paths` lists their executable paths.
-/

namespace CommandGrammar.CommandLine

inductive OutputFormat where
  | json
  | yaml
deriving DecidableEq, Repr

inductive LexKind where
  | int
  | long
  | float
  | double
  | bool
  | string
deriving DecidableEq, Repr

inductive Command where
  /-- Reads from a byte offset of a text. -/
  | lex (kind : LexKind) (input : String) (cursor : Nat) (format : OutputFormat)
  /-- Shows the trees of a file, or what the given permissions leave of them. -/
  | tree (file : String) (permissions : Option String) (format : OutputFormat)
  | paths (file : String) (permissions : Option String)
deriving DecidableEq, Repr

def Command.file? : Command → Option String
  | lex .. => none
  | tree file .. => some file
  | paths file _ => some file

def OutputFormat.ofName? : String → Option OutputFormat
  | "json" => some .json
  | "yaml" => some .yaml
  | _ => none

def LexKind.ofName? : String → Option LexKind
  | "int" => some .int
  | "long" => some .long
  | "float" => some .float
  | "double" => some .double
  | "bool" => some .bool
  | "string" => some .string
  | _ => none

/-- A byte offset of at most 64 bits behind an optional plus sign. -/
def offset? (text : String) : Option Nat :=
  let digits := match text.toList with
    | '+' :: digits => digits
    | digits => digits
  if digits.isEmpty || !digits.all Char.isDigit then none
  else
    let n := Digits.value digits
    if n < twoTo 64 then some n else none

def demand {α : Type} : Option α → Except Refusal α
  | some value => .ok value
  | none => .error .usage

def formatOf (g : Given) : Except Refusal OutputFormat :=
  match g.options.lookup "format" with
  | some name => demand (OutputFormat.ofName? name)
  | none => .ok .json

/-- A file name, which may not be empty. -/
def fileOf (g : Given) : Except Refusal String :=
  match g.positionals with
  | [file] => if file.isEmpty then .error .usage else .ok file
  | _ => .error .usage

def lexUsage : Usage := ⟨[false, true], ["cursor", "format"]⟩

def treeUsage : Usage := ⟨[false], ["as", "format"]⟩

def pathsUsage : Usage := ⟨[false], ["as"]⟩

def Command.ofLex (arguments : List String) : Except Refusal Command := do
  let g ← Given.takeAll lexUsage {} none arguments
  match g.positionals with
  | [kind, input] =>
    let kind ← demand (LexKind.ofName? kind)
    let cursor ← match g.options.lookup "cursor" with
      | some text => demand (offset? text)
      | none => .ok 0
    return .lex kind input cursor (← formatOf g)
  | _ => throw .usage

def Command.ofTree (arguments : List String) : Except Refusal Command := do
  let g ← Given.takeAll treeUsage {} none arguments
  return .tree (← fileOf g) (g.options.lookup "as") (← formatOf g)

def Command.ofPaths (arguments : List String) : Except Refusal Command := do
  let g ← Given.takeAll pathsUsage {} none arguments
  return .paths (← fileOf g) (g.options.lookup "as")

/-- The command behind the options that stand in front of it. -/
def Command.behind (g : Given) : List String → Except Refusal Command
  | [] => .error .usage
  | argument :: rest =>
    match Shape.ofArgument argument with
    | .separator => .error .usage
    | .long "verbose" none => do behind (← g.setVerbose) rest
    | .long "help" none => .error .help
    | .long _ _ => .error .usage
    | .short flags => do behind (← g.setFlags flags) rest
    | .plain =>
      match argument with
      | "lex" => ofLex rest
      | "tree" => ofTree rest
      | "paths" => ofPaths rest
      | "help" => .error .help
      | _ => .error .usage

def Command.ofArguments (arguments : List String) : Except Refusal Command :=
  Command.behind {} arguments

end CommandGrammar.CommandLine
