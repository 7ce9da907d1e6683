/-!
# Arguments and options

Arguments are taken from left to right. Behind `--` all of them are positional. An option that takes
a value has it behind `=` or in the next argument. No option may be given twice. A positional
argument may be declared to start with a hyphen; then only the known options are not taken for it.
-/

namespace CommandGrammar.CommandLine

/-- Why arguments do not lead to a run. -/
inductive Refusal where
  | usage
  | help
deriving DecidableEq, Repr

/-- What a command takes, besides the flags for verbosity and for help. -/
structure Usage where
  /-- For each positional argument, whether it may start with a hyphen. -/
  positionals : List Bool
  options : List String

structure Given where
  verbose : Bool := false
  positionals : List String := []
  options : List (String × String) := []
deriving DecidableEq, Repr

namespace Given

def setVerbose (g : Given) : Except Refusal Given :=
  if g.verbose then .error .usage else .ok { g with verbose := true }

def setOption (g : Given) (name value : String) : Except Refusal Given :=
  if (g.options.lookup name).isSome then .error .usage
  else .ok { g with options := (name, value) :: g.options }

def append (g : Given) (usage : Usage) (value : String) : Except Refusal Given :=
  if g.positionals.length < usage.positionals.length then
    .ok { g with positionals := g.positionals ++ [value] }
  else .error .usage

/-- Whether the next positional argument may start with a hyphen. -/
def takesHyphens (g : Given) (usage : Usage) : Bool :=
  usage.positionals.getD g.positionals.length false

end Given

/-- What an argument is, as far as its form tells. -/
inductive Shape where
  | separator
  | long (name : String) (value : Option String)
  | short (flags : List Char)
  | plain

def Shape.ofArgument (argument : String) : Shape :=
  match argument.toList with
  | ['-', '-'] => .separator
  | '-' :: '-' :: text =>
    let name := text.takeWhile (· != '=')
    match text.drop name.length with
    | _ :: value => .long (String.ofList name) (some (String.ofList value))
    | [] => .long (String.ofList name) none
  | '-' :: c :: flags => .short (c :: flags)
  | _ => .plain

/-- Flags of one letter, one after the other. -/
def Given.setFlags (g : Given) : List Char → Except Refusal Given
  | [] => .ok g
  | 'v' :: flags => do (← g.setVerbose).setFlags flags
  | 'h' :: _ => .error .help
  | _ :: _ => .error .usage

/-- Takes an argument as the value of the option that waits for one, or else as positional. -/
def Given.take (g : Given) (usage : Usage) (waiting : Option String) (argument : String) :
    Except Refusal Given :=
  match waiting with
  | some name => g.setOption name argument
  | none => g.append usage argument

/-- Takes all arguments; `waiting` is an option that still needs its value. -/
def Given.takeAll (usage : Usage) (g : Given) (waiting : Option String) :
    List String → Except Refusal Given
  | [] => if waiting.isSome then .error .usage else .ok g
  | argument :: rest => do
    match Shape.ofArgument argument with
    | .separator =>
      if waiting.isSome then throw .usage
      rest.foldlM (fun g argument => g.append usage argument) g
    | .long name value =>
      if usage.options.contains name then
        if waiting.isSome then throw .usage
        match value with
        | some value => takeAll usage (← g.setOption name value) none rest
        | none =>
          if (g.options.lookup name).isSome then throw .usage
          takeAll usage g (some name) rest
      else if name = "verbose" && value.isNone then
        if waiting.isSome then throw .usage
        takeAll usage (← g.setVerbose) none rest
      else if name = "help" && value.isNone then throw .help
      else if name = "verbose" || name = "help" then throw .usage
      else if g.takesHyphens usage then takeAll usage (← g.take usage waiting argument) none rest
      else throw .usage
    | .short flags =>
      if g.takesHyphens usage && flags.any (fun c => !(c == 'v' || c == 'h')) then
        takeAll usage (← g.take usage waiting argument) none rest
      else if waiting.isSome then throw .usage
      else takeAll usage (← g.setFlags flags) none rest
    | .plain => takeAll usage (← g.take usage waiting argument) none rest

end CommandGrammar.CommandLine
