import CommandGrammar.CommandLine.Run

/-!
# The program

Opens the file that a command asks for, runs the command and prints what it says.
-/

namespace CommandGrammar.CommandLine

/-- What a failed attempt to read a file says about it. A directory can be opened, and the failure
then names no file. -/
def openedOfError : IO.Error → Except IoError Entry
  | .noFileOrDirectory .. => .error .notFound
  | .inappropriateType none .. => .ok .directory
  | .inappropriateType (some _) .. => .error .notDirectory
  | e => .error (.other (toString e))

def openFile (path : String) : IO (Except IoError Entry) := do
  try
    return .ok (.file (← IO.FS.readBinFile path).toList)
  catch e => return openedOfError e

def usageText : String :=
  "usage: lex <int|long|float|double|bool|string> <input> [--cursor <offset>] [--format <json|yaml>]\n"
    ++ "       tree <file> [--as <permissions>] [--format <json|yaml>]\n"
    ++ "       paths <file> [--as <permissions>]\n"

end CommandGrammar.CommandLine

open CommandGrammar CommandLine

def main (arguments : List String) : IO UInt32 := do
  match Command.ofArguments arguments with
  | .error .usage =>
    (← IO.getStderr).putStr usageText
    return 2
  | .error .help =>
    (← IO.getStdout).putStr usageText
    return 0
  | .ok command =>
    let opened ← match command.file? with
      | some path => openFile path
      | none => pure (.error .notFound)
    let outcome := command.run opened
    (← IO.getStdout).putStr outcome.stdout
    (← IO.getStderr).putStr outcome.stderr
    return outcome.exit.toUInt32
