import CommandGrammar.Reader.Basic

/-!
# Syntax errors

What goes wrong while a token is read, and where: an error keeps the reader as it was when the
failure was seen. Its context is the end of the text before that place with a marker behind it.
-/

namespace CommandGrammar

/-- The kinds of number that can be read. -/
inductive NumberKind where
  | int
  | long
  | float
  | double
deriving DecidableEq, Repr

def NumberKind.noun : NumberKind → String
  | int => "int"
  | long => "long"
  | float => "float"
  | double => "double"

namespace SyntaxError

inductive Cause where
  /-- No digit where a number should start. -/
  | expectedNumber (kind : NumberKind)
  /-- A numeral without a value of its kind. -/
  | invalidNumber (kind : NumberKind)
  | expectedBool
  | expectedWord
  | tooLow (found least : String)
  | tooHigh (found greatest : String)
  /-- The complaint of a parser supplied from outside. -/
  | custom (message : String)
deriving DecidableEq, Repr

def Cause.message : Cause → String
  | expectedNumber kind => "Expected " ++ kind.noun
  | invalidNumber kind => "Invalid " ++ kind.noun
  | expectedBool => "Expected boolean"
  | expectedWord => "Expected word"
  | tooLow found least => "Value must not be less than " ++ least ++ ", found " ++ found
  | tooHigh found greatest => "Value must not be more than " ++ greatest ++ ", found " ++ found
  | custom message => message

end SyntaxError

/-- A failure and the reader at the place of it. -/
structure SyntaxError where
  cause : SyntaxError.Cause
  reader : Reader
deriving DecidableEq, Repr

namespace SyntaxError

/-- How many characters before the marker the context shows. -/
def contextLength : Nat := 10

def marker : List Char := "<--[HERE]".toList

/-- The last characters before the cursor and a marker; an ellipsis stands for what is left out. -/
def context (e : SyntaxError) : List Char :=
  (if contextLength < e.reader.before.length then ['.', '.', '.'] else [])
    ++ (e.reader.before.take contextLength).reverse ++ marker

def message (e : SyntaxError) : String := e.cause.message

def position (e : SyntaxError) : Nat := e.reader.cursor

instance : ToString SyntaxError := ⟨fun e => s!"{e.message} at position {e.position}"⟩

end SyntaxError

/-- Why an operation has no result: the input is rejected, or the caller asked for too much. -/
inductive Failure where
  | rejected (error : SyntaxError)
  | misuse (misuse : Misuse)
deriving DecidableEq, Repr

end CommandGrammar
