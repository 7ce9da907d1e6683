import CommandGrammar.Argument.Range

/-!
# Kinds of argument

The arguments that a definition can ask for, the values that they read, and how they read them.
-/

namespace CommandGrammar

/-- The bounds that a definition gives; a missing one is the furthest finite number. -/
structure Bounds (α : Type) where
  min : Option α
  max : Option α
deriving DecidableEq, Repr

namespace Bounds

variable {α : Type}

def none : Bounds α := ⟨.none, .none⟩

def toRange [Numeric α] (bounds : Bounds α) : Range α :=
  ⟨bounds.min.getD Numeric.lowest, bounds.max.getD Numeric.highest⟩

end Bounds

inductive ArgumentType where
  | integer (bounds : Bounds (Signed 32))
  | long (bounds : Bounds (Signed 64))
  | float (bounds : Bounds (Binary .single))
  | double (bounds : Bounds (Binary .double))
  | bool
  | word
deriving DecidableEq, Repr

inductive ArgumentValue where
  | integer (value : Signed 32)
  | long (value : Signed 64)
  | float (value : Binary .single)
  | double (value : Binary .double)
  | bool (value : Bool)
  | word (value : String)
deriving DecidableEq, Repr

/-- Applies a function to the value of a read. -/
def ReadResult.map {α β : Type} (f : α → β) (result : ReadResult α) : ReadResult β :=
  (result.1.map f, result.2)

def Reader.nonEmptyWord (r : Reader) : ReadResult String :=
  let (w, s) := r.word
  if w = [] then (.error ⟨.expectedWord, s⟩, s) else (.ok (String.ofList w), s)

namespace ArgumentType

def name : ArgumentType → String
  | integer _ => "integer"
  | long _ => "long"
  | float _ => "float"
  | double _ => "double"
  | bool => "bool"
  | word => "word"

def read : ArgumentType → Reader → ReadResult ArgumentValue
  | integer bounds, r => (bounds.toRange.read r).map .integer
  | long bounds, r => (bounds.toRange.read r).map .long
  | float bounds, r => (bounds.toRange.read r).map .float
  | double bounds, r => (bounds.toRange.read r).map .double
  | bool, r => r.bool.map .bool
  | word, r => r.nonEmptyWord.map .word

/-- Equality up to the numeric equality of bounds, by which a bound that is no number differs from
itself. -/
def same : ArgumentType → ArgumentType → Bool
  | integer a, integer b => decide (a = b)
  | long a, long b => decide (a = b)
  | float a, float b => sameBound a.min b.min && sameBound a.max b.max
  | double a, double b => sameBound a.min b.min && sameBound a.max b.max
  | bool, bool => true
  | word, word => true
  | _, _ => false
where
  sameBound {f : BinaryFormat} : Option (Binary f) → Option (Binary f) → Bool
    | .none, .none => true
    | some x, some y => x.same y
    | _, _ => false

end ArgumentType

end CommandGrammar
