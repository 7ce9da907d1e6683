import CommandGrammar.Reader.Typed

/-!
# Numbers within bounds

A number argument reads a number and accepts it between two bounds, both included. A number outside
them is refused with the reader put back to where it was.
-/

namespace CommandGrammar

structure Range (α : Type) where
  min : α
  max : α
deriving DecidableEq, Repr

namespace Range

variable {α : Type} [Numeric α]

/-- All numbers that are neither infinite nor undefined. -/
def full (α : Type) [Numeric α] : Range α := ⟨Numeric.lowest, Numeric.highest⟩

/-- Why a number is refused, the lower bound first. -/
def violation? (range : Range α) (value : α) : Option SyntaxError.Cause :=
  if Numeric.lt value range.min then some (.tooLow (toString value) (toString range.min))
  else if Numeric.lt range.max value then some (.tooHigh (toString value) (toString range.max))
  else none

def read (range : Range α) (r : Reader) : ReadResult α :=
  match r.number α with
  | (.error e, s) => (.error e, s)
  | (.ok value, s) =>
    match range.violation? value with
    | some cause => (.error ⟨cause, r⟩, r)
    | none => (.ok value, s)

end Range

end CommandGrammar
