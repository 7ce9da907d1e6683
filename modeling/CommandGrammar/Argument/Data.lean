import CommandGrammar.Argument.Kind
import CommandGrammar.Data.Basic

/-!
# Arguments as data

An argument type is a record of its kind and of the bounds that it has; a value stands for itself.
-/

namespace CommandGrammar

def Bounds.toFields {α : Type} (encode : α → Data) (bounds : Bounds α) : List (String × Data) :=
  Data.optional "min" encode bounds.min ++ Data.optional "max" encode bounds.max

def ArgumentType.toData (type : ArgumentType) : Data :=
  .record (("kind", .text type.name) :: match type with
    | integer bounds => bounds.toFields fun n => .integer n.val
    | long bounds => bounds.toFields fun n => .integer n.val
    | float bounds => bounds.toFields .single
    | double bounds => bounds.toFields .double
    | bool => []
    | word => [])

def ArgumentValue.toData : ArgumentValue → Data
  | integer value => .integer value.val
  | long value => .integer value.val
  | float value => .single value
  | double value => .double value
  | bool value => .bool value
  | word value => .text value

end CommandGrammar
