import CommandGrammar.Number.Layout

/-!
# Data to be written

Values on their way into a text file. The fields of a record keep their order.
-/

namespace CommandGrammar

inductive Data where
  | bool (value : Bool)
  | integer (value : Int)
  | single (value : Binary .single)
  | double (value : Binary .double)
  | text (value : String)
  | list (items : List Data)
  | record (fields : List (String × Data))

namespace Data

/-- A field that is left out if there is no value for it. -/
def optional {α : Type} (name : String) (encode : α → Data) : Option α → List (String × Data)
  | some value => [(name, encode value)]
  | none => []

/-- A field that is left out if the list is empty. -/
def nonEmpty (name : String) (items : List Data) : List (String × Data) :=
  if items.isEmpty then [] else [(name, list items)]

end Data

end CommandGrammar
