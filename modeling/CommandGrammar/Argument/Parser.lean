import CommandGrammar.Argument.Kind

/-!
# Parsers of argument nodes

Siblings in a tree may read values of different types. A node therefore keeps a parser that yields
values of one common type and remembers the name of the type that it was made for.
-/

namespace CommandGrammar

/-- A read with the full name of the type of its values. -/
structure Parser (Value : Type) where
  typePath : String
  read : Reader → ReadResult Value

namespace Parser

variable {Value Value' : Type}

/-- What follows the last `::` of a name. -/
def lastSegment (path : List Char) : List Char :=
  go path path
where
  go (best : List Char) : List Char → List Char
    | ':' :: ':' :: rest => go rest rest
    | _ :: rest => go best rest
    | [] => best

/-- The short name of the type: the last segment, unless the name has type arguments. -/
def typeName (p : Parser Value) : String :=
  if p.typePath.toList.contains '<' then p.typePath
  else String.ofList (lastSegment p.typePath.toList)

def map (f : Value → Value') (p : Parser Value) : Parser Value' :=
  ⟨p.typePath, fun r => (p.read r).map f⟩

def integer (range : Range (Signed 32)) : Parser ArgumentValue :=
  ⟨"i32", fun r => (range.read r).map .integer⟩

def long (range : Range (Signed 64)) : Parser ArgumentValue :=
  ⟨"i64", fun r => (range.read r).map .long⟩

def float (range : Range (Binary .single)) : Parser ArgumentValue :=
  ⟨"f32", fun r => (range.read r).map .float⟩

def double (range : Range (Binary .double)) : Parser ArgumentValue :=
  ⟨"f64", fun r => (range.read r).map .double⟩

def bool : Parser ArgumentValue := ⟨"bool", fun r => r.bool.map .bool⟩

def word : Parser ArgumentValue := ⟨"alloc::string::String", fun r => r.nonEmptyWord.map .word⟩

def ofType (type : ArgumentType) : Parser ArgumentValue :=
  ⟨"marshal_core::arguments::ArgumentValue", type.read⟩

end Parser

end CommandGrammar
