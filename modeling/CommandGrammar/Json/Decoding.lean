import CommandGrammar.Json.Reading
import CommandGrammar.Json.Text
import CommandGrammar.Text.Quoted

/-!
# Values from JSON

How the values of a text are taken for what is expected in their place. The first fault in text order
is reported. Lists and objects that are used may be nested up to a limit; what is skipped may not be
malformed, and is not looked at otherwise.
-/

namespace CommandGrammar.Json

/-- Why a text does not give a value. -/
inductive Error where
  | text (fault : Fault)
  | shape (fault : ShapeFault)
deriving DecidableEq, Repr

end Json

namespace Found

/-- What was found, numbers as JSON writes them. -/
def describe : Found → String
  | integer n => "integer `" ++ String.ofList (Digits.ofInt n) ++ "`"
  | float x => "floating point `" ++ String.ofList (Json.doubleLayout.render x) ++ "`"
  | bool value => "boolean `" ++ toString value ++ "`"
  | text value => "string " ++ String.ofList (Text.quoted value.toList)
  | null => "null"
  | list => "sequence"
  | map => "map"

end Found

namespace ShapeFault

/-- Names in back quotes, two joined by `or`, more as a list. -/
def alternatives (names : List String) : String :=
  match names.map fun name => "`" ++ name ++ "`" with
  | [] => "there are no variants"
  | [a] => "expected " ++ a
  | [a, b] => "expected " ++ a ++ " or " ++ b
  | many => "expected one of " ++ String.ofList (List.intercalate [',', ' '] (many.map String.toList))

def message : ShapeFault → String
  | missingField name => "missing field `" ++ name ++ "`"
  | duplicateField name => "duplicate field `" ++ name ++ "`"
  | unknownVariant name known => "unknown variant `" ++ name ++ "`, " ++ alternatives known
  | invalidType found expected => "invalid type: " ++ found.describe ++ ", expected " ++ expected
  | invalidValue found expected => "invalid value: " ++ found.describe ++ ", expected " ++ expected
  | invalidLength length expected =>
    "invalid length " ++ toString length ++ ", expected " ++ expected
  | noVariant type => "data did not match any variant of untagged enum " ++ type

end ShapeFault

namespace Json

/-- How deep lists and objects may be nested. -/
def depthLimit : Nat := 127

/-- Inside one more list or object. -/
def enter : Nat → Except Error Nat
  | 0 => .error (.text .malformed)
  | depth + 1 => .ok depth

def Break.used? : Option Break → Except Error PUnit
  | some b => .error (.text b.used)
  | none => .ok ⟨⟩

def ofShape {α : Type} : Except ShapeFault α → Except Error α
  | .ok value => .ok value
  | .error fault => .error (.shape fault)

def ofText {α : Type} : Except Fault α → Except Error α
  | .ok value => .ok value
  | .error fault => .error (.text fault)

namespace Reading

mutual

/-- The fault in a value that is skipped. -/
def skip : Reading → Except Error PUnit
  | null => .ok ⟨⟩
  | bool _ => .ok ⟨⟩
  | number _ => .ok ⟨⟩
  | string _ => .ok ⟨⟩
  | array items ending => do
    skipItems items
    match ending with
    | some b => throw (.text b.skipped)
    | none => return ⟨⟩
  | object members ending => do
    skipMembers members
    match ending with
    | some b => throw (.text b.skipped)
    | none => return ⟨⟩
  | broken b => .error (.text b.skipped)

def skipItems : List Reading → Except Error PUnit
  | [] => .ok ⟨⟩
  | item :: items => do
    item.skip
    skipItems items

def skipMembers : List (Except Fault String × Reading) → Except Error PUnit
  | [] => .ok ⟨⟩
  | (_, value) :: members => do
    value.skip
    skipMembers members

end

mutual

def content (depth : Nat) : Reading → Except Error Content
  | null => .ok .null
  | bool value => .ok (.bool value)
  | number value => return .number (← ofText value)
  | string value => return .text (← ofText value)
  | array items ending => do
    let depth ← enter depth
    let items ← contentItems depth items
    Break.used? ending
    return .list items
  | object members ending => do
    let depth ← enter depth
    let entries ← contentMembers depth members
    Break.used? ending
    return .map entries
  | broken b => .error (.text b.used)

def contentItems (depth : Nat) : List Reading → Except Error (List Content)
  | [] => .ok []
  | item :: items => do
    let item ← item.content depth
    return item :: (← contentItems depth items)

def contentMembers (depth : Nat) :
    List (Except Fault String × Reading) → Except Error (List (Content × Content))
  | [] => .ok []
  | (key, value) :: members => do
    let key ← ofText key
    let value ← value.content depth
    return (.text key, value) :: (← contentMembers depth members)

end

/-- What the value is; lists and objects are not read for this. -/
def found : Reading → Except Error Found
  | null => .ok .null
  | bool value => .ok (.bool value)
  | number value => return (← ofText value).found
  | string value => return .text (← ofText value)
  | array _ _ => .ok .list
  | object _ _ => .ok .map
  | broken b => .error (.text b.used)

/-- The fault of a value that is not what is expected. -/
def mismatch {α : Type} (expected : String) (r : Reading) : Except Error α := do
  throw (.shape (.invalidType (← r.found) expected))

def text : Reading → Except Error String
  | string value => ofText value
  | r => r.mismatch "a string"

def flag : Reading → Except Error Bool
  | bool value => .ok value
  | r => r.mismatch "a boolean"

def integer : Reading → Except Error (Signed 32)
  | number value => do ofShape ((← ofText value).toSigned 32 "i32")
  | r => r.mismatch "i32"

/-- Null for none. -/
def optional {α : Type} (decode : Reading → Except Error α) : Reading → Except Error (Option α)
  | null => .ok none
  | r => (decode r).map some

/-- A name in a place where only some are known. -/
def name : Reading → Except Error String
  | string value => ofText value
  | r => r.mismatch "variant identifier"

/-- The members of an argument type: its kind, wherever it stands, and all others. -/
def tagged (depth : Nat) (tag : Option ArgumentTag) (entries : List (Content × Content)) :
    List (Except Fault String × Reading) →
      Except Error (Option ArgumentTag × List (Content × Content))
  | [] => .ok (tag, entries.reverse)
  | (key, value) :: members => do
    let key ← ofText key
    if key = "kind" then
      if tag.isSome then throw (.shape (.duplicateField "kind"))
      let tag ← ofShape (ArgumentTag.ofName (← value.name))
      tagged depth (some tag) entries members
    else
      let value ← value.content depth
      tagged depth tag ((.text key, value) :: entries) members

/-- An argument type, as an object with a kind or as a list that starts with one. Its description is
read to the end before it is looked at. -/
def argumentType (depth : Nat) : Reading → Except Error ArgumentType
  | object members ending => do
    let depth ← enter depth
    let (tag, entries) ← tagged depth none [] members
    Break.used? ending
    match tag with
    | some tag => ofShape (ArgumentType.ofContent tag (.map entries))
    | none => throw (.shape (.missingField "kind"))
  | array items ending => do
    let depth ← enter depth
    match items with
    | [] =>
      Break.used? ending
      throw (.shape (.missingField "kind"))
    | item :: items =>
      let tag ← ofShape (ArgumentTag.ofName (← item.name))
      let items ← contentItems depth items
      Break.used? ending
      ofShape (ArgumentType.ofContent tag (.list items))
  | r => r.mismatch "internally tagged enum ArgumentType"

def argumentValue (r : Reading) : Except Error ArgumentValue := do
  ofShape (ArgumentValue.ofContent (← r.content depthLimit))

end Reading

/-! ## Records

A record is an object or a list of its fields in order. Fields that need not be there may be missing,
in a list only behind the last one given.
-/

/-- The fields of a record in order, with those that have to be there. -/
structure RecordType where
  name : String
  fields : List (String × Bool)

/-- How many of the fields a list may end after is too few: the place of the first field that is
missing there. -/
def RecordType.endOfItems (type : RecordType) (given : Nat) (ending : Option Break) :
    Except Error PUnit := do
  Break.used? ending
  match (type.fields.drop given).findIdx? Prod.snd with
  | some missing =>
    throw (.shape (.invalidLength (given + missing)
      s!"struct {type.name} with {type.fields.length} elements"))
  | none => return ⟨⟩

def required {α : Type} (name : String) : Option α → Except Error α
  | some value => .ok value
  | none => .error (.shape (.missingField name))

def decode {α : Type} (decodeValue : Reading → Except Error α) (text : List Char) :
    Except Error α := do
  let (value, trailing) := read text
  let result ← decodeValue value
  match trailing with
  | some fault => throw (.text fault)
  | none => return result

end Json

def ArgumentType.ofJson (text : String) : Except Json.Error ArgumentType :=
  Json.decode (Json.Reading.argumentType Json.depthLimit) text.toList

def ArgumentValue.ofJson (text : String) : Except Json.Error ArgumentValue :=
  Json.decode Json.Reading.argumentValue text.toList

end CommandGrammar
