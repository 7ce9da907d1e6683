import CommandGrammar.Definition.Fields
import CommandGrammar.Json.Decoding

/-!
# Definitions from JSON
-/

namespace CommandGrammar

open Json

namespace NodeDefinition

def recordType : RecordType where
  name := "NodeDefinition"
  fields := Field.all.map fun (key, field) => (key, field == .name)

mutual

def ofReading (depth : Nat) : Reading → Except Json.Error NodeDefinition
  | .object members ending => do
    let depth ← enter depth
    let fields ← ofMembers depth {} members
    Break.used? ending
    required "name" fields.finish?
  | .array items ending => do
    let depth ← enter depth
    let fields ← ofItems depth {} (Field.all.map Prod.snd) items
    recordType.endOfItems items.length ending
    required "name" fields.finish?
  | r => r.mismatch "struct NodeDefinition"

def ofMembers (depth : Nat) (f : Fields) :
    List (Except Fault String × Reading) → Except Json.Error Fields
  | [] => .ok f
  | (key, value) :: members => do
    let key ← ofText key
    match Field.all.lookup key with
    | none =>
      value.skip
      ofMembers depth f members
    | some field =>
      if f.has field then throw (.shape (.duplicateField key))
      let f ← setField depth f field value
      ofMembers depth f members

def ofItems (depth : Nat) (f : Fields) :
    List Field → List Reading → Except Json.Error Fields
  | _, [] => .ok f
  | [], _ :: _ => .error (.text .malformed)
  | field :: fields, item :: items => do
    let f ← setField depth f field item
    ofItems depth f fields items

def setField (depth : Nat) (f : Fields) : Field → Reading → Except Json.Error Fields
  | .children, .array items ending => do
    let depth ← enter depth
    let children ← ofReadings depth items
    Break.used? ending
    return { f with children := some children }
  | .children, r => r.mismatch "a sequence"
  | .name, r => return { f with name := some (← r.text) }
  | .argument, r => return { f with argument := some (← r.optional (Reading.argumentType depth)) }
  | .caseSensitive, r => return { f with caseSensitive := some (← r.flag) }
  | .requires, r => return { f with requires := some (← r.optional Reading.text) }
  | .executes, r => return { f with executes := some (← r.optional Reading.integer) }

def ofReadings (depth : Nat) : List Reading → Except Json.Error (List NodeDefinition)
  | [] => .ok []
  | item :: items => do
    let d ← ofReading depth item
    return d :: (← ofReadings depth items)

end

end NodeDefinition

namespace TreeDefinition

def recordType : RecordType := ⟨"TreeConfig", [("version", true), ("roots", false)]⟩

def rootsOfReading (depth : Nat) : Reading → Except Json.Error (List NodeDefinition)
  | .array items ending => do
    let depth ← enter depth
    let roots ← NodeDefinition.ofReadings depth items
    Break.used? ending
    return roots
  | r => r.mismatch "a sequence"

def ofMembers (depth : Nat) (version : Option String) (roots : Option (List NodeDefinition)) :
    List (Except Fault String × Reading) →
      Except Json.Error (Option String × Option (List NodeDefinition))
  | [] => .ok (version, roots)
  | (key, value) :: members => do
    let key ← ofText key
    if key = "version" then
      if version.isSome then throw (.shape (.duplicateField key))
      ofMembers depth (some (← value.text)) roots members
    else if key = "roots" then
      if roots.isSome then throw (.shape (.duplicateField key))
      ofMembers depth version (some (← rootsOfReading depth value)) members
    else
      value.skip
      ofMembers depth version roots members

def ofReading (depth : Nat) : Reading → Except Json.Error TreeDefinition
  | .object members ending => do
    let depth ← enter depth
    let (version, roots) ← ofMembers depth none none members
    Break.used? ending
    return ⟨← required "version" version, roots.getD []⟩
  | .array items ending => do
    let depth ← enter depth
    match items with
    | [] =>
      recordType.endOfItems 0 ending
      throw (.text .malformed)
    | [version] =>
      let version ← version.text
      recordType.endOfItems 1 ending
      return ⟨version, []⟩
    | version :: roots :: more =>
      let version ← version.text
      let roots ← rootsOfReading depth roots
      if !more.isEmpty then throw (.text .malformed)
      recordType.endOfItems 2 ending
      return ⟨version, roots⟩
  | r => r.mismatch "struct TreeConfig"

def ofJson (text : String) : Except Json.Error TreeDefinition :=
  decode (ofReading depthLimit) text.toList

end TreeDefinition

end CommandGrammar
