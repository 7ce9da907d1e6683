import CommandGrammar.Json.Decoding
import CommandGrammar.Tree.Snapshot

/-!
# Snapshots as JSON

Fields without a value and empty lists of children are left out.
-/

namespace CommandGrammar

open Json

namespace SnapshotKind

def name : SnapshotKind → String
  | literal => "literal"
  | argument => "argument"

def ofName (name : String) : Except ShapeFault SnapshotKind :=
  if name = "literal" then .ok .literal
  else if name = "argument" then .ok .argument
  else .error (.unknownVariant name ["literal", "argument"])

/-- A kind, as its name or as an object with the name for a key and nothing behind it. -/
def ofReading (depth : Nat) : Reading → Except Json.Error SnapshotKind
  | .string value => do ofShape (ofName (← ofText value))
  | .object members ending => do
    let _ ← enter depth
    match members with
    | [] =>
      Break.used? ending
      throw (.text .malformed)
    | (key, value) :: more =>
      let kind ← ofShape (ofName (← ofText key))
      match value with
      | .null =>
        if !more.isEmpty then throw (.text .malformed)
        Break.used? ending
        return kind
      | value => value.mismatch "unit"
  | .broken b => .error (.text b.used)
  | _ => .error (.text .malformed)

end SnapshotKind

namespace Snapshot

mutual

def toData : Snapshot → Data
  | ⟨h, children⟩ =>
    .record ([("name", .text h.name), ("kind", .text h.kind.name)]
      ++ Data.optional "case_sensitive" .bool h.caseSensitive
      ++ Data.optional "value_type" .text h.valueType
      ++ [("executable", .bool h.executable), ("restricted", .bool h.restricted)]
      ++ Data.nonEmpty "children" (toDataAll children))

def toDataAll : List Snapshot → List Data
  | [] => []
  | c :: children => c.toData :: toDataAll children

end

structure Fields where
  name : Option String := none
  kind : Option SnapshotKind := none
  caseSensitive : Option (Option Bool) := none
  valueType : Option (Option String) := none
  executable : Option Bool := none
  restricted : Option Bool := none
  children : Option (List Snapshot) := none

inductive Field where
  | name
  | kind
  | caseSensitive
  | valueType
  | executable
  | restricted
  | children
deriving DecidableEq, Repr

namespace Field

def all : List (String × Field) :=
  [("name", name), ("kind", kind), ("case_sensitive", caseSensitive), ("value_type", valueType),
    ("executable", executable), ("restricted", restricted), ("children", children)]

def isRequired : Field → Bool
  | name | kind | executable | restricted => true
  | caseSensitive | valueType | children => false

end Field

def recordType : RecordType where
  name := "NodeSnapshot"
  fields := Field.all.map fun (key, field) => (key, field.isRequired)

namespace Fields

def has (f : Fields) : Field → Bool
  | .name => f.name.isSome
  | .kind => f.kind.isSome
  | .caseSensitive => f.caseSensitive.isSome
  | .valueType => f.valueType.isSome
  | .executable => f.executable.isSome
  | .restricted => f.restricted.isSome
  | .children => f.children.isSome

def finish (f : Fields) : Except Json.Error Snapshot := do
  let name ← required "name" f.name
  let kind ← required "kind" f.kind
  let executable ← required "executable" f.executable
  let restricted ← required "restricted" f.restricted
  return ⟨⟨name, kind, f.caseSensitive.join, f.valueType.join, executable, restricted⟩,
    f.children.getD []⟩

end Fields

mutual

def ofReading (depth : Nat) : Reading → Except Json.Error Snapshot
  | .object members ending => do
    let depth ← enter depth
    let fields ← ofMembers depth {} members
    Break.used? ending
    fields.finish
  | .array items ending => do
    let depth ← enter depth
    let fields ← ofItems depth {} (Field.all.map Prod.snd) items
    recordType.endOfItems items.length ending
    fields.finish
  | r => r.mismatch "struct NodeSnapshot"

def ofMembers (depth : Nat) (f : Fields) :
    List (Except Fault String × Reading) → Except Json.Error Fields
  | [] => .ok f
  | (key, value) :: members => do
    let key ← ofText key
    match Field.all.lookup key with
    | none =>
      value.skip
      ofMembers depth f members
    | some field =>
      if f.has field then throw (.shape (.duplicateField key))
      let f ← setField depth f field value
      ofMembers depth f members

def ofItems (depth : Nat) (f : Fields) :
    List Field → List Reading → Except Json.Error Fields
  | _, [] => .ok f
  | [], _ :: _ => .error (.text .malformed)
  | field :: fields, item :: items => do
    let f ← setField depth f field item
    ofItems depth f fields items

def setField (depth : Nat) (f : Fields) : Field → Reading → Except Json.Error Fields
  | .children, .array items ending => do
    let depth ← enter depth
    let children ← ofReadings depth items
    Break.used? ending
    return { f with children := some children }
  | .children, r => r.mismatch "a sequence"
  | .name, r => return { f with name := some (← r.text) }
  | .kind, r => return { f with kind := some (← SnapshotKind.ofReading depth r) }
  | .caseSensitive, r => return { f with caseSensitive := some (← r.optional Reading.flag) }
  | .valueType, r => return { f with valueType := some (← r.optional Reading.text) }
  | .executable, r => return { f with executable := some (← r.flag) }
  | .restricted, r => return { f with restricted := some (← r.flag) }

def ofReadings (depth : Nat) : List Reading → Except Json.Error (List Snapshot)
  | [] => .ok []
  | item :: items => do
    let s ← ofReading depth item
    return s :: (← ofReadings depth items)

end

def ofJson (text : String) : Except Json.Error Snapshot :=
  decode (ofReading depthLimit) text.toList

end Snapshot

end CommandGrammar
