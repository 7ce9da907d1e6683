import CommandGrammar.Definition.Data
import CommandGrammar.Definition.Files
import CommandGrammar.Definition.Format
import CommandGrammar.Definition.Json
import CommandGrammar.Definition.Yaml
import CommandGrammar.Text.Decoding
import CommandGrammar.Yaml.Text

/-!
# Definition files

Loading, saving and building. The format is looked at before the file is opened.
-/

namespace CommandGrammar

/-- Why a definition cannot be loaded, saved or built. -/
inductive DefinitionError where
  | io (error : IoError)
  | json (error : Json.Error)
  /-- A JSON file that can be opened and not be read. -/
  | jsonUnreadable
  | yaml
  | unsupportedFormat (path : String)
  | invalidTree (fault : TreeFault)

/-- What the reader of a format says about a file that it refuses. The words are its own: they tell
the place and may depend on all of the file. -/
structure Complaint where
  json : Json.Error → String
  yaml : String

/-- What can be said without a reader's own words. -/
def Complaint.brief : Complaint where
  json
    | .shape fault => fault.message
    | .text .malformed => "malformed text"
    | .text .cutShort => "text ends too early"
  yaml := "no definition"

/-- The message, with what the reader has to say about a file that it refuses. -/
def DefinitionError.message (error : DefinitionError) (complaint : Complaint := .brief) : String :=
  match error with
  | io error => "I/O error: " ++ error.message
  | json error => "JSON error: " ++ complaint.json error
  | jsonUnreadable => "JSON error: " ++ IoError.isDirectory.message
  | yaml => "YAML error: " ++ complaint.yaml
  | unsupportedFormat path => "unsupported definition format: " ++ path
  | invalidTree fault => "invalid command tree: " ++ fault.message

namespace Json

/-- A private character that a text does not have. -/
def standIn (text : List (Option Char)) : Char :=
  ((List.range 6400).map fun n => Char.ofNat (0xE000 + n)).find? (fun c => !text.contains (some c))
    |>.getD '\uE000'

namespace Reading

/-- A string is malformed if it has the character in it that stands for bytes outside the text. -/
def rejectText (hole : Char) : Except Fault String → Except Fault String
  | .ok text => if text.toList.contains hole then .error .malformed else .ok text
  | .error fault => .error fault

mutual

/-- The same with strings that have the character in them malformed. -/
def reject (hole : Char) : Reading → Reading
  | string value => string (rejectText hole value)
  | array items ending => array (rejectItems hole items) ending
  | object members ending => object (rejectMembers hole members) ending
  | r => r

def rejectItems (hole : Char) : List Reading → List Reading
  | [] => []
  | item :: items => item.reject hole :: rejectItems hole items

def rejectMembers (hole : Char) :
    List (Except Fault String × Reading) → List (Except Fault String × Reading)
  | [] => []
  | (key, value) :: members => (rejectText hole key, value.reject hole) :: rejectMembers hole members

end

end Reading

end Json

namespace TreeDefinition

/-- A definition from the bytes of a JSON file. Bytes that belong to no character are a fault of the
string that they are in, which matters only if the string is used. -/
def ofJsonBytes (bytes : List UInt8) : Except Json.Error TreeDefinition :=
  let text := Text.decodeBytes bytes
  let hole := Json.standIn text
  Json.decode (fun r => ofReading Json.depthLimit (r.reject hole)) (text.map (·.getD hole))

def ofYaml (text : String) : Except DefinitionError TreeDefinition :=
  match ofYaml? text.toList with
  | some d => .ok d
  | none => .error .yaml

/-- Loads a file of the given name; `opened` is what opening it gives. -/
def load (path : String) (opened : Except IoError Entry) : Except DefinitionError TreeDefinition :=
  match FileFormat.ofPath? path with
  | none => .error (.unsupportedFormat path)
  | some format =>
    match opened, format with
    | .error error, _ => .error (.io error)
    | .ok .directory, .json => .error .jsonUnreadable
    | .ok .directory, .yaml => .error .yaml
    | .ok (.file bytes), .json =>
      match ofJsonBytes bytes with
      | .ok d => .ok d
      | .error error => .error (.json error)
    | .ok (.file bytes), .yaml =>
      match (Text.ofBytes? bytes).bind ofYaml? with
      | some d => .ok d
      | none => .error .yaml

def render (d : TreeDefinition) : FileFormat → List Char
  | .json => d.toData.pretty
  | .yaml => d.toData.yaml

def save (d : TreeDefinition) (files : Files) (path : String) : Except DefinitionError Files :=
  match FileFormat.ofPath? path with
  | none => .error (.unsupportedFormat path)
  | some format =>
    match files.write path (String.ofList (d.render format)).toUTF8.toList with
    | .ok files => .ok files
    | .error error => .error (.io error)

def buildRoots {Source : Type} [PermissionSource Source] (d : TreeDefinition) :
    Except DefinitionError (List (Node Source ArgumentValue)) :=
  match (d.build : Except TreeFault (List (Node Source ArgumentValue))) with
  | .ok roots => .ok roots
  | .error fault => .error (.invalidTree fault)

end TreeDefinition

end CommandGrammar
