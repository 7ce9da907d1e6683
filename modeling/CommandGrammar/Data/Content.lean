import CommandGrammar.Argument.Kind

/-!
# Content

A value from a text file before it is known what it should be, and the ways in which it can turn out
not to be that.
-/

namespace CommandGrammar

inductive Numeral where
  | natural (n : Nat)
  | negative (n : Nat)
  | float (x : Binary .double)
deriving DecidableEq, Repr

inductive Content where
  | null
  | bool (value : Bool)
  | number (value : Numeral)
  | text (value : String)
  | list (items : List Content)
  | map (entries : List (Content × Content))

inductive Found where
  | integer (n : Int)
  | float (x : Binary .double)
  | bool (value : Bool)
  | text (value : String)
  | null
  | list
  | map
deriving DecidableEq, Repr

/-- A value that is well formed and not of the shape asked for. -/
inductive ShapeFault where
  | missingField (name : String)
  | duplicateField (name : String)
  | unknownVariant (name : String) (known : List String)
  | invalidType (found : Found) (expected : String)
  /-- An integer out of range. -/
  | invalidValue (found : Found) (expected : String)
  | invalidLength (length : Nat) (expected : String)
  /-- A value of a type that has no name, and that none of the shapes fits. -/
  | noVariant (type : String)
deriving DecidableEq, Repr

def Numeral.found : Numeral → Found
  | natural n => .integer n
  | negative n => .integer (-n)
  | float x => .float x

def Content.found : Content → Found
  | null => .null
  | bool value => .bool value
  | number value => value.found
  | text value => .text value
  | list _ => .list
  | map _ => .map

namespace Numeral

/-- The number as an integer of fixed width. -/
def toSigned (bits : Nat) (expected : String) (n : Numeral) : Except ShapeFault (Signed bits) :=
  match n with
  | natural v =>
    match Signed.ofInt? bits v with
    | some s => .ok s
    | none => .error (.invalidValue n.found expected)
  | negative v =>
    match Signed.ofInt? bits (-v) with
    | some s => .ok s
    | none => .error (.invalidValue n.found expected)
  | float _ => .error (.invalidType n.found expected)

/-- The nearest binary number; an integer is rounded once. -/
def toBinary (f : BinaryFormat) : Numeral → Binary f
  | natural v => Binary.ofInt f v
  | negative v => { Binary.ofInt f v with negative := v != 0 }
  | float x => x.convert f

end Numeral

/-! ## Argument types -/

inductive ArgumentTag where
  | integer
  | long
  | float
  | double
  | bool
  | word
deriving DecidableEq, Repr

namespace ArgumentTag

def all : List (String × ArgumentTag) :=
  [("integer", integer), ("long", long), ("float", float), ("double", double), ("bool", bool),
    ("word", word)]

def ofName (name : String) : Except ShapeFault ArgumentTag :=
  match all.lookup name with
  | some tag => .ok tag
  | none => .error (.unknownVariant name (all.map Prod.fst))

end ArgumentTag

namespace ArgumentType

variable {α : Type}

/-- A bound; null stands for none. -/
def boundOfContent (decode : Numeral → Except ShapeFault α) (expected : String) :
    Content → Except ShapeFault (Option α)
  | .null => .ok none
  | .number n => (decode n).map some
  | content => .error (.invalidType content.found expected)

/-- Which bound a key names. Keys that are whole numbers count the bounds from zero. -/
def boundKey : Content → Except ShapeFault (Option Bool)
  | .text "min" => .ok (some false)
  | .text "max" => .ok (some true)
  | .text _ => .ok none
  | .number (.natural 0) => .ok (some false)
  | .number (.natural 1) => .ok (some true)
  | .number (.natural _) => .ok none
  | key => .error (.invalidType key.found "field identifier")

/-- The bounds among the entries of a map; a bound that was given may not be given again. -/
def boundsOfEntries (decode : Content → Except ShapeFault (Option α))
    (min max : Option (Option α)) : List (Content × Content) → Except ShapeFault (Bounds α)
  | [] => .ok ⟨min.join, max.join⟩
  | (key, value) :: entries => do
    match ← boundKey key with
    | none => boundsOfEntries decode min max entries
    | some false =>
      if min.isSome then throw (.duplicateField "min")
      boundsOfEntries decode (some (← decode value)) max entries
    | some true =>
      if max.isSome then throw (.duplicateField "max")
      boundsOfEntries decode min (some (← decode value)) entries

/-- The bounds in a map or in the order minimum, maximum. -/
def boundsOfContent (decode : Numeral → Except ShapeFault α) (expected : String) :
    Content → Except ShapeFault (Bounds α)
  | .map entries => boundsOfEntries (boundOfContent decode expected) none none entries
  | .list [] => .ok ⟨none, none⟩
  | .list [min] => return ⟨← boundOfContent decode expected min, none⟩
  | .list [min, max] =>
    return ⟨← boundOfContent decode expected min, ← boundOfContent decode expected max⟩
  | .list (min :: max :: more) => do
    let _ ← boundOfContent decode expected min
    let _ ← boundOfContent decode expected max
    throw (.invalidLength (2 + more.length) "2 elements in sequence")
  | content => .error (.invalidType content.found "bounds")

/-- A type without bounds takes any entries of a map, but no items of a list. -/
def unbounded (type : ArgumentType) : Content → Except ShapeFault ArgumentType
  | .list (item :: items) =>
    .error (.invalidLength (item :: items).length "0 elements in sequence")
  | _ => .ok type

/-- The type of a kind with the rest of its description. -/
def ofContent (tag : ArgumentTag) (content : Content) : Except ShapeFault ArgumentType :=
  match tag with
  | .integer => (boundsOfContent (Numeral.toSigned 32 "i32") "i32" content).map integer
  | .long => (boundsOfContent (Numeral.toSigned 64 "i64") "i64" content).map long
  | .float => (boundsOfContent (.ok ∘ Numeral.toBinary .single) "f32" content).map float
  | .double => (boundsOfContent (.ok ∘ Numeral.toBinary .double) "f64" content).map double
  | .bool => unbounded bool content
  | .word => unbounded word content

end ArgumentType

/-- The first kind that takes the content: integers by size, other numbers in single precision,
truth values, words. -/
def ArgumentValue.ofContent : Content → Except ShapeFault ArgumentValue
  | .number n =>
    match n.toSigned 32 "", n.toSigned 64 "" with
    | .ok v, _ => .ok (.integer v)
    | _, .ok v => .ok (.long v)
    | _, _ => .ok (.float (n.toBinary .single))
  | .bool value => .ok (.bool value)
  | .text value => .ok (.word value)
  | _ => .error (.noVariant "ArgumentValue")

end CommandGrammar
