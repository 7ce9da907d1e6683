import CommandGrammar.Data.Content

/-!
# What a JSON text spells

A text is read into a tree even if it is malformed: the tree then ends where the text breaks off.
Whoever takes the tree apart in text order meets the break after everything that stands before it,
and so learns of the first fault of either sort, in the text or in its meaning.

Some faults count only where a value is used and not where it is skipped: a number too large to be
represented, and a string that names half of a surrogate pair.
-/

namespace CommandGrammar.Json

/-- Why a text is no JSON text: it is malformed, or it ends too early. -/
inductive Fault where
  | malformed
  | cutShort
deriving DecidableEq, Repr

/-- Where a text breaks off: the fault for a reader that uses the value, and for one that skips it. -/
structure Break where
  used : Fault
  skipped : Fault
deriving DecidableEq, Repr

def Break.of (fault : Fault) : Break := ⟨fault, fault⟩

/-- The values of a text up to its first break. -/
inductive Reading where
  | null
  | bool (value : Bool)
  | number (value : Except Fault Numeral)
  | string (value : Except Fault String)
  /-- Items, and the break unless the list is closed. -/
  | array (items : List Reading) (ending : Option Break)
  | object (members : List (Except Fault String × Reading)) (ending : Option Break)
  | broken (place : Break)

def skipSpace (text : List Char) : List Char := text.dropWhile Reader.isSpace

/-- The fault of a text that does not go on as it should. -/
def Fault.atRest (text : List Char) : Fault := if text.isEmpty then .cutShort else .malformed

/-- What follows the expected characters. -/
def expect : List Char → List Char → Except Fault (List Char)
  | [], text => .ok text
  | _ :: _, [] => .error .cutShort
  | c :: expected, d :: text => if c = d then expect expected text else .error .malformed

/-! ## Numbers -/

structure NumeralText where
  negative : Bool
  whole : List Char
  fraction : List Char
  /-- The sign and the digits of a power of ten. -/
  power : Option (Bool × List Char)
deriving DecidableEq, Repr

def scanDigits (text : List Char) : Except Fault (List Char × List Char) :=
  let digits := text.takeWhile Char.isDigit
  if digits.isEmpty then .error (.atRest text) else .ok (digits, text.dropWhile Char.isDigit)

/-- Digits of a whole number; only zero starts with a zero. -/
def scanWhole (text : List Char) : Except Fault (List Char × List Char) :=
  match text with
  | '0' :: rest =>
    match rest with
    | c :: _ => if c.isDigit then .error .malformed else .ok (['0'], rest)
    | [] => .ok (['0'], rest)
  | _ => scanDigits text

def scanFraction : List Char → Except Fault (List Char × List Char)
  | '.' :: text => scanDigits text
  | text => .ok ([], text)

def scanPower : List Char → Except Fault (Option (Bool × List Char) × List Char)
  | c :: text =>
    if c = 'e' ∨ c = 'E' then
      let (negative, rest) := Decimal.splitSign text
      (scanDigits rest).map fun (digits, rest) => (some (negative, digits), rest)
    else .ok (none, c :: text)
  | [] => .ok (none, [])

def scanNumeral (negative : Bool) (text : List Char) :
    Except Fault (NumeralText × List Char) := do
  let (whole, text) ← scanWhole text
  let (fraction, text) ← scanFraction text
  let (power, text) ← scanPower text
  return (⟨negative, whole, fraction, power⟩, text)

/-- Integers and significands go up to here. -/
def greatestNatural : Nat := twoTo 64 - 1

/-- Appends digits to a number as long as it stays in range, and counts them. -/
def accumulate (n used : Nat) : List Char → Nat × Nat
  | [] => (n, used)
  | c :: digits =>
    let n' := 10 * n + Digits.weight c
    if greatestNatural < n' then (n, used) else accumulate n' (used + 1) digits

/-- The power of ten nearest to `10 ^ k`. -/
def powerOfTen (k : Nat) : Binary .double := Binary.ofRatio .double false (tenTo k) 1

/-- A number times a power of ten, rounded at each of the steps of at most 308 places. There is no
result beyond the finite numbers. -/
def scale (x : Binary .double) (exponent : Int) : Option (Binary .double) :=
  if 308 < exponent then if x.isZero then some x else none
  else if 0 ≤ exponent then
    let y := x.mul (powerOfTen exponent.toNat)
    if y.isFinite then some y else none
  else if -308 ≤ exponent then some (x.div (powerOfTen (-exponent).toNat))
  else if x.isZero then some x
  else scale (x.div (powerOfTen 308)) (exponent + 308)
termination_by (-exponent).toNat

/-- Exponents are cut off at 32 bits. -/
def clampExponent (n : Int) : Int := max (-(twoTo 31 : Int)) (min (twoTo 31 - 1 : Int) n)

/-- The value of a numeral: an integer if it is written as one and in range, otherwise the binary
number that comes out of scaling as many digits as fit in 64 bits. -/
def NumeralText.value (t : NumeralText) : Except Fault Numeral :=
  let (head, used) := accumulate 0 0 t.whole
  let dropped := t.whole.length - used
  let (significand, shifted) := accumulate head 0 t.fraction
  let exponent : Int := dropped - shifted
  let float (exponent : Int) : Except Fault Numeral :=
    match scale (Binary.ofInt .double significand) exponent with
    | some x => .ok (.float { x with negative := t.negative })
    | none => .error .malformed
  match t.power with
  | some (negative, digits) =>
    let power := Digits.value digits
    if twoTo 31 ≤ power then
      if significand ≠ 0 ∧ !negative then .error .malformed
      else .ok (.float ⟨t.negative, 0⟩)
    else float (clampExponent (if negative then exponent - power else exponent + power))
  | none =>
    if t.fraction.isEmpty ∧ dropped = 0 then
      if !t.negative then .ok (.natural significand)
      else if significand = 0 ∨ twoTo 63 < significand then float 0
      else .ok (.negative significand)
    else float exponent

/-! ## Strings -/

/-- A character of a string, or the number in an escape with `u`. -/
inductive Unit16 where
  | char (c : Char)
  | code (n : Nat)
deriving DecidableEq, Repr

def hexValue? (c : Char) : Option Nat :=
  if c.isDigit then some (c.toNat - 48)
  else if 'a' ≤ c ∧ c ≤ 'f' then some (c.toNat - 87)
  else if 'A' ≤ c ∧ c ≤ 'F' then some (c.toNat - 55)
  else none

/-- The character that a backslash and a letter stand for. -/
def simpleEscape? : Char → Option Char
  | '"' => some '"'
  | '\\' => some '\\'
  | '/' => some '/'
  | 'b' => some '\x08'
  | 'f' => some '\x0c'
  | 'n' => some '\n'
  | 'r' => some '\r'
  | 't' => some '\t'
  | _ => none

/-- The units of a string behind its opening quote, and what follows the closing quote. -/
def scanUnits : List Char → List Unit16 × Except Fault (List Char)
  | [] => ([], .error .cutShort)
  | '"' :: text => ([], .ok text)
  | '\\' :: 'u' :: text =>
    match text with
    | a :: b :: c :: d :: rest =>
      match hexValue? a, hexValue? b, hexValue? c, hexValue? d with
      | some a, some b, some c, some d =>
        let (units, ending) := scanUnits rest
        (.code (((a * 16 + b) * 16 + c) * 16 + d) :: units, ending)
      | _, _, _, _ => ([], .error .malformed)
    | short => ([], .error (if Text.byteLength short < 4 then .cutShort else .malformed))
  | '\\' :: e :: text =>
    match simpleEscape? e with
    | some c =>
      let (units, ending) := scanUnits text
      (.char c :: units, ending)
    | none => ([], .error .malformed)
  | ['\\'] => ([], .error .cutShort)
  | c :: text =>
    if c.toNat < 32 then ([], .error .malformed)
    else
      let (units, ending) := scanUnits text
      (.char c :: units, ending)

def isHighSurrogate (n : Nat) : Bool := 0xD800 ≤ n && n ≤ 0xDBFF

def isLowSurrogate (n : Nat) : Bool := 0xDC00 ≤ n && n ≤ 0xDFFF

/-- The characters of a string whose units end with `ending`. Surrogates come in pairs. -/
def joinUnits (ending : Option Fault) : List Unit16 → Except Fault (List Char)
  | [] => match ending with
    | some fault => .error fault
    | none => .ok []
  | .char c :: units => (joinUnits ending units).map (c :: ·)
  | .code n :: units =>
    if isLowSurrogate n then .error .malformed
    else if isHighSurrogate n then
      match units with
      | [] => .error (ending.getD .malformed)
      | .code m :: units =>
        if isLowSurrogate m then
          let c := Char.ofNat (0x10000 + (n - 0xD800) * 0x400 + (m - 0xDC00))
          (joinUnits ending units).map (c :: ·)
        else .error .malformed
      | .char _ :: _ => .error .malformed
    else (joinUnits ending units).map (Char.ofNat n :: ·)

/-- The string behind an opening quote and what follows it, or the break. -/
def scanString (text : List Char) : Except Break (Except Fault String × List Char) :=
  let (units, ending) := scanUnits text
  match ending with
  | .ok rest => .ok ((joinUnits none units).map String.ofList, rest)
  | .error skipped =>
    match joinUnits (some skipped) units with
    | .error used => .error ⟨used, skipped⟩
    | .ok _ => .error (.of skipped)

/-! ## Values -/

/-- A value at its break. -/
def cut (b : Break) : Reading × Option (List Char) := (.broken b, none)

mutual

/-- The value that comes first, and what follows it unless the text breaks off. -/
def readValue : Nat → List Char → Reading × Option (List Char)
  | 0, _ => cut (.of .cutShort)
  | fuel + 1, text =>
    match skipSpace text with
    | [] => cut (.of .cutShort)
    | c :: rest =>
      if c = 'n' then keyword .null (expect ['u', 'l', 'l'] rest)
      else if c = 't' then keyword (.bool true) (expect ['r', 'u', 'e'] rest)
      else if c = 'f' then keyword (.bool false) (expect ['a', 'l', 's', 'e'] rest)
      else if c = '-' then number (scanNumeral true rest)
      else if c.isDigit then number (scanNumeral false (c :: rest))
      else if c = '"' then
        match scanString rest with
        | .ok (value, rest) => (.string value, some rest)
        | .error b => cut b
      else if c = '[' then
        match skipSpace rest with
        | ']' :: rest => (.array [] none, some rest)
        | [] => (.array [] (some (.of .cutShort)), none)
        | _ =>
          let (items, ending, rest) := readItems fuel rest
          (.array items ending, rest)
      else if c = '\x7b' then
        match skipSpace rest with
        | '\x7d' :: rest => (.object [] none, some rest)
        | _ =>
          let (members, ending, rest) := readMembers fuel rest
          (.object members ending, rest)
      else cut (.of .malformed)
where
  keyword (value : Reading) : Except Fault (List Char) → Reading × Option (List Char)
    | .ok rest => (value, some rest)
    | .error fault => cut (.of fault)
  number : Except Fault (NumeralText × List Char) → Reading × Option (List Char)
    | .ok (numeral, rest) => (.number numeral.value, some rest)
    | .error fault => cut (.of fault)

/-- The items up to the closing bracket, at least one. -/
def readItems : Nat → List Char → List Reading × Option Break × Option (List Char)
  | 0, _ => ([], some (.of .cutShort), none)
  | fuel + 1, text =>
    match readValue fuel text with
    | (item, none) => ([item], none, none)
    | (item, some rest) =>
      match skipSpace rest with
      | ',' :: rest =>
        let (items, ending, rest) := readItems fuel rest
        (item :: items, ending, rest)
      | ']' :: rest => ([item], none, some rest)
      | rest => ([item], some (.of (.atRest rest)), none)

/-- The members up to the closing brace, at least one. A member may break off before its key ends. -/
def readMembers : Nat → List Char →
    List (Except Fault String × Reading) × Option Break × Option (List Char)
  | 0, _ => ([], some (.of .cutShort), none)
  | fuel + 1, text =>
    match skipSpace text with
    | '"' :: rest =>
      match scanString rest with
      | .error b => ([(.error b.used, .broken b)], none, none)
      | .ok (key, rest) =>
        match skipSpace rest with
        | ':' :: rest =>
          match readValue fuel rest with
          | (value, none) => ([(key, value)], none, none)
          | (value, some rest) =>
            match skipSpace rest with
            | ',' :: rest =>
              let (members, ending, rest) := readMembers fuel rest
              ((key, value) :: members, ending, rest)
            | '\x7d' :: rest => ([(key, value)], none, some rest)
            | rest => ([(key, value)], some (.of (.atRest rest)), none)
        | rest => ([(key, .broken (.of (.atRest rest)))], none, none)
    | rest => ([(.error (.atRest rest), .broken (.of (.atRest rest)))], none, none)

end

/-- The value of a whole text, and the fault behind it if something follows. Two steps are taken at
most for each character. -/
def read (text : List Char) : Reading × Option Fault :=
  match readValue (2 * text.length + 2) text with
  | (value, none) => (value, none)
  | (value, some rest) => (value, if (skipSpace rest).isEmpty then none else some .malformed)

end CommandGrammar.Json
