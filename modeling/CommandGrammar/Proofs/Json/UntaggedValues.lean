import CommandGrammar.Argument.Data
import CommandGrammar.Proofs.Json.Arguments
import CommandGrammar.Proofs.Reader.IntegerReads

/-!
# Values without a tag

The text of a value does not say which kind of value it is. Whoever reads it back tries the kinds
one after the other, and the first that takes what is there decides. So an integer of 64 bits that
fits in 32 comes back with 32, written in the same way, and no number is left for double precision.
-/

namespace CommandGrammar

open Json

/-! ### One kind after the other -/

/-- The integer that a numeral is, unless it has a fraction or a power of ten. -/
def Numeral.toInt? : Numeral → Option Int
  | natural n => some n
  | negative n => some (-n)
  | float _ => none

theorem Numeral.toInt?_ofInt (n : Int) : (ofInt n).toInt? = some n := by
  cases n <;> rfl

theorem Numeral.toSigned_eq (bits : Nat) (expected : String) (n : Numeral) :
    (n.toSigned bits expected).toOption = n.toInt?.bind (Signed.ofInt? bits) := by
  cases n with
  | natural v =>
      rw [toSigned, toInt?, Option.bind_some]
      cases Signed.ofInt? bits v <;> rfl
  | negative v =>
      rw [toSigned, toInt?, Option.bind_some]
      cases Signed.ofInt? bits (-v) <;> rfl
  | float x => rfl

namespace Content

/-- An integer that fits in the given bits. -/
def signed? (bits : Nat) : Content → Option (Signed bits)
  | number n => n.toInt?.bind (Signed.ofInt? bits)
  | _ => none

/-- Any number, rounded to the format. -/
def binary? (f : BinaryFormat) : Content → Option (Binary f)
  | number n => some (n.toBinary f)
  | _ => none

def bool? : Content → Option Bool
  | bool value => some value
  | _ => none

def text? : Content → Option String
  | text value => some value
  | _ => none

end Content

namespace ArgumentValue

/-- What each kind makes of the content, in the order in which the kinds are tried. -/
def candidates (content : Content) : List (Option ArgumentValue) :=
  [(content.signed? 32).map integer, (content.signed? 64).map long,
    (content.binary? .single).map float, (content.binary? .double).map double,
    content.bool?.map bool, content.text?.map word]

/-- The value that the first kind makes of the content, of those that take it. -/
def first? (content : Content) : Option ArgumentValue := (candidates content).findSome? id

theorem ofContent_eq (content : Content) :
    ofContent content = (first? content).elim (.error (.noVariant "ArgumentValue")) .ok := by
  cases content with
  | number n =>
      have hint := Numeral.toSigned_eq 32 "" n
      have hlong := Numeral.toSigned_eq 64 "" n
      rw [ofContent, first?, candidates, Content.signed?, Content.signed?, ← hint, ← hlong]
      cases n.toSigned 32 "" <;> cases n.toSigned 64 "" <;> rfl
  | _ => rfl

/-- No number comes past single precision. -/
theorem first?_ne_double (content : Content) (x : Binary .double) :
    first? content ≠ some (double x) := by
  cases content with
  | number n =>
      rw [first?, candidates]
      cases (Content.number n).signed? 32 <;> cases (Content.number n).signed? 64 <;>
        simp [Content.binary?]
  | _ => simp [first?, candidates, Content.signed?, Content.binary?, Content.bool?, Content.text?]

/-! ### Integers -/

theorem signed?_ofInt (bits : Nat) (n : Int) :
    (Content.number (Numeral.ofInt n)).signed? bits = Signed.ofInt? bits n := by
  rw [Content.signed?, Numeral.toInt?_ofInt, Option.bind_some]

theorem ofContent_of_fits {m : Signed 32} {n : Int} (h : m.val = n) :
    ofContent (.number (Numeral.ofInt n)) = .ok (.integer m) := by
  rw [ofContent_eq, first?, candidates, signed?_ofInt, ← h, Signed.ofInt?_val]
  rfl

theorem ofContent_of_wide {n : Signed 64} (h : ¬(-2 ^ 31 ≤ n.val ∧ n.val ≤ 2 ^ 31 - 1)) :
    ofContent (.number (Numeral.ofInt n.val)) = .ok (.long n) := by
  have hnone : Signed.ofInt? 32 n.val = none := by
    rw [Option.eq_none_iff_forall_ne_some]
    exact fun m hm => h (Signed.exists_val_eq_iff.mp ⟨m, Signed.ofInt?_eq_some_iff.mp hm⟩)
  rw [ofContent_eq, first?, candidates, signed?_ofInt, hnone, signed?_ofInt, Signed.ofInt?_val]
  rfl

/-! ### Texts of values -/

/-- Either text of the first value is decoded as the second one, and this is written as it was. -/
structure ComesBackAs (v w : ArgumentValue) : Prop where
  compact : ofJson (String.ofList v.toData.compact) = .ok w
  pretty : ofJson (String.ofList v.toData.pretty) = .ok w
  compact_eq : w.toData.compact = v.toData.compact
  pretty_eq : w.toData.pretty = v.toData.pretty

theorem comesBackAs_of_content {v w : ArgumentValue} {content : Content}
    (hreadable : v.toData.Readable) (hcontent : v.toData.reading.content depthLimit = .ok content)
    (hvalue : ofContent content = .ok w) (hdata : w.toData = v.toData) : v.ComesBackAs w := by
  have hreading : Reading.argumentValue v.toData.reading = .ok w := by
    rw [Reading.argumentValue, hcontent, ok_bind, hvalue]
    rfl
  obtain ⟨hcompact, hpretty⟩ := Data.decode_compact_and_pretty hreadable Reading.argumentValue
  refine ⟨?_, ?_, by rw [hdata], by rw [hdata]⟩
  · rw [ofJson, String.toList_ofList, hcompact, hreading]
  · rw [ofJson, String.toList_ofList, hpretty, hreading]

theorem comesBackAs_of_integer {bits : Nat} (hbits : signedBound bits ≤ twoTo 63) {n : Signed bits}
    {v w : ArgumentValue} (hv : v.toData = .integer n.val) (hw : w.toData = .integer n.val)
    (hvalue : ofContent (.number (Numeral.ofInt n.val)) = .ok w) : v.ComesBackAs w := by
  refine comesBackAs_of_content ?_ ?_ hvalue (hw.trans hv.symm)
  · rw [hv]
    exact ArgumentType.readable_signed hbits n
  · rw [hv, Data.reading, Reading.content]
    rfl

theorem comesBackAs_bool (value : Bool) : (ArgumentValue.bool value).ComesBackAs (.bool value) := by
  have hreadable : (ArgumentValue.bool value).toData.Readable := by
    rw [toData, Data.Readable]
    trivial
  have hcontent :
      (ArgumentValue.bool value).toData.reading.content depthLimit = .ok (.bool value) := by
    rw [toData, Data.reading, Reading.content]
  exact comesBackAs_of_content hreadable hcontent rfl rfl

theorem comesBackAs_word (value : String) :
    (ArgumentValue.word value).ComesBackAs (.word value) := by
  have hreadable : (ArgumentValue.word value).toData.Readable := by
    rw [toData, Data.Readable]
    trivial
  have hcontent :
      (ArgumentValue.word value).toData.reading.content depthLimit = .ok (.text value) := by
    rw [toData, Data.reading, Reading.content]
    rfl
  exact comesBackAs_of_content hreadable hcontent rfl rfl

/-! ### Texts of any sort -/

/-- A text that is decoded has a content that one of the kinds takes. -/
theorem exists_first?_of_ofJson {text : String} {v : ArgumentValue} (h : ofJson text = .ok v) :
    ∃ content, first? content = some v := by
  rw [ofJson, decode] at h
  generalize Json.read text.toList = result at h
  obtain ⟨r, trailing⟩ := result
  obtain ⟨w, hvalue, h⟩ := exists_eq_ok_of_bind h
  obtain ⟨content, -, hcontent⟩ := exists_eq_ok_of_bind hvalue
  rw [ofContent_eq] at hcontent
  cases trailing with
  | some fault => cases h
  | none =>
      cases h
      cases hfirst : first? content with
      | none =>
          rw [hfirst] at hcontent
          cases hcontent
      | some u =>
          rw [hfirst] at hcontent
          cases hcontent
          exact ⟨content, hfirst⟩

/-- **Values come back without their kind.** Of the kinds that take a content the first decides, so
an integer of 64 bits comes back with 32 if it fits. Apart from that, integers, truth values and
words come back from their texts as they were, and all of them are then written as before. No text
at all is decoded as a number of double precision. -/
theorem ofJson_by_first_kind :
    (∀ content, ofContent content = (first? content).elim (.error (.noVariant "ArgumentValue")) .ok)
      ∧ (∀ n, (ArgumentValue.integer n).ComesBackAs (.integer n))
      ∧ (∀ n : Signed 64, -2 ^ 31 ≤ n.val ∧ n.val ≤ 2 ^ 31 - 1 →
        ∃ m : Signed 32, m.val = n.val ∧ (ArgumentValue.long n).ComesBackAs (.integer m))
      ∧ (∀ n : Signed 64, ¬(-2 ^ 31 ≤ n.val ∧ n.val ≤ 2 ^ 31 - 1) →
        (ArgumentValue.long n).ComesBackAs (.long n))
      ∧ (∀ value, (ArgumentValue.bool value).ComesBackAs (.bool value))
      ∧ (∀ value, (ArgumentValue.word value).ComesBackAs (.word value))
      ∧ ∀ text x, ofJson text ≠ .ok (.double x) := by
  refine ⟨ofContent_eq, fun n => ?_, fun n hfits => ?_, fun n hwide => ?_, comesBackAs_bool,
    comesBackAs_word, fun text x htext => ?_⟩
  · exact comesBackAs_of_integer (by decide) rfl rfl (ofContent_of_fits rfl)
  · obtain ⟨m, hm⟩ : ∃ m : Signed 32, m.val = n.val := Signed.exists_val_eq_iff.mpr hfits
    have hdata : (ArgumentValue.integer m).toData = .integer n.val := congrArg Data.integer hm
    exact ⟨m, hm, comesBackAs_of_integer (by decide) rfl hdata (ofContent_of_fits hm)⟩
  · exact comesBackAs_of_integer (by decide) rfl rfl (ofContent_of_wide hwide)
  · obtain ⟨content, hcontent⟩ := exists_first?_of_ofJson htext
    exact first?_ne_double content x hcontent

/-- The greatest integer of 32 bits comes back with 32, and the one above it with 64. -/
theorem ofJson_by_first_kind_aroundLimit :
    (∃ m : Signed 32, m.val = 2147483647
        ∧ (ArgumentValue.long ⟨2147483647, by decide, by decide⟩).ComesBackAs (.integer m))
      ∧ (ArgumentValue.long ⟨2147483648, by decide, by decide⟩).ComesBackAs
        (.long ⟨2147483648, by decide, by decide⟩) := by
  obtain ⟨-, -, hfits, hwide, -⟩ := ofJson_by_first_kind
  constructor
  · exact hfits ⟨2147483647, by decide, by decide⟩ (by decide)
  · exact hwide ⟨2147483648, by decide, by decide⟩ (by decide)

end ArgumentValue

end CommandGrammar
