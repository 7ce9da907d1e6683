/-!
# Blank characters

The characters with the Unicode property `White_Space`, and the text that is left when they are cut
off at both ends.
-/

namespace CommandGrammar.Text

/-- The property `White_Space`. -/
def isBlank (c : Char) : Bool :=
  (9 ≤ c.toNat && c.toNat ≤ 13) || c.toNat == 0x20 || c.toNat == 0x85 || c.toNat == 0xA0
    || c.toNat == 0x1680 || (0x2000 ≤ c.toNat && c.toNat ≤ 0x200A) || c.toNat == 0x2028
    || c.toNat == 0x2029 || c.toNat == 0x202F || c.toNat == 0x205F || c.toNat == 0x3000

def trimRight (text : List Char) : List Char :=
  (text.reverse.dropWhile isBlank).reverse

def trim (text : List Char) : List Char :=
  trimRight (text.dropWhile isBlank)

theorem dropWhile_eq_nil_iff {p : Char → Bool} {text : List Char} :
    text.dropWhile p = [] ↔ ∀ c ∈ text, p c = true := by
  induction text with
  | nil => simp
  | cons c text ih => by_cases h : p c <;> simp [h, ih]

/-- Nothing is left exactly of a text of blanks. -/
theorem trim_eq_nil_iff {text : List Char} : trim text = [] ↔ ∀ c ∈ text, isBlank c = true := by
  constructor
  · intro h
    cases hd : text.dropWhile isBlank with
    | nil => exact dropWhile_eq_nil_iff.mp hd
    | cons c rest =>
      rw [trim, trimRight, hd, List.reverse_eq_nil_iff, dropWhile_eq_nil_iff] at h
      have hno := List.head?_dropWhile_not isBlank text
      simp [hd, h c (by simp)] at hno
  · intro h
    simp [trim, trimRight, dropWhile_eq_nil_iff.mpr h]

end CommandGrammar.Text
