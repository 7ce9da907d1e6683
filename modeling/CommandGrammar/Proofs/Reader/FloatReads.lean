import CommandGrammar.Proofs.Reader.LongestMatch
import CommandGrammar.Proofs.Reader.Unbounded
import CommandGrammar.Proofs.Text.Runs

/-!
# Reads of floating-point numbers

What the scan takes and what has a value are given by two grammars. They differ in the numerals that
end in the letter of a power of ten and no digit behind it, and in nothing else.
-/

namespace CommandGrammar

namespace Pattern

def isPowerLetter (c : Char) : Bool := c == 'e' || c == 'E'

def isSign (c : Char) : Bool := c == '+' || c == '-'

/-- A letter of a power of ten is there, but no digit behind it. -/
def Dangling (token : List Char) : Prop :=
  ∃ front letter behind, token = front ++ letter :: behind ∧ isPowerLetter letter = true
    ∧ ∀ c ∈ behind, c.isDigit = false

theorem not_dangling {token : List Char} (h : ∀ c ∈ token, isPowerLetter c = false) :
    ¬Dangling token := by
  rintro ⟨front, letter, behind, rfl, hletter, -⟩
  rw [h letter (List.mem_append_cons_self)] at hletter
  cases hletter

/-- The first letter of a power of ten decides. -/
theorem dangling_append_cons_iff {front behind : List Char} {letter : Char}
    (hletter : isPowerLetter letter = true) (hfront : ∀ c ∈ front, isPowerLetter c = false)
    (hbehind : ∀ c ∈ behind, isPowerLetter c = false) :
    Dangling (front ++ letter :: behind) ↔ ∀ c ∈ behind, c.isDigit = false := by
  constructor
  · rintro ⟨front', letter', behind', heq, hletter', hdigits⟩
    have hnotMem : ∀ {text : List Char}, (∀ c ∈ text, isPowerLetter c = false) → letter' ∉ text := by
      intro text htext hmem
      rw [htext letter' hmem] at hletter'
      cases hletter'
    obtain ⟨-, -, rfl⟩ :=
      (List.append_cons_inj_of_notMem (hnotMem hfront) (hnotMem hbehind)).mp heq
    exact hdigits
  · intro hdigits
    exact ⟨front, letter, behind, rfl, hletter, hdigits⟩

/-! ### Characters of a numeral -/

theorem isPowerLetter_of_isDigit {c : Char} (hc : c.isDigit = true) : isPowerLetter c = false := by
  refine Bool.eq_false_iff.mpr fun hletter => ?_
  rcases Bool.or_eq_true_iff.mp hletter with h | h <;> rw [eq_of_beq h] at hc <;> cases hc

theorem isPowerLetter_of_isSign {c : Char} (hc : isSign c = true) : isPowerLetter c = false := by
  rcases Bool.or_eq_true_iff.mp hc with h | h <;> rw [eq_of_beq h] <;> rfl

theorem isDigit_of_isSign {c : Char} (hc : isSign c = true) : c.isDigit = false := by
  rcases Bool.or_eq_true_iff.mp hc with h | h <;> rw [eq_of_beq h] <;> rfl

theorem isSign_of_isDigit {c : Char} (hc : c.isDigit = true) : isSign c = false := by
  refine Bool.eq_false_iff.mpr fun hsign => ?_
  rw [isDigit_of_isSign hsign] at hc
  cases hc

/-! ### Parts of a numeral -/

theorem mem_plusOrMinus_iff {token : List Char} : token ∈ plusOrMinus.matches'
    ↔ token = [] ∨ ∃ c, isSign c = true ∧ token = [c] := by
  rw [plusOrMinus, mem_optional_iff, isClass_oneOf_pair '+' '-' token]
  rfl

theorem mem_plusOrMinus_of_mem_minusSign {token : List Char} (h : token ∈ minusSign.matches') :
    token ∈ plusOrMinus.matches' := by
  rcases mem_optional_iff.mp h with rfl | h
  · exact mem_plusOrMinus_iff.mpr (.inl rfl)
  · exact mem_plusOrMinus_iff.mpr (.inr ⟨'-', rfl, h⟩)

theorem isSign_of_mem_plusOrMinus {token : List Char} {c : Char}
    (h : token ∈ plusOrMinus.matches') (hc : c ∈ token) : isSign c = true := by
  rcases mem_plusOrMinus_iff.mp h with rfl | ⟨d, hd, rfl⟩
  · cases hc
  · rwa [List.mem_singleton.mp hc]

theorem mem_fractionPart_iff {token : List Char} : token ∈ fractionPart.matches'
    ↔ token = [] ∨ ∃ digits, (∀ c ∈ digits, c.isDigit = true) ∧ token = '.' :: digits := by
  rw [fractionPart, mem_optional_iff, RegularExpression.matches'_mul,
    mem_class_mul_iff (isClass_char '.')]
  refine or_congr_right ⟨?_, ?_⟩
  · rintro ⟨c, digits, hc, hdigits, rfl⟩
    rw [eq_of_beq hc]
    exact ⟨digits, (mem_star_iff isClass_digit).mp hdigits, rfl⟩
  · rintro ⟨digits, hdigits, rfl⟩
    exact ⟨'.', digits, rfl, (mem_star_iff isClass_digit).mpr hdigits, rfl⟩

theorem mem_powerPart_iff {token : List Char} : token ∈ powerPart.matches'
    ↔ token = [] ∨ ∃ letter sign digits, isPowerLetter letter = true
      ∧ sign ∈ plusOrMinus.matches' ∧ (∀ c ∈ digits, c.isDigit = true)
      ∧ token = letter :: (sign ++ digits) := by
  rw [powerPart, mem_optional_iff, RegularExpression.matches'_mul,
    mem_class_mul_iff (isClass_oneOf_pair 'e' 'E')]
  refine or_congr_right ⟨?_, ?_⟩
  · rintro ⟨letter, rest, hletter, hrest, rfl⟩
    obtain ⟨sign, hsign, digits, hdigits, rfl⟩ := Language.mem_mul.mp hrest
    exact ⟨letter, sign, digits, hletter, hsign, (mem_star_iff isClass_digit).mp hdigits, rfl⟩
  · rintro ⟨letter, sign, digits, hletter, hsign, hdigits, rfl⟩
    exact ⟨letter, sign ++ digits, hletter,
      Language.append_mem_mul hsign ((mem_star_iff isClass_digit).mpr hdigits), rfl⟩

/-- The letter of a power of ten comes behind everything else. -/
theorem isPowerLetter_of_mem_significand {front whole part : List Char}
    (hfront : front ∈ minusSign.matches') (hwhole : whole ∈ (plus digit).matches')
    (hpart : part ∈ fractionPart.matches') :
    ∀ c ∈ front ++ (whole ++ part), isPowerLetter c = false := by
  intro c hc
  rcases List.mem_append.mp hc with hc | hc
  · have hsign := mem_plusOrMinus_of_mem_minusSign hfront
    exact isPowerLetter_of_isSign (isSign_of_mem_plusOrMinus hsign hc)
  rcases List.mem_append.mp hc with hc | hc
  · obtain ⟨-, hdigits⟩ := (mem_plus_iff isClass_digit).mp hwhole
    exact isPowerLetter_of_isDigit (hdigits c hc)
  rcases mem_fractionPart_iff.mp hpart with rfl | ⟨digits, hdigits, rfl⟩
  · cases hc
  rcases List.mem_cons.mp hc with rfl | hc
  · rfl
  · exact isPowerLetter_of_isDigit (hdigits c hc)

end Pattern

open Pattern

/-! ### Which numerals have a value -/

namespace Decimal

variable {front whole part power sign digits text : List Char} {letter : Char}

theorem splitSign_of_stops (h : Text.Stops isSign text) : (splitSign text).2 = text := by
  cases text with
  | nil => rfl
  | cons c text =>
      have hc : isSign c = false := h c rfl
      rw [splitSign.eq_3]
      · rintro rest heq
        rw [(List.cons.inj heq).1] at hc
        cases hc
      · rintro rest heq
        rw [(List.cons.inj heq).1] at hc
        cases hc

theorem splitSign_append (hsign : sign ∈ plusOrMinus.matches')
    (h : Text.Stops isSign text) : (splitSign (sign ++ text)).2 = text := by
  rcases mem_plusOrMinus_iff.mp hsign with rfl | ⟨c, hc, rfl⟩
  · exact splitSign_of_stops h
  · rcases Bool.or_eq_true_iff.mp hc with hc | hc <;> rw [eq_of_beq hc] <;> rfl

theorem stops_isSign (hdigits : ∀ c ∈ digits, c.isDigit = true) : Text.Stops isSign digits :=
  fun c hc => isSign_of_isDigit (hdigits c (List.mem_of_mem_head? hc))

theorem isSome_power?_iff (hletter : isPowerLetter letter = true)
    (hsign : sign ∈ plusOrMinus.matches')
    (hdigits : ∀ c ∈ digits, c.isDigit = true) :
    (power? (letter :: (sign ++ digits))).isSome = true ↔ digits ≠ [] := by
  have hall : digits.all Char.isDigit = true := List.all_eq_true.mpr hdigits
  have hletter' : (letter == 'e' || letter == 'E') = true := hletter
  have hsplit := splitSign_append hsign (stops_isSign hdigits)
  rw [power?]
  generalize splitSign (sign ++ digits) = split at hsplit
  obtain ⟨negative, behind⟩ := split
  obtain rfl : behind = digits := hsplit
  simp only [hletter', hall]
  cases behind <;> simp

/-- Neither a digit nor a point comes first. -/
theorem stops_power (hpower : power ∈ powerPart.matches') :
    Text.Stops (fun c => c.isDigit || c == '.') power := by
  rcases mem_powerPart_iff.mp hpower with rfl | ⟨letter, sign, digits, hletter, -, -, rfl⟩
  · exact Text.stops_nil
  · apply Text.stops_cons
    rcases Bool.or_eq_true_iff.mp hletter with h | h <;> rw [eq_of_beq h] <;> rfl

theorem stops_isDigit (h : Text.Stops (fun c => c.isDigit || c == '.') power) :
    Text.Stops Char.isDigit power := by
  apply h.mono
  intro c hc
  rw [hc, Bool.true_or]

theorem exists_splitFraction (hpart : part ∈ fractionPart.matches')
    (hstops : Text.Stops (fun c => c.isDigit || c == '.') power) :
    ∃ digits, splitFraction (part ++ power) = (digits, power) := by
  rcases mem_fractionPart_iff.mp hpart with rfl | ⟨digits, hdigits, rfl⟩
  · refine ⟨[], ?_⟩
    rw [List.nil_append, splitFraction]
    rintro rest rfl
    cases hstops '.' rfl
  · have hdigit := stops_isDigit hstops
    refine ⟨digits, ?_⟩
    simp [splitFraction, List.takeWhile_append_of_pos hdigits, List.dropWhile_append_of_pos hdigits,
      hdigit.takeWhile_eq_nil, hdigit.dropWhile_eq_self]

/-- Sign, digits and fraction always have a value. -/
theorem isSome_ofChars?_append (hfront : front ∈ minusSign.matches')
    (hwhole : whole ∈ (plus digit).matches')
    (hpart : part ∈ fractionPart.matches')
    (hstops : Text.Stops (fun c => c.isDigit || c == '.') power) :
    (ofChars? (front ++ (whole ++ part ++ power))).isSome = (power? power).isSome := by
  obtain ⟨hnonempty, hdigits⟩ := (mem_plus_iff isClass_digit).mp hwhole
  have hsplit : (splitSign (front ++ (whole ++ part ++ power))).2 = whole ++ part ++ power := by
    apply splitSign_append (mem_plusOrMinus_of_mem_minusSign hfront)
    obtain ⟨c, rest, rfl⟩ := List.exists_cons_of_ne_nil hnonempty
    exact Text.stops_cons (isSign_of_isDigit (hdigits c List.mem_cons_self)) _
  have hbehind : Text.Stops Char.isDigit (part ++ power) := by
    rcases mem_fractionPart_iff.mp hpart with rfl | ⟨digits, -, rfl⟩
    · exact stops_isDigit hstops
    · exact Text.stops_cons rfl _
  obtain ⟨digits, hfraction⟩ := exists_splitFraction hpart hstops
  have htake : (whole ++ part ++ power).takeWhile Char.isDigit = whole := by
    rw [List.append_assoc, List.takeWhile_append_of_pos hdigits, hbehind.takeWhile_eq_nil,
      List.append_nil]
  have hdrop : (whole ++ part ++ power).dropWhile Char.isDigit = part ++ power := by
    rw [List.append_assoc, List.dropWhile_append_of_pos hdigits, hbehind.dropWhile_eq_self]
  rw [ofChars?]
  generalize splitSign (front ++ (whole ++ part ++ power)) = split at hsplit
  obtain ⟨negative, body⟩ := split
  obtain rfl : body = whole ++ part ++ power := hsplit
  simp only [htake, hdrop, hfraction]
  rw [if_neg (by simp [hnonempty]), Option.isSome_map]

/-- **The two grammars.** A numeral has a value unless its power of ten dangles. -/
theorem isSome_ofChars?_iff {token : List Char} (h : token ∈ decimal.matches') :
    (ofChars? token).isSome = true ↔ ¬Dangling token := by
  obtain ⟨front, hfront, body, hbody, rfl⟩ := Language.mem_mul.mp h
  obtain ⟨left, hleft, power, hpower, rfl⟩ := Language.mem_mul.mp hbody
  obtain ⟨whole, hwhole, part, hpart, rfl⟩ := Language.mem_mul.mp hleft
  rw [isSome_ofChars?_append hfront hwhole hpart (stops_power hpower)]
  have hletters := isPowerLetter_of_mem_significand hfront hwhole hpart
  rcases mem_powerPart_iff.mp hpower with rfl | ⟨letter, sign, digits, hletter, hsign, hdigits, rfl⟩
  · rw [List.append_nil]
    exact iff_of_true rfl (not_dangling hletters)
  · have hbehind : ∀ c ∈ sign ++ digits, isPowerLetter c = false := by
      intro c hc
      rcases List.mem_append.mp hc with hc | hc
      · exact isPowerLetter_of_isSign (isSign_of_mem_plusOrMinus hsign hc)
      · exact isPowerLetter_of_isDigit (hdigits c hc)
    rw [isSome_power?_iff hletter hsign hdigits, ← List.append_assoc,
      dangling_append_cons_iff hletter hletters hbehind, not_iff_not, List.forall_mem_append]
    constructor
    · rintro rfl
      exact ⟨fun c hc => isDigit_of_isSign (isSign_of_mem_plusOrMinus hsign hc), by simp⟩
    · rintro ⟨-, hnone⟩
      apply List.eq_nil_iff_forall_not_mem.mpr
      intro c hc
      simpa [hdigits c hc] using hnone c hc

end Decimal

/-! ### The read of a floating-point number -/

/-- What the read of a number of a format comes to, given what the text behind the cursor starts
with. -/
structure FloatReads (kind : NumberKind) (f : BinaryFormat) [Numeric (Binary f)] (r : Reader) :
    Prop where
  expected_iff : r.number (Binary f) = (.error ⟨.expectedNumber kind, r⟩, r)
    ↔ ¬Opens opening r.remaining
  exists_token : Opens opening r.remaining → ∃ token, IsLongestMatch decimal r.remaining token
  ok_iff {token : List Char} : IsLongestMatch decimal r.remaining token →
    ((∃ x s, r.number (Binary f) = (.ok x, s)
        ∧ s.text = r.text ∧ s.cursor = r.cursor + token.length)
      ↔ ¬Dangling token)
  invalid_iff {token : List Char} : IsLongestMatch decimal r.remaining token →
    (r.number (Binary f) = (.error ⟨.invalidNumber kind, r⟩, r) ↔ Dangling token)

theorem Reader.floatReads (f : BinaryFormat) [Numeric (Binary f)] [LawfulBinary f]
    [Numeral.LawfulNumeric (Binary f)] (hpattern : ofKind (Numeric.kind (Binary f)) = decimal)
    (r : Reader) : FloatReads (Numeric.kind (Binary f)) f r := by
  have hvalue : ∀ {token}, IsLongestMatch decimal r.remaining token →
      ((Numeric.ofNumeral? token : Option (Binary f)).isSome = true ↔ ¬Dangling token) := by
    intro token htoken
    rw [LawfulBinary.ofNumeral?_eq, Binary.ofNumeral?, Option.isSome_map,
      Decimal.isSome_ofChars?_iff htoken.isMatch]
  refine ⟨number_eq_expected_iff, fun hopens => ?_, fun {token} htoken => ?_,
    fun {token} htoken => ?_⟩
  · rw [← hpattern]
    exact exists_isLongestMatch _ hopens
  · rw [← hvalue htoken, Option.isSome_iff_exists]
    rw [← hpattern] at htoken
    constructor
    · rintro ⟨x, s, hread, -⟩
      exact ⟨x, ((number_eq_ok_iff htoken).mp hread).1⟩
    · rintro ⟨x, hx⟩
      have hplace := (eq_advance_iff htoken).mp rfl
      exact ⟨x, r.advance token.length, (number_eq_ok_iff htoken).mpr ⟨hx, hplace⟩, hplace⟩
  · rw [← not_iff_not, ← hvalue htoken]
    rw [← hpattern] at htoken
    rw [number_eq_invalid_iff htoken, ← Option.not_isSome_iff_eq_none, not_not]

/-- What has a value in one format has one in the other. -/
theorem Reader.number_of_other_format {f g : BinaryFormat} [Numeric (Binary f)] [Numeric (Binary g)]
    [LawfulBinary f] [LawfulBinary g] [Numeral.LawfulNumeric (Binary f)]
    [Numeral.LawfulNumeric (Binary g)] {r s : Reader} {x : Binary f}
    (hpattern : ofKind (Numeric.kind (Binary f)) = ofKind (Numeric.kind (Binary g)))
    (hread : r.number (Binary f) = (.ok x, s)) : ∃ y, r.number (Binary g) = (.ok y, s) := by
  obtain ⟨token, htoken, hvalue, hplace⟩ := exists_token_of_number hread
  rw [LawfulBinary.ofNumeral?_eq] at hvalue
  rw [hpattern] at htoken
  obtain ⟨d, hd, -⟩ := Option.map_eq_some_iff.mp hvalue
  refine ⟨.ofDecimal g d, (number_eq_ok_iff htoken).mpr ⟨?_, hplace⟩⟩
  rw [LawfulBinary.ofNumeral?_eq, Binary.ofNumeral?, hd, Option.map_some]

/-- **Which floating-point numbers are read.** The numeral is the longest match of
`-?[0-9]+(\.[0-9]*)?([eE][+-]?[0-9]*)?`, and it is read unless its power of ten dangles, whatever the
format. -/
theorem Reader.number_float_exact (r : Reader) :
    FloatReads .float .single r ∧ FloatReads .double .double r
      ∧ ∀ s, (∃ x, r.number (Binary .single) = (.ok x, s))
        ↔ ∃ y, r.number (Binary .double) = (.ok y, s) := by
  have hsame : ofKind (Numeric.kind (Binary .single)) = ofKind (Numeric.kind (Binary .double)) := rfl
  refine ⟨floatReads .single rfl r, floatReads .double rfl r, fun s => ⟨?_, ?_⟩⟩
  · rintro ⟨x, hread⟩
    exact number_of_other_format hsame hread
  · rintro ⟨y, hread⟩
    exact number_of_other_format hsame.symm hread

/-- A power of ten may be as large as it likes, but not without digits. -/
theorem Reader.number_float_exact_powers :
    (∃ x s, (ofString "1e999999999999").number (Binary .single) = (.ok x, s) ∧ s.cursor = 14)
      ∧ (ofString "1.5e-").number (Binary .double)
        = (.error ⟨.invalidNumber .double, ofString "1.5e-"⟩, ofString "1.5e-") := by
  constructor
  · obtain ⟨hfloat, -, -⟩ := number_float_exact (ofString "1e999999999999")
    have htoken : IsLongestMatch decimal (ofString "1e999999999999").remaining
        "1e999999999999".toList := isLongestMatch_numeral .float rfl
    have hpower : ¬Dangling "1e999999999999".toList :=
      (Decimal.isSome_ofChars?_iff htoken.isMatch).mp rfl
    obtain ⟨x, s, hread, -, hcursor⟩ := (hfloat.ok_iff htoken).mpr hpower
    exact ⟨x, s, hread, hcursor⟩
  · obtain ⟨-, hdouble, -⟩ := number_float_exact (ofString "1.5e-")
    have htoken : IsLongestMatch decimal (ofString "1.5e-").remaining "1.5e-".toList :=
      isLongestMatch_numeral .double rfl
    exact (hdouble.invalid_iff htoken).mpr ⟨"1.5".toList, 'e', ['-'], rfl, rfl, by simp⟩

end CommandGrammar
