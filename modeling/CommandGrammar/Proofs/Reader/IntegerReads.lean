import CommandGrammar.Proofs.Reader.Integers
import CommandGrammar.Proofs.Reader.LongestMatch

/-!
# Reads of integers

The longest match of `-?[0-9]+` at the cursor is the numeral of an integer, with any number of
digits. It is read if the integer fits in the bits that there are, and refused if it does not.
-/

namespace CommandGrammar

open Pattern

/-! ### Integers that fit -/

namespace Signed

variable {bits : Nat} {n : Int}

/-- The integers that fit in `bits` bits, sign included. -/
theorem exists_val_eq_iff :
    (∃ v : Signed bits, v.val = n) ↔ -2 ^ (bits - 1) ≤ n ∧ n ≤ 2 ^ (bits - 1) - 1 := by
  rw [← natCast_signedBound]
  constructor
  · rintro ⟨v, rfl⟩
    exact ⟨v.lower, Int.le_sub_one_of_lt v.upper⟩
  · rintro ⟨hlower, hupper⟩
    exact ⟨⟨n, hlower, Int.lt_of_le_sub_one hupper⟩, rfl⟩

theorem exists_wider {large : Nat} (v : Signed bits) (hle : bits ≤ large) :
    ∃ w : Signed large, w.val = v.val := by
  have hpow : (2 : Int) ^ (bits - 1) ≤ 2 ^ (large - 1) :=
    pow_le_pow_right₀ (by decide) (Nat.sub_le_sub_right hle 1)
  obtain ⟨hlower, hupper⟩ := exists_val_eq_iff.mp ⟨v, rfl⟩
  apply exists_val_eq_iff.mpr
  omega

theorem ofNumeral?_of_val_eq {large : Nat} {numeral : List Char} {v : Signed bits}
    {w : Signed large} (hval : w.val = v.val) (h : ofNumeral? bits numeral = some v) :
    ofNumeral? large numeral = some w := by
  unfold ofNumeral? at h ⊢
  split at h <;> exact ofInt?_eq_some_iff.mpr (hval.trans (ofInt?_eq_some_iff.mp h))

theorem ofNumeral?_eq_none_iff {numeral : List Char} (hdenotes : Denotes numeral n) :
    ofNumeral? bits numeral = none ↔ n < -2 ^ (bits - 1) ∨ 2 ^ (bits - 1) - 1 < n := by
  have hnot : ofNumeral? bits numeral = none ↔ ¬∃ v : Signed bits, v.val = n := by
    rw [Option.eq_none_iff_forall_ne_some, not_exists]
    exact forall_congr' fun v => not_congr (ofNumeral?_eq_some_iff hdenotes)
  rw [hnot, exists_val_eq_iff, not_and_or, Int.not_le, Int.not_le]

end Signed

/-! ### The read of an integer -/

/-- What the read of an integer of `bits` bits comes to, given what the text behind the cursor starts
with and what that denotes. -/
structure IntegerReads (kind : NumberKind) (bits : Nat) [Numeric (Signed bits)] (r : Reader) :
    Prop where
  expected_iff : r.number (Signed bits) = (.error ⟨.expectedNumber kind, r⟩, r)
    ↔ ¬Opens opening r.remaining
  exists_token : Opens opening r.remaining →
    ∃ token n, IsLongestMatch integer r.remaining token ∧ Denotes token n
  ok_iff {token : List Char} {n : Int} : IsLongestMatch integer r.remaining token →
    Denotes token n → ((∃ v s, r.number (Signed bits) = (.ok v, s) ∧ v.val = n
        ∧ s.text = r.text ∧ s.cursor = r.cursor + token.length)
      ↔ -2 ^ (bits - 1) ≤ n ∧ n ≤ 2 ^ (bits - 1) - 1)
  invalid_iff {token : List Char} {n : Int} : IsLongestMatch integer r.remaining token →
    Denotes token n → (r.number (Signed bits) = (.error ⟨.invalidNumber kind, r⟩, r)
      ↔ n < -2 ^ (bits - 1) ∨ 2 ^ (bits - 1) - 1 < n)

namespace Reader

variable {r : Reader}

theorem exists_denotes (h : Opens opening r.remaining) :
    ∃ token n, IsLongestMatch integer r.remaining token ∧ Denotes token n := by
  have hdigit := opens_opening_iff.mp h
  obtain ⟨n, hn⟩ := Numeral.exists_denotes hdigit
  exact ⟨_, n, isLongestMatch_numeral .int hdigit, hn⟩

theorem integerReads (bits : Nat) [Numeric (Signed bits)] [DecimalSigned bits]
    [Numeral.LawfulNumeric (Signed bits)]
    (hpattern : ofKind (Numeric.kind (Signed bits)) = integer) (r : Reader) :
    IntegerReads (Numeric.kind (Signed bits)) bits r := by
  refine ⟨number_eq_expected_iff, exists_denotes, fun {token n} htoken hn => ?_,
    fun {token n} htoken hn => ?_⟩
  · rw [← hpattern] at htoken
    rw [← Signed.exists_val_eq_iff]
    constructor
    · rintro ⟨v, s, -, hv, -⟩
      exact ⟨v, hv⟩
    · rintro ⟨v, hv⟩
      have hvalue : Numeric.ofNumeral? token = some v := by
        rw [DecimalSigned.ofNumeral?_eq]
        exact (Signed.ofNumeral?_eq_some_iff hn).mpr hv
      have hplace := (eq_advance_iff htoken).mp rfl
      exact ⟨v, r.advance token.length, (number_eq_ok_iff htoken).mpr ⟨hvalue, hplace⟩, hv, hplace⟩
  · rw [← hpattern] at htoken
    rw [number_eq_invalid_iff htoken, DecimalSigned.ofNumeral?_eq]
    exact Signed.ofNumeral?_eq_none_iff hn

/-- What fits in fewer bits fits in more. -/
theorem number_of_narrower {small large : Nat} [Numeric (Signed small)] [Numeric (Signed large)]
    [DecimalSigned small] [DecimalSigned large] [Numeral.LawfulNumeric (Signed small)]
    [Numeral.LawfulNumeric (Signed large)] {s : Reader} {v : Signed small}
    (hpattern : ofKind (Numeric.kind (Signed small)) = ofKind (Numeric.kind (Signed large)))
    (hle : small ≤ large) (hread : r.number (Signed small) = (.ok v, s)) :
    ∃ w, r.number (Signed large) = (.ok w, s) ∧ w.val = v.val := by
  obtain ⟨token, htoken, hvalue, hplace⟩ := exists_token_of_number hread
  rw [DecimalSigned.ofNumeral?_eq] at hvalue
  rw [hpattern] at htoken
  obtain ⟨w, hw⟩ := v.exists_wider hle
  refine ⟨w, (number_eq_ok_iff htoken).mpr ⟨?_, hplace⟩, hw⟩
  rw [DecimalSigned.ofNumeral?_eq]
  exact Signed.ofNumeral?_of_val_eq hw hvalue

end Reader

/-- **Integers are read exactly.** The numeral is the longest match of `-?[0-9]+`, and it is read as
the integer that it denotes, of 32 or of 64 bits, if that integer fits. What is read as an integer of
32 bits is read as one of 64. -/
theorem Reader.number_integer_exact (r : Reader) :
    IntegerReads .int 32 r ∧ IntegerReads .long 64 r
      ∧ ∀ v s, r.number (Signed 32) = (.ok v, s) →
        ∃ w, r.number (Signed 64) = (.ok w, s) ∧ w.val = v.val := by
  refine ⟨integerReads 32 rfl r, integerReads 64 rfl r, fun v s hread => ?_⟩
  exact number_of_narrower rfl (by decide) hread

/-- The least integer of 32 bits is read, the one behind the greatest is refused. -/
theorem Reader.number_integer_exact_limits :
    (∃ w, (ofString "-2147483648").number (Signed 64) = (.ok w, (ofString "-2147483648").advance 11)
        ∧ w.val = -2147483648)
      ∧ (ofString "2147483648").number (Signed 32)
        = (.error ⟨.invalidNumber .int, ofString "2147483648"⟩, ofString "2147483648") := by
  constructor
  · obtain ⟨-, -, hwide⟩ := number_integer_exact (ofString "-2147483648")
    exact hwide ⟨-2147483648, by decide, by decide⟩ _ rfl
  · obtain ⟨hint, -, -⟩ := number_integer_exact (ofString "2147483648")
    have htoken : IsLongestMatch integer (ofString "2147483648").remaining "2147483648".toList :=
      isLongestMatch_numeral .int rfl
    have hdenotes : Denotes "2147483648".toList 2147483648 := .natural (by decide) (by simp)
    exact (hint.invalid_iff htoken hdenotes).mpr (by decide)

end CommandGrammar
