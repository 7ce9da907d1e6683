import CommandGrammar.Proofs.Number.Digits
import CommandGrammar.Proofs.Reader.Numerals

/-!
# The integers that texts denote

Decimal digits behind an optional minus sign denote an integer, however many digits there are. What
is read as an integer of a fixed width denotes the value.
-/

namespace CommandGrammar

theorem natCast_signedBound (bits : Nat) : (signedBound bits : Int) = 2 ^ (bits - 1) :=
  Int.natCast_pow 2 (bits - 1)

/-- The text is a decimal numeral of the integer. -/
inductive Denotes : List Char → Int → Prop where
  | natural {digits : List Char} (hnonempty : digits ≠ [])
      (hdigits : ∀ c ∈ digits, c.isDigit = true) :
      Denotes digits (Nat.ofDigits 10 (digits.reverse.map Digits.weight) : Nat)
  | negated {digits : List Char} (hnonempty : digits ≠ [])
      (hdigits : ∀ c ∈ digits, c.isDigit = true) :
      Denotes ('-' :: digits) (-(Nat.ofDigits 10 (digits.reverse.map Digits.weight) : Nat))

/-- A sign and the digits behind it denote an integer if there is a digit. -/
theorem Numeral.exists_denotes {text : List Char}
    (hdigit : (text.drop (minus text).length).head?.any Char.isDigit = true) :
    ∃ n, Denotes (followedBy minus digits text) n := by
  have hdigits : ∀ c ∈ digits (text.drop (minus text).length), c.isDigit = true := fun c hc =>
    List.mem_takeWhile_imp hc
  have hnonempty : bodyOf .int (text.drop (minus text).length) ≠ [] := bodyOf_ne_nil hdigit
  rw [bodyOf] at hnonempty
  rw [followedBy]
  by_cases hminus : ∃ rest, text = '-' :: rest
  · obtain ⟨rest, rfl⟩ := hminus
    exact ⟨_, .negated hnonempty hdigits⟩
  · have hnone : minus text = [] := by
      rw [minus]
      exact fun rest heq => hminus ⟨rest, heq⟩
    rw [hnone] at hnonempty hdigits ⊢
    exact ⟨_, .natural hnonempty hdigits⟩

/-- A numeral is read as the integer that it denotes. -/
theorem Signed.ofNumeral?_eq_some_iff {bits : Nat} {numeral : List Char} {n : Int} {v : Signed bits}
    (hdenotes : Denotes numeral n) : ofNumeral? bits numeral = some v ↔ v.val = n := by
  cases hdenotes with
  | negated hnonempty hdigits =>
      rw [← Digits.value_eq_ofDigits]
      exact ofInt?_eq_some_iff
  | natural hnonempty hdigits =>
      have hminus : ∀ rest, numeral = '-' :: rest → False := by
        rintro rest rfl
        cases hdigits '-' List.mem_cons_self
      rw [ofNumeral?.eq_2 bits numeral hminus, ← Digits.value_eq_ofDigits]
      exact ofInt?_eq_some_iff

/-- Integers are read from decimal digits. -/
class DecimalSigned (bits : Nat) [Numeric (Signed bits)] : Prop where
  body_eq : Numeric.body (Signed bits) = Numeral.digits
  ofNumeral?_eq : ∀ numeral, (Numeric.ofNumeral? numeral : Option (Signed bits))
    = Signed.ofNumeral? bits numeral

instance : DecimalSigned 32 := ⟨rfl, fun _ => rfl⟩

instance : DecimalSigned 64 := ⟨rfl, fun _ => rfl⟩

/-- An integer that is read is the one that the text taken for it denotes. -/
theorem Reader.denotes_of_number {bits : Nat} [Numeric (Signed bits)] [DecimalSigned bits]
    {r s : Reader} {v : Signed bits} (h : r.number (Signed bits) = (.ok v, s)) :
    ∃ token, token <+: r.after ∧ s = r.advance token.length ∧ Denotes token v.val := by
  rw [number, DecimalSigned.body_eq, Numeral.ofText?_eq] at h
  by_cases hdigit : (r.after.drop (Numeral.minus r.after).length).head?.any Char.isDigit = true
  · rw [if_pos hdigit] at h
    dsimp only at h
    cases hvalue : Numeric.ofNumeral? (α := Signed bits)
        (Numeral.followedBy Numeral.minus Numeral.digits r.after) with
    | none =>
        rw [hvalue] at h
        cases h
    | some value =>
        rw [hvalue] at h
        cases h
        obtain ⟨n, hn⟩ := Numeral.exists_denotes hdigit
        rw [DecimalSigned.ofNumeral?_eq] at hvalue
        have hscan := (Numeral.wordScan_minus.followedBy Numeral.wordScan_digits).isScan
        exact ⟨_, hscan.isPrefix r.after, rfl, (Signed.ofNumeral?_eq_some_iff hn).mp hvalue ▸ hn⟩
  · rw [if_neg hdigit] at h
    cases h

end CommandGrammar
