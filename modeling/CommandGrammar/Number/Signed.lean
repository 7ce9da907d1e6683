import CommandGrammar.Number.Digits
import CommandGrammar.Number.Power

/-!
# Integers of a fixed width

An integer that fits in a number of bits, sign included. A numeral outside that range has no value.
-/

namespace CommandGrammar

/-- The count of non-negative integers that fit in `bits` bits, sign included. -/
def signedBound (bits : Nat) : Nat := twoTo (bits - 1)

theorem signedBound_pos (bits : Nat) : 0 < signedBound bits := twoTo_pos _

/-- An integer that fits in `bits` bits, sign included. -/
structure Signed (bits : Nat) where
  val : Int
  lower : -(signedBound bits : Int) ≤ val
  upper : val < signedBound bits
deriving DecidableEq, Repr

namespace Signed

variable {bits : Nat}

/-- The same integer, if it fits. -/
def ofInt? (bits : Nat) (n : Int) : Option (Signed bits) :=
  if h : -(signedBound bits : Int) ≤ n ∧ n < signedBound bits then some ⟨n, h.1, h.2⟩ else none

def lowest (bits : Nat) : Signed bits :=
  ⟨-signedBound bits, Int.le_refl _, by have := signedBound_pos bits; omega⟩

def highest (bits : Nat) : Signed bits :=
  ⟨signedBound bits - 1, by have := signedBound_pos bits; omega, by omega⟩

instance : Inhabited (Signed bits) :=
  ⟨⟨0, by omega, by have := signedBound_pos bits; omega⟩⟩

instance : ToString (Signed bits) := ⟨fun n => String.ofList (Digits.ofInt n.val)⟩

/-- The value of digits behind an optional minus sign, if it fits. -/
def ofNumeral? (bits : Nat) : List Char → Option (Signed bits)
  | '-' :: digits => ofInt? bits (-(Digits.value digits : Int))
  | digits => ofInt? bits (Digits.value digits)

theorem ofInt?_eq_some_iff {n : Int} {v : Signed bits} : ofInt? bits n = some v ↔ v.val = n := by
  unfold ofInt?
  split
  · constructor
    · rintro h; cases h; rfl
    · rintro rfl; rfl
  · rename_i h
    constructor
    · intro h'; cases h'
    · rintro rfl; exact absurd ⟨v.lower, v.upper⟩ h

@[simp] theorem ofInt?_val (v : Signed bits) : ofInt? bits v.val = some v :=
  ofInt?_eq_some_iff.mpr rfl

theorem lowest_le (v : Signed bits) : (lowest bits).val ≤ v.val := v.lower

theorem le_highest (v : Signed bits) : v.val ≤ (highest bits).val := by
  have := v.upper
  simp only [highest]
  omega

end Signed

end CommandGrammar
