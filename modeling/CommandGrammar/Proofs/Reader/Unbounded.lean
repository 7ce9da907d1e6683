import CommandGrammar.Argument.Kind
import Mathlib.Tactic.SplitIfs

/-!
# Numbers without bounds

What stands for a missing bound is the furthest finite number. No integer lies beyond it, and of
what a numeral can be read as only the infinities do.
-/

namespace CommandGrammar

/-! ### Reading within a range -/

namespace Range

variable {α : Type} [Numeric α] {range : Range α} {r : Reader} {value : α}

theorem violation?_eq_none (hmin : Numeric.lt value range.min = false)
    (hmax : Numeric.lt range.max value = false) : range.violation? value = none := by
  simp only [violation?, hmin, hmax, Bool.false_eq_true, if_false]

/-- A range that does not refuse the number that is read makes no difference. -/
theorem read_eq_number (h : ∀ value, (r.number α).1 = .ok value → range.violation? value = none) :
    range.read r = r.number α := by
  rw [read]
  revert h
  generalize r.number α = result
  intro h
  obtain ⟨outcome, s⟩ := result
  cases outcome with
  | error e => rfl
  | ok value => simp only [h value rfl]

theorem read_of_violation? {cause : SyntaxError.Cause} (hread : (r.number α).1 = .ok value)
    (hcause : range.violation? value = some cause) : range.read r = (.error ⟨cause, r⟩, r) := by
  rw [read]
  revert hread
  generalize r.number α = result
  intro hread
  obtain ⟨outcome, s⟩ := result
  obtain rfl : outcome = .ok value := hread
  simp only [hcause]

end Range

theorem Reader.exists_ofNumeral?_of_number {α : Type} [Numeric α] {r : Reader} {value : α}
    (h : (r.number α).1 = .ok value) : ∃ numeral, Numeric.ofNumeral? numeral = some value := by
  rw [number] at h
  cases hnumeral : Numeral.ofText? (Numeric.body α) r.after with
  | none =>
      rw [hnumeral] at h
      cases h
  | some numeral =>
      rw [hnumeral] at h
      dsimp only at h
      cases hvalue : Numeric.ofNumeral? (α := α) numeral with
      | none =>
          rw [hvalue] at h
          cases h
      | some other =>
          rw [hvalue] at h
          cases h
          exact ⟨numeral, hvalue⟩

theorem Bounds.toRange_none {α : Type} [Numeric α] : Bounds.none.toRange = Range.full α := rfl

/-! ### Integers -/

/-- Integers are bounded and ordered as what they are. -/
class LawfulSigned (bits : Nat) [Numeric (Signed bits)] : Prop where
  lowest_eq : (Numeric.lowest : Signed bits) = Signed.lowest bits
  highest_eq : (Numeric.highest : Signed bits) = Signed.highest bits
  lt_eq : ∀ m n : Signed bits, Numeric.lt m n = decide (m.val < n.val)

instance : LawfulSigned 32 := ⟨rfl, rfl, fun _ _ => rfl⟩

instance : LawfulSigned 64 := ⟨rfl, rfl, fun _ _ => rfl⟩

theorem Signed.read_full {bits : Nat} [Numeric (Signed bits)] [LawfulSigned bits] (r : Reader) :
    (Range.full (Signed bits)).read r = r.number (Signed bits) := by
  refine Range.read_eq_number fun v _ => Range.violation?_eq_none ?_ ?_
  · rw [Range.full, LawfulSigned.lowest_eq, LawfulSigned.lt_eq]
    exact decide_eq_false (Int.not_lt.mpr v.lowest_le)
  · rw [Range.full, LawfulSigned.highest_eq, LawfulSigned.lt_eq]
    exact decide_eq_false (Int.not_lt.mpr v.le_highest)

/-! ### Floating-point numbers -/

namespace Binary

variable {f : BinaryFormat} {x : Binary f}

theorem rank_ofDecimal_le (f : BinaryFormat) (d : Decimal) :
    (ofDecimal f d).rank ≤ f.infinityRank := by
  unfold ofDecimal
  dsimp only
  split_ifs
  · exact Nat.zero_le _
  · exact Nat.le_refl f.infinityRank
  · exact rankOfRatio_le f _ _

theorem rank_le_of_ofNumeral? {text : List Char} (h : ofNumeral? f text = some x) :
    x.rank ≤ f.infinityRank := by
  obtain ⟨d, -, rfl⟩ := Option.map_eq_some_iff.mp h
  exact rank_ofDecimal_le f d

theorem eq_infinity_of_isFinite_eq_false (hrank : x.rank ≤ f.infinityRank)
    (h : x.isFinite = false) : x = infinity f x.negative := by
  have hle : f.infinityRank ≤ x.rank := Nat.not_lt.mp (of_decide_eq_false h)
  have heq : x.rank = f.infinityRank := Nat.le_antisymm hrank hle
  cases x
  exact congrArg _ heq

theorem key_bounds (x : Binary f) : -(x.rank : Int) ≤ x.key ∧ x.key ≤ x.rank := by
  rw [key]
  split <;> omega

theorem key_lowest (f : BinaryFormat) : (lowest f).key = -((f.infinityRank - 1 : Nat) : Int) := rfl

theorem key_highest (f : BinaryFormat) : (highest f).key = ((f.infinityRank - 1 : Nat) : Int) := rfl

theorem key_infinity (f : BinaryFormat) (negative : Bool) :
    (infinity f negative).key = if negative then -(f.infinityRank : Int) else f.infinityRank := rfl

theorem lt_lowest_of_isFinite (h : x.isFinite = true) : x.lt (lowest f) = false := by
  have hrank : x.rank < f.infinityRank := of_decide_eq_true h
  obtain ⟨hlower, hupper⟩ := x.key_bounds
  have hnot : ¬x.key < (lowest f).key := by
    rw [key_lowest]
    omega
  rw [lt, decide_eq_false hnot, Bool.and_false]

theorem highest_lt_of_isFinite (h : x.isFinite = true) : (highest f).lt x = false := by
  have hrank : x.rank < f.infinityRank := of_decide_eq_true h
  obtain ⟨hlower, hupper⟩ := x.key_bounds
  have hnot : ¬(highest f).key < x.key := by
    rw [key_highest]
    omega
  rw [lt, decide_eq_false hnot, Bool.and_false]

theorem lt_of_key_lt {y : Binary f} (hx : x.rank ≤ f.infinityRank) (hy : y.rank ≤ f.infinityRank)
    (hkey : x.key < y.key) : x.lt y = true := by
  have hxnan : x.isNaN = false := decide_eq_false (Nat.not_lt.mpr hx)
  have hynan : y.isNaN = false := decide_eq_false (Nat.not_lt.mpr hy)
  rw [lt, hxnan, hynan, decide_eq_true hkey]
  rfl

theorem infinity_lt_lowest (hpos : 0 < f.infinityRank) :
    (infinity f true).lt (lowest f) = true := by
  refine lt_of_key_lt (Nat.le_refl _) (Nat.sub_le _ _) ?_
  rw [key_lowest, key_infinity, if_pos rfl]
  omega

theorem highest_lt_infinity (hpos : 0 < f.infinityRank) :
    (highest f).lt (infinity f false) = true := by
  refine lt_of_key_lt (Nat.sub_le _ _) (Nat.le_refl _) ?_
  rw [key_highest, key_infinity, if_neg Bool.false_ne_true]
  omega

theorem infinity_not_lt_lowest : (infinity f false).lt (lowest f) = false := by
  have hnot : ¬(infinity f false).key < (lowest f).key := by
    rw [key_lowest, key_infinity, if_neg Bool.false_ne_true]
    omega
  rw [lt, decide_eq_false hnot, Bool.and_false]

end Binary

/-- Numbers of a format are read, printed, bounded and ordered as what they are. -/
class LawfulBinary (f : BinaryFormat) [Numeric (Binary f)] : Prop where
  infinityRank_pos : 0 < f.infinityRank
  ofNumeral?_eq : ∀ text, (Numeric.ofNumeral? text : Option (Binary f)) = Binary.ofNumeral? f text
  toString_eq : ∀ x : Binary f,
    @toString _ Numeric.toToString x = String.ofList (Layout.plain.render x)
  lowest_eq : (Numeric.lowest : Binary f) = Binary.lowest f
  highest_eq : (Numeric.highest : Binary f) = Binary.highest f
  lt_eq : ∀ x y : Binary f, Numeric.lt x y = x.lt y

instance : LawfulBinary .single :=
  ⟨by decide, fun _ => rfl, fun _ => rfl, rfl, rfl, fun _ _ => rfl⟩

instance : LawfulBinary .double :=
  ⟨by decide, fun _ => rfl, fun _ => rfl, rfl, rfl, fun _ _ => rfl⟩

namespace Binary

variable {f : BinaryFormat} [Numeric (Binary f)] [LawfulBinary f] {r : Reader}

/-- Why an infinity is not taken for a number without bounds. -/
def beyond (f : BinaryFormat) : Bool → SyntaxError.Cause
  | true => .tooLow (toString (infinity f true)) (toString (lowest f))
  | false => .tooHigh (toString (infinity f false)) (toString (highest f))

theorem violation?_full_of_isFinite {x : Binary f} (h : x.isFinite = true) :
    (Range.full (Binary f)).violation? x = none := by
  apply Range.violation?_eq_none
  · rw [Range.full, LawfulBinary.lowest_eq, LawfulBinary.lt_eq, lt_lowest_of_isFinite h]
  · rw [Range.full, LawfulBinary.highest_eq, LawfulBinary.lt_eq, highest_lt_of_isFinite h]

theorem violation?_full_infinity (negative : Bool) :
    (Range.full (Binary f)).violation? (infinity f negative) = some (beyond f negative) := by
  have hpos := LawfulBinary.infinityRank_pos (f := f)
  rw [Range.violation?, Range.full, LawfulBinary.lowest_eq, LawfulBinary.highest_eq,
    LawfulBinary.lt_eq, LawfulBinary.lt_eq, LawfulBinary.toString_eq, LawfulBinary.toString_eq,
    LawfulBinary.toString_eq]
  cases negative with
  | true =>
      rw [infinity_lt_lowest hpos]
      rfl
  | false =>
      rw [infinity_not_lt_lowest, highest_lt_infinity hpos]
      rfl

/-- Without bounds, only infinities are refused. -/
theorem read_full (h : ∀ negative, (r.number (Binary f)).1 ≠ .ok (infinity f negative)) :
    (Range.full (Binary f)).read r = r.number (Binary f) := by
  refine Range.read_eq_number fun x hx => ?_
  cases hfinite : x.isFinite with
  | true => exact violation?_full_of_isFinite hfinite
  | false =>
      obtain ⟨numeral, hnumeral⟩ := Reader.exists_ofNumeral?_of_number hx
      rw [LawfulBinary.ofNumeral?_eq] at hnumeral
      have hinfinity := eq_infinity_of_isFinite_eq_false (rank_le_of_ofNumeral? hnumeral) hfinite
      exact absurd (hinfinity ▸ hx) (h x.negative)

theorem read_full_of_infinity {negative : Bool}
    (h : (r.number (Binary f)).1 = .ok (infinity f negative)) :
    (Range.full (Binary f)).read r = (.error ⟨beyond f negative, r⟩, r) :=
  Range.read_of_violation? h (violation?_full_infinity negative)

end Binary

end CommandGrammar
