import CommandGrammar.Number.Shortest
import CommandGrammar.Proofs.Number.Rounding

/-!
# Shortest decimals stay near

The decimal that is written for a number exceeds it by at most half of the gap to the next one.
-/

namespace CommandGrammar

theorem tenTo_div (k : Int) : (tenTo k.toNat : ℚ) / tenTo (-k).toNat = 10 ^ k := by
  rw [cast_tenTo, cast_tenTo, pow_toNat_div (by norm_num)]

namespace BinaryFormat

variable {f : BinaryFormat}

/-- Halfway from a magnitude to the next one. -/
def upperEnd (f : BinaryFormat) (rank : Nat) : ℚ := f.magnitude rank + 2 ^ f.exponent rank / 2

theorem upperEnd_mono (f : BinaryFormat) {rank rank' : Nat} (h : rank ≤ rank') :
    f.upperEnd rank ≤ f.upperEnd rank' := by
  have hmagnitude := f.magnitude_mono h
  have hgap : (2 : ℚ) ^ f.exponent rank ≤ 2 ^ f.exponent rank' :=
    zpow_le_zpow_right₀ one_le_two (f.exponent_mono h)
  rw [upperEnd, upperEnd]
  linarith

theorem upperEnd_eq (f : BinaryFormat) (rank : Nat) :
    f.upperEnd rank = (RoundingInterval.ofRank f rank).upper
      * 2 ^ (RoundingInterval.ofRank f rank).exponent := by
  rw [upperEnd, magnitude, RoundingInterval.ofRank, zpow_sub₀ two_ne_zero]
  push_cast
  ring

end BinaryFormat

namespace RoundingInterval

variable {i : RoundingInterval} {tie : Tie} {k : Int} {q : Nat}

/-- The point of the decimal grid is positive and not above the interval. -/
def Holds (i : RoundingInterval) (q : Nat) (k : Int) : Prop :=
  0 < q ∧ (q : ℚ) * 10 ^ k ≤ i.upper * 2 ^ i.exponent

theorem le_upper_of_gridPoint? (h : i.gridPoint? (twoTo i.exponent.toNat * tenTo (-k).toNat)
      (twoTo (-i.exponent).toNat * tenTo k.toNat) q = true) :
    (q : ℚ) * 10 ^ k ≤ i.upper * 2 ^ i.exponent := by
  have hle : q * (twoTo (-i.exponent).toNat * tenTo k.toNat)
      ≤ i.upper * (twoTo i.exponent.toNat * tenTo (-k).toNat) := by
    rw [gridPoint?] at h
    split at h
    · exact (of_decide_eq_true h).2
    · exact (of_decide_eq_true h).2.le
  have htwo : (0 : ℚ) < twoTo (-i.exponent).toNat := by exact_mod_cast twoTo_pos _
  have hten : (0 : ℚ) < tenTo (-k).toNat := by exact_mod_cast tenTo_pos _
  rw [← twoTo_div, ← tenTo_div, mul_div_assoc', mul_div_assoc', div_le_div_iff₀ hten htwo]
  have hcast : (q * (twoTo (-i.exponent).toNat * tenTo k.toNat) : ℚ)
      ≤ i.upper * (twoTo i.exponent.toNat * tenTo (-k).toNat) := by exact_mod_cast hle
  linarith

theorem holds_of_onGrid? (h : i.onGrid? tie k = some q) : i.Holds q k := by
  rw [onGrid?.eq_def] at h
  extract_lets scale unit floor below above fromBelow toAbove at h
  have hbelow : below = true → i.Holds floor k := by
    intro hpoint
    obtain ⟨hpos, hpoint⟩ := Bool.and_eq_true_iff.mp hpoint
    exact ⟨of_decide_eq_true hpos, le_upper_of_gridPoint? hpoint⟩
  have habove : above = true → i.Holds (floor + 1) k :=
    fun hpoint => ⟨Nat.succ_pos floor, le_upper_of_gridPoint? hpoint⟩
  split_ifs at h with hboth hless hmore hpoint hpoint
  · exact Option.some.inj h ▸ hbelow (Bool.and_eq_true_iff.mp hboth).1
  · exact Option.some.inj h ▸ habove (Bool.and_eq_true_iff.mp hboth).2
  · obtain ⟨hpoint, hpoint'⟩ := Bool.and_eq_true_iff.mp hboth
    cases tie with
    | up => exact Option.some.inj h ▸ habove hpoint'
    | even =>
        obtain rfl := Option.some.inj h
        rcases Nat.mod_two_eq_zero_or_one floor with heven | hodd
        · exact heven.symm ▸ hbelow hpoint
        · exact hodd.symm ▸ habove hpoint'
  · exact Option.some.inj h ▸ hbelow hpoint
  · exact Option.some.inj h ▸ habove hpoint

theorem holds_of_search {tries : Nat} {start : Int} (h : i.search tie tries start = some (q, k)) :
    i.Holds q k := by
  induction tries generalizing start with
  | zero => cases h
  | succ tries ih =>
      rw [search] at h
      split at h
      · rename_i hgrid
        cases h
        exact holds_of_onGrid? hgrid
      · exact ih h

end RoundingInterval

/-- Unless none is found, the decimal is positive and at most halfway to the next number. -/
theorem shortestDecimal_le (f : BinaryFormat) (tie : Tie) (rank : Nat) :
    shortestDecimal f tie rank = (0, 0) ∨ 0 < (shortestDecimal f tie rank).1
      ∧ ((shortestDecimal f tie rank).1 : ℚ) * 10 ^ (shortestDecimal f tie rank).2
        ≤ f.upperEnd rank := by
  rw [shortestDecimal, f.upperEnd_eq]
  cases hsearch : (RoundingInterval.ofRank f rank).search tie 24 _ with
  | none => exact .inl rfl
  | some decimal => exact .inr (RoundingInterval.holds_of_search hsearch)

end CommandGrammar
