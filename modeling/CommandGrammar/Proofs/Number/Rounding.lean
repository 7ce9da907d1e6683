import CommandGrammar.Number.Binary
import Mathlib.Algebra.Order.Field.Power
import Mathlib.Data.Int.Log
import Mathlib.Data.Rat.Floor
import Mathlib.Tactic.FieldSimp
import Mathlib.Tactic.Linarith
import Mathlib.Tactic.Positivity
import Mathlib.Tactic.Ring

/-!
# Rounding is monotone

What a rank stands for grows with the rank, and of two ratios the greater one is not rounded to the
smaller rank. So an operation that stays finite stays finite when its operand is made smaller.
-/

namespace CommandGrammar

/-! ### Powers as ratios -/

theorem pow_toNat_div {base : ℚ} (hbase : base ≠ 0) (e : Int) :
    base ^ e.toNat / base ^ (-e).toNat = base ^ e := by
  rw [← zpow_natCast, ← zpow_natCast, ← zpow_sub₀ hbase]
  congr 1
  omega

theorem cast_twoTo (n : Nat) : (twoTo n : ℚ) = 2 ^ n := by
  change ((2 ^ n : Nat) : ℚ) = 2 ^ n
  exact_mod_cast rfl

theorem cast_tenTo (n : Nat) : (tenTo n : ℚ) = 10 ^ n := by
  change ((10 ^ n : Nat) : ℚ) = 10 ^ n
  exact_mod_cast rfl

theorem twoTo_div (e : Int) : (twoTo e.toNat : ℚ) / twoTo (-e).toNat = 2 ^ e := by
  rw [cast_twoTo, cast_twoTo, pow_toNat_div two_ne_zero]

namespace BinaryFormat

variable {f : BinaryFormat} {num den : Nat}

/-! ### The nearest whole number -/

/-- The whole number is nearest to the ratio, and even if another one is as near. -/
structure Nearest (x : ℚ) (q : Nat) : Prop where
  lower : q - 1 / 2 ≤ x
  upper : x ≤ q + 1 / 2
  tie : x = q - 1 / 2 ∨ x = q + 1 / 2 → q % 2 = 0

theorem nearest_below {x : ℚ} {q : Nat} (hlower : q ≤ x) (hupper : x < q + 1 / 2) : Nearest x q where
  lower := by linarith
  upper := hupper.le
  tie h := by rcases h with h | h <;> linarith

theorem nearest_above {x : ℚ} {q : Nat} (hlower : q + 1 / 2 < x) (hupper : x < q + 1) :
    Nearest x (q + 1) where
  lower := by push_cast; linarith
  upper := by push_cast; linarith
  tie h := by push_cast at h; rcases h with h | h <;> linarith

theorem nearest_half (q : Nat) : Nearest (q + 1 / 2) (q + q % 2) := by
  rcases Nat.mod_two_eq_zero_or_one q with heven | hodd
  · rw [heven]
    exact ⟨by push_cast; linarith, by push_cast; linarith, fun _ => heven⟩
  · rw [hodd]
    exact ⟨by push_cast; linarith, by push_cast; linarith, fun _ => by omega⟩

theorem nearest_natCast (n : Nat) : Nearest n n := nearest_below le_rfl (by linarith)

theorem Nearest.mono {x y : ℚ} {q r : Nat} (hq : Nearest x q) (hr : Nearest y r) (h : x ≤ y) :
    q ≤ r := by
  by_contra hlt
  have hsucc : (r : ℚ) + 1 ≤ q := by exact_mod_cast Nat.lt_of_not_le hlt
  -- then both ratios are the tie between the two, of which only one is even
  have hx : x = q - 1 / 2 := le_antisymm (by linarith [hr.upper]) hq.lower
  have hy : y = r + 1 / 2 := le_antisymm hr.upper (by linarith [hq.lower])
  have hnext : q = r + 1 := by
    have : (q : ℚ) = r + 1 := by linarith
    exact_mod_cast this
  have heven := hq.tie (.inl hx)
  have heven' := hr.tie (.inr hy)
  omega

theorem nearest_roundRatio (num : Nat) (hden : 0 < den) :
    Nearest (num / den : ℚ) (roundRatio num den) := by
  have hpos : (0 : ℚ) < den := by exact_mod_cast hden
  have hsplit : (num : ℚ) = den * (num / den : Nat) + (num % den : Nat) := by
    exact_mod_cast (Nat.div_add_mod num den).symm
  have hratio : (num / den : ℚ) = (num / den : Nat) + (num % den : Nat) / den := by
    rw [hsplit]
    field_simp
  have hmod : ((num % den : Nat) : ℚ) / den < 1 := by
    rw [div_lt_one hpos]
    exact_mod_cast Nat.mod_lt num hden
  have hmod' : 0 ≤ ((num % den : Nat) : ℚ) / den := by positivity
  rw [hratio, roundRatio]
  generalize num / den = q at *
  generalize num % den = r at *
  split
  · rename_i hlt
    have hhalf : (r : ℚ) / den < 1 / 2 := by
      rw [div_lt_div_iff₀ hpos two_pos]
      exact_mod_cast (by omega : r * 2 < 1 * den)
    exact nearest_below (by linarith) (by linarith)
  split
  · rename_i hgt
    have hhalf : 1 / 2 < (r : ℚ) / den := by
      rw [div_lt_div_iff₀ two_pos hpos]
      exact_mod_cast (by omega : 1 * den < r * 2)
    exact nearest_above (by linarith) (by linarith)
  · have hhalf : (r : ℚ) / den = 1 / 2 := by
      rw [div_eq_div_iff hpos.ne' two_ne_zero]
      exact_mod_cast (by omega : r * 2 = 1 * den)
    rw [hhalf]
    exact nearest_half q

/-! ### The leading digit -/

theorem log_two_eq {x : ℚ} (hx : 0 < x) {e : Int} (hlower : (2 : ℚ) ^ e ≤ x)
    (hupper : x < (2 : ℚ) ^ (e + 1)) : Int.log 2 x = e := by
  have hle : e ≤ Int.log 2 x := (Int.zpow_le_iff_le_log one_lt_two hx).mp (by exact_mod_cast hlower)
  have hlt : Int.log 2 x < e + 1 :=
    (Int.lt_zpow_iff_log_lt one_lt_two hx).mp (by exact_mod_cast hupper)
  omega

theorem twoTo_le_div_iff (num : Nat) (hden : 0 < den) (e : Int) :
    den * twoTo e.toNat ≤ num * twoTo (-e).toNat ↔ (2 : ℚ) ^ e ≤ num / den := by
  have hposden : (0 : ℚ) < den := by exact_mod_cast hden
  have hposlow : (0 : ℚ) < twoTo (-e).toNat := by exact_mod_cast twoTo_pos _
  rw [← twoTo_div, div_le_div_iff₀ hposlow hposden, mul_comm, ← Nat.cast_mul, ← Nat.cast_mul,
    Nat.cast_le]

/-- The exponents of a numerator and a denominator give that of their ratio up to one. -/
theorem leadingExponent_eq (hnum : 0 < num) (hden : 0 < den) :
    leadingExponent num den = Int.log 2 (num / den : ℚ) := by
  have hposnum : (0 : ℚ) < num := by exact_mod_cast hnum
  have hposden : (0 : ℚ) < den := by exact_mod_cast hden
  have hpos : (0 : ℚ) < num / den := div_pos hposnum hposden
  have hnumlower : (2 : ℚ) ^ num.log2 ≤ num := by exact_mod_cast Nat.log2_self_le hnum.ne'
  have hnumupper : (num : ℚ) < 2 ^ (num.log2 + 1) := by exact_mod_cast Nat.lt_log2_self
  have hdenlower : (2 : ℚ) ^ den.log2 ≤ den := by exact_mod_cast Nat.log2_self_le hden.ne'
  have hdenupper : (den : ℚ) < 2 ^ (den.log2 + 1) := by exact_mod_cast Nat.lt_log2_self
  have hupper : (num / den : ℚ) < (2 : ℚ) ^ ((num.log2 : Int) - den.log2 + 1) := by
    rw [show (num.log2 : Int) - den.log2 + 1 = (num.log2 + 1 : Nat) - den.log2 by omega,
      zpow_sub₀ two_ne_zero, zpow_natCast, zpow_natCast]
    exact div_lt_div₀ hnumupper hdenlower (by positivity) (by positivity)
  have hlower : (2 : ℚ) ^ ((num.log2 : Int) - den.log2 - 1) ≤ num / den := by
    rw [show (num.log2 : Int) - den.log2 - 1 = num.log2 - (den.log2 + 1 : Nat) by omega,
      zpow_sub₀ two_ne_zero, zpow_natCast, zpow_natCast]
    exact div_le_div₀ hposnum.le hnumlower hposden hdenupper.le
  have htest := twoTo_le_div_iff num hden (num.log2 - den.log2)
  rw [leadingExponent]
  split
  · rename_i hle
    exact (log_two_eq hpos (htest.mp hle) hupper).symm
  · rename_i hnot
    rw [htest, not_le] at hnot
    refine (log_two_eq hpos hlower ?_).symm
    rwa [sub_add_cancel]

/-! ### Ranks of ratios -/

/-- How many exponents above the least one a ratio is rounded. -/
def stepOf (f : BinaryFormat) (x : ℚ) : Nat :=
  (Int.log 2 x - (f.precision - 1) - f.leastExponent).toNat

theorem exists_nearest_rank (f : BinaryFormat) (hnum : 0 < num) (hden : 0 < den) :
    ∃ q, Nearest ((num / den : ℚ) / 2 ^ (f.leastExponent + f.stepOf (num / den))) q
      ∧ f.rankOfRatio num den = min (f.stepOf (num / den) * f.binade + q) f.infinityRank := by
  refine ⟨_, ?_, by rw [rankOfRatio, if_neg hnum.ne', leadingExponent_eq hnum hden]; rfl⟩
  change Nearest _ (roundRatio (num * twoTo (-(f.leastExponent + f.stepOf (num / den))).toNat)
    (den * twoTo (f.leastExponent + f.stepOf (num / den)).toNat))
  have hnearest := nearest_roundRatio
    (num * twoTo (-(f.leastExponent + f.stepOf (num / den))).toNat)
    (Nat.mul_pos hden (twoTo_pos (f.leastExponent + f.stepOf (num / den)).toNat))
  rw [← twoTo_div]
  convert hnearest using 1
  have hhigh : (twoTo (f.leastExponent + f.stepOf (num / den)).toNat : ℚ) ≠ 0 := by
    exact_mod_cast (twoTo_pos _).ne'
  have hlow : (twoTo (-(f.leastExponent + f.stepOf (num / den))).toNat : ℚ) ≠ 0 := by
    exact_mod_cast (twoTo_pos _).ne'
  push_cast
  field_simp

theorem stepOf_mono (f : BinaryFormat) {x y : ℚ} (hx : 0 < x) (h : x ≤ y) :
    f.stepOf x ≤ f.stepOf y := by
  have hlog := Int.log_mono_right (b := 2) hx h
  rw [stepOf, stepOf]
  omega

section Ranks

variable (hf : 0 < f.precision)
include hf

theorem cast_binade : (f.binade : ℚ) = 2 ^ ((f.precision : Int) - 1) := by
  rw [binade, cast_twoTo, ← zpow_natCast]
  congr 1
  omega

/-- On the grid that it is rounded on, a ratio has no more digits than the format. -/
theorem div_lt_two_mul_binade (x : ℚ) :
    x / 2 ^ (f.leastExponent + f.stepOf x) < 2 * f.binade := by
  rw [cast_binade hf, ← zpow_one_add₀ two_ne_zero, div_lt_iff₀ (by positivity),
    ← zpow_add₀ two_ne_zero]
  calc x < 2 ^ (Int.log 2 x + 1) := by exact_mod_cast Int.lt_zpow_succ_log_self one_lt_two x
    _ ≤ _ := by
      apply zpow_le_zpow_right₀ one_le_two
      rw [stepOf]
      omega

/-- Above the least exponent it has all of them. -/
theorem binade_le_div {x : ℚ} (hx : 0 < x) (hstep : 0 < f.stepOf x) :
    f.binade ≤ x / 2 ^ (f.leastExponent + f.stepOf x) := by
  rw [cast_binade hf, le_div_iff₀ (by positivity), ← zpow_add₀ two_ne_zero]
  calc (2 : ℚ) ^ (f.precision - 1 + (f.leastExponent + f.stepOf x)) = 2 ^ Int.log 2 x := by
        congr 1
        rw [stepOf] at hstep ⊢
        omega
    _ ≤ x := by exact_mod_cast Int.zpow_log_le_self one_lt_two hx

/-- **Rounding is monotone.** -/
theorem rankOfRatio_mono {num' den' : Nat} (hden : 0 < den) (hden' : 0 < den')
    (h : (num / den : ℚ) ≤ num' / den') : f.rankOfRatio num den ≤ f.rankOfRatio num' den' := by
  rcases Nat.eq_zero_or_pos num with rfl | hnum
  · rw [rankOfRatio, if_pos rfl]
    exact Nat.zero_le _
  have hpos : (0 : ℚ) < num / den := by positivity
  have hnum' : 0 < num' := by
    rcases Nat.eq_zero_or_pos num' with rfl | hnum'
    · rw [Nat.cast_zero, zero_div] at h
      exact absurd h hpos.not_ge
    · exact hnum'
  obtain ⟨q, hq, hrank⟩ := exists_nearest_rank f hnum hden
  obtain ⟨r, hr, hrank'⟩ := exists_nearest_rank f hnum' hden'
  rw [hrank, hrank']
  refine min_le_min_right _ ?_
  have hstep := stepOf_mono f hpos h
  have hpos' := hpos.trans_le h
  generalize (num / den : ℚ) = x at *
  generalize (num' / den' : ℚ) = y at *
  rcases hstep.eq_or_lt with heq | hlt
  · rw [heq] at hq ⊢
    have hle := hq.mono hr (by gcongr)
    omega
  · -- a greater exponent makes up for fewer digits
    have hqle : q ≤ 2 * f.binade := by
      refine hq.mono (nearest_natCast (2 * f.binade)) ?_
      push_cast
      exact (div_lt_two_mul_binade hf x).le
    have hrge : f.binade ≤ r :=
      (nearest_natCast f.binade).mono hr (binade_le_div hf hpos' (Nat.zero_lt_of_lt hlt))
    have hmul := Nat.mul_le_mul_right f.binade hlt
    rw [Nat.succ_mul] at hmul
    omega

end Ranks

/-! ### Magnitudes of ranks -/

/-- The magnitude that has the rank. -/
def magnitude (f : BinaryFormat) (rank : Nat) : ℚ := f.significand rank * 2 ^ f.exponent rank

theorem magnitude_nonneg (f : BinaryFormat) (rank : Nat) : 0 ≤ f.magnitude rank := by
  rw [magnitude]
  positivity

theorem binade_pos (f : BinaryFormat) : 0 < f.binade := twoTo_pos _

theorem ratioOfRank_pos (f : BinaryFormat) (rank : Nat) : 0 < (f.ratioOfRank rank).2 := twoTo_pos _

theorem ratioOfRank_eq (f : BinaryFormat) (rank : Nat) :
    ((f.ratioOfRank rank).1 / (f.ratioOfRank rank).2 : ℚ) = f.magnitude rank := by
  rw [magnitude, ← twoTo_div, ratioOfRank]
  push_cast
  rw [mul_div_assoc]

/-- The ranks up to a magnitude fill the exponents below its own and as much of that as its digits
say. -/
theorem significand_eq (f : BinaryFormat) (rank : Nat) :
    f.significand rank + (rank / f.binade - 1) * f.binade = rank := by
  have hsplit := Nat.div_add_mod rank f.binade
  rw [significand]
  split
  · rename_i hlt
    rw [Nat.div_eq_of_lt hlt, Nat.zero_sub, Nat.zero_mul, Nat.add_zero]
  · rename_i hge
    have hblock : 1 ≤ rank / f.binade := Nat.div_pos (Nat.not_lt.mp hge) f.binade_pos
    obtain ⟨block, hblock⟩ := Nat.exists_eq_add_of_le hblock
    rw [hblock] at hsplit ⊢
    rw [Nat.add_sub_cancel_left]
    nlinarith

theorem exponent_mono (f : BinaryFormat) {rank rank' : Nat} (h : rank ≤ rank') :
    f.exponent rank ≤ f.exponent rank' := by
  have hblock := Nat.div_le_div_right (c := f.binade) h
  rw [exponent, exponent]
  omega

theorem significand_lt (f : BinaryFormat) (rank : Nat) : f.significand rank < 2 * f.binade := by
  have hmod := Nat.mod_lt rank f.binade_pos
  rw [significand]
  split <;> omega

theorem magnitude_mono (f : BinaryFormat) {rank rank' : Nat} (h : rank ≤ rank') :
    f.magnitude rank ≤ f.magnitude rank' := by
  have hsplit := f.significand_eq rank
  have hsplit' := f.significand_eq rank'
  have hblock := Nat.div_le_div_right (c := f.binade) h
  rw [magnitude, magnitude]
  rcases (Nat.sub_le_sub_right hblock 1).eq_or_lt with heq | hlt
  · have hexponent : f.exponent rank = f.exponent rank' := by rw [exponent, exponent, heq]
    have hsignificand : f.significand rank ≤ f.significand rank' := by
      rw [heq] at hsplit
      omega
    rw [hexponent]
    gcongr
  · -- a greater exponent makes up for fewer digits
    have hsignificand : f.binade ≤ f.significand rank' := by
      have hge : ¬rank' < f.binade := by
        intro hlt'
        rw [Nat.div_eq_of_lt hlt'] at hlt
        omega
      rw [significand, if_neg hge]
      exact Nat.le_add_right _ _
    have hexponent : 1 + f.exponent rank ≤ f.exponent rank' := by
      rw [exponent, exponent]
      omega
    have hlt : (f.significand rank : ℚ) ≤ 2 * f.binade := by exact_mod_cast (f.significand_lt rank).le
    calc (f.significand rank : ℚ) * 2 ^ f.exponent rank
        ≤ 2 * f.binade * 2 ^ f.exponent rank := by gcongr
      _ = f.binade * 2 ^ (1 + f.exponent rank) := by
        rw [zpow_one_add₀ two_ne_zero]
        ring
      _ ≤ f.significand rank' * 2 ^ f.exponent rank' := by
        gcongr
        exact one_le_two

end BinaryFormat

namespace Binary

variable {f : BinaryFormat} {x y : Binary f}

theorem rank_ofInt_le (hf : 0 < f.precision) {m n : Nat} (h : m ≤ n) :
    (ofInt f m).rank ≤ (ofInt f n).rank := by
  apply BinaryFormat.rankOfRatio_mono hf Nat.one_pos Nat.one_pos
  rw [Int.natAbs_natCast, Int.natAbs_natCast]
  gcongr

theorem rank_mul_le (hf : 0 < f.precision) {x' y' : Binary f} (hx : x.rank ≤ x'.rank)
    (hy : y.rank ≤ y'.rank) : (x.mul y).rank ≤ (x'.mul y').rank := by
  have hratio : ∀ z w : Binary f, (((f.ratioOfRank z.rank).1 * (f.ratioOfRank w.rank).1 : Nat)
      / ((f.ratioOfRank z.rank).2 * (f.ratioOfRank w.rank).2 : Nat) : ℚ)
        = f.magnitude z.rank * f.magnitude w.rank := by
    intro z w
    push_cast
    rw [mul_div_mul_comm, f.ratioOfRank_eq, f.ratioOfRank_eq]
  have hpos : ∀ z w : Binary f, 0 < (f.ratioOfRank z.rank).2 * (f.ratioOfRank w.rank).2 :=
    fun z w => Nat.mul_pos (f.ratioOfRank_pos z.rank) (f.ratioOfRank_pos w.rank)
  have hle := mul_le_mul (f.magnitude_mono hx) (f.magnitude_mono hy) (f.magnitude_nonneg y.rank)
    (f.magnitude_nonneg x'.rank)
  rw [← hratio, ← hratio] at hle
  exact BinaryFormat.rankOfRatio_mono hf (hpos x y) (hpos x' y') hle

end Binary

end CommandGrammar
