import CommandGrammar.Proofs.Json.Numerals
import CommandGrammar.Proofs.Number.Digits
import CommandGrammar.Proofs.Number.Shortest

/-!
# Numerals in range

A numeral is scaled in several steps, each of them rounded, and has no value if this ends beyond the
finite numbers. Up to halfway between the two highest numbers it never does. Rounding being
monotone, for each power of ten the greatest significand is the only one to be looked at.
-/

namespace CommandGrammar.Json

/-- Halfway between the two highest numbers of double precision. -/
def safeMagnitude : Nat := (twoTo 54 - 3) * twoTo 970

theorem tenTo_le_tenTo {m n : Nat} (h : m ≤ n) : tenTo m ≤ tenTo n :=
  Nat.pow_le_pow_right (by decide) h

theorem safeMagnitude_lt : safeMagnitude < tenTo 309 := by decide +kernel

theorem greatestNatural_le : greatestNatural ≤ safeMagnitude := by decide +kernel

/-! ### Scaling -/

section Scale

variable {x y : Binary .double} {exponent : Int}

theorem exists_scale_of_neg (x : Binary .double) (h : exponent < 0) :
    ∃ y, scale x exponent = some y := by
  induction x, exponent using scale.induct with
  | case1 | case2 | case3 | case4 => omega
  | case5 x exponent hhigh hneg hlow =>
      rw [scale, if_neg hhigh, if_neg hneg, if_pos hlow]
      exact ⟨_, rfl⟩
  | case6 x exponent hhigh hneg hlow hzero =>
      rw [scale, if_neg hhigh, if_neg hneg, if_neg hlow, if_pos hzero]
      exact ⟨_, rfl⟩
  | case7 x exponent hhigh hneg hlow hzero ih =>
      rw [scale, if_neg hhigh, if_neg hneg, if_neg hlow, if_neg hzero]
      exact ih (by omega)

theorem scale_natCast {e : Nat} (h : e ≤ 308) (hfinite : (x.mul (powerOfTen e)).isFinite = true) :
    scale x e = some (x.mul (powerOfTen e)) := by
  rw [scale, if_neg (by omega), if_pos (Int.natCast_nonneg e), Int.toNat_natCast]
  exact if_pos hfinite

theorem rank_powerOfTen_le {d e : Nat} (h : d ≤ e) : (powerOfTen d).rank ≤ (powerOfTen e).rank := by
  apply BinaryFormat.rankOfRatio_mono (by decide) Nat.one_pos Nat.one_pos
  have hle := tenTo_le_tenTo h
  gcongr

/-- Below `10 ^ 288` any significand is small enough. -/
theorem isFinite_greatest : ∀ e : Fin 21,
    ((Binary.ofInt .double (min (safeMagnitude / tenTo (288 + e)) greatestNatural : Nat)).mul
      (powerOfTen (288 + e))).isFinite = true := by
  decide +kernel

theorem isFinite_mul_powerOfTen {significand e : Nat} (he : e ≤ 308)
    (hfits : significand ≤ greatestNatural) (h : significand * tenTo e ≤ safeMagnitude) :
    ((Binary.ofInt .double significand).mul (powerOfTen e)).isFinite = true := by
  obtain ⟨power, hpower, hle⟩ : ∃ power : Fin 21, e ≤ 288 + power
      ∧ significand ≤ min (safeMagnitude / tenTo (288 + power)) greatestNatural := by
    rcases Nat.le_total e 288 with hlow | hhigh
    · exact ⟨0, hlow, le_min (hfits.trans (by decide +kernel)) hfits⟩
    · obtain ⟨power, rfl⟩ := Nat.exists_eq_add_of_le hhigh
      exact ⟨⟨power, by omega⟩, le_rfl, le_min ((Nat.le_div_iff_mul_le (tenTo_pos _)).mpr h) hfits⟩
  have hrank := Binary.rank_mul_le (by decide) (Binary.rank_ofInt_le (by decide) hle)
    (rank_powerOfTen_le hpower)
  exact decide_eq_true (hrank.trans_lt (of_decide_eq_true (isFinite_greatest power)))

theorem exists_scale_eq_some {significand : Nat} (hfits : significand ≤ greatestNatural)
    (h : 0 ≤ exponent → significand * 10 ^ exponent ≤ (safeMagnitude : ℚ)) :
    ∃ y, scale (Binary.ofInt .double significand) exponent = some y := by
  rcases lt_or_ge exponent 0 with hneg | hnonneg
  · exact exists_scale_of_neg _ hneg
  obtain ⟨e, rfl⟩ := Int.eq_ofNat_of_zero_le hnonneg
  have hle : significand * tenTo e ≤ safeMagnitude := by
    have hsafe := h hnonneg
    rw [zpow_natCast, ← cast_tenTo] at hsafe
    exact_mod_cast hsafe
  rcases Nat.lt_or_ge 308 e with hhigh | hlow
  · -- the power of ten alone is too great
    have hpower : safeMagnitude < tenTo e := safeMagnitude_lt.trans_le (tenTo_le_tenTo hhigh)
    have hzero : significand = 0 := by
      by_contra hpos
      have := Nat.le_mul_of_pos_left (tenTo e) (Nat.pos_of_ne_zero hpos)
      omega
    subst hzero
    rw [scale, if_pos (by omega), if_pos (by decide)]
    exact ⟨_, rfl⟩
  · exact ⟨_, scale_natCast hlow (isFinite_mul_powerOfTen hlow hfits hle)⟩

end Scale

/-! ### Values -/

/-- Of the digits as many are taken as fit in 64 bits. -/
theorem exists_accumulate_eq (digits : List Char) {n : Nat} (hn : n ≤ greatestNatural) (used : Nat) :
    ∃ taken left, digits = taken ++ left
      ∧ accumulate n used digits = (n * 10 ^ taken.length + Digits.value taken, used + taken.length)
      ∧ n * 10 ^ taken.length + Digits.value taken ≤ greatestNatural := by
  induction digits generalizing n used with
  | nil => exact ⟨[], [], rfl, by simp [accumulate, Digits.value], by simpa [Digits.value] using hn⟩
  | cons c digits ih =>
      rw [accumulate]
      split
      · exact ⟨[], c :: digits, rfl, by simp [Digits.value], by simpa [Digits.value] using hn⟩
      · rename_i hle
        obtain ⟨taken, left, rfl, hresult, hfits⟩ := ih (Nat.not_lt.mp hle) (used + 1)
        have hvalue : (10 * n + Digits.weight c) * 10 ^ taken.length + Digits.value taken
            = n * 10 ^ (c :: taken).length + Digits.value (c :: taken) := by
          rw [Digits.value_cons, List.length_cons]
          ring
        rw [hvalue] at hresult hfits
        refine ⟨c :: taken, left, rfl, ?_, hfits⟩
        rw [hresult, List.length_cons, Nat.add_right_comm, Nat.add_assoc]

namespace NumeralText

/-- The power of ten that is spelled. -/
def exponent (t : NumeralText) : Int :=
  match t.power with
  | none => 0
  | some (true, digits) => -Digits.value digits
  | some (false, digits) => Digits.value digits

/-- The number that is spelled, without its sign. -/
def magnitude (t : NumeralText) : ℚ :=
  Digits.value (t.whole ++ t.fraction) * 10 ^ (t.exponent - t.fraction.length)

/-- Digits that are left out make the number smaller. -/
theorem truncated_le {t : NumeralText} {taken left : List Char} (h : t.fraction = taken ++ left) :
    Digits.value (t.whole ++ taken) * 10 ^ (t.exponent - taken.length) ≤ t.magnitude := by
  have hpow : (10 : ℚ) ^ (t.exponent - taken.length)
      = 10 ^ left.length * 10 ^ (t.exponent - (taken ++ left).length) := by
    rw [← zpow_natCast, ← zpow_add₀ (by norm_num), List.length_append]
    congr 1
    omega
  rw [magnitude, h, ← List.append_assoc, Digits.value_append (t.whole ++ taken), hpow, ← mul_assoc]
  push_cast
  gcongr
  linarith [(Digits.value left).cast_nonneg (α := ℚ)]

end NumeralText

theorem clampExponent_le {n : Int} (h : 0 ≤ clampExponent n) : clampExponent n ≤ n := by
  have hbound : 0 < (twoTo 31 : Int) := by decide
  rw [clampExponent] at h ⊢
  omega

theorem exists_value_eq_ok {t : NumeralText} (hwhole : Digits.value t.whole ≤ greatestNatural)
    (hpower : ∀ digits, t.power = some (false, digits) → Digits.value digits < twoTo 31)
    (h : t.magnitude ≤ safeMagnitude) : ∃ n, t.value = .ok n := by
  have hall : accumulate 0 0 t.whole = (Digits.value t.whole, 0 + t.whole.length) :=
    accumulate_eq 0 hwhole
  obtain ⟨taken, left, hfraction, htaken, hfits⟩ := exists_accumulate_eq t.fraction hwhole 0
  rw [← Digits.value_append] at htaken hfits
  have hsignificand := (NumeralText.truncated_le hfraction).trans h
  have hfloat : ∀ e, (0 ≤ e → e ≤ t.exponent - taken.length) →
      ∃ x, scale (Binary.ofInt .double (Digits.value (t.whole ++ taken))) e = some x := by
    intro e he
    refine exists_scale_eq_some hfits fun hnonneg => le_trans ?_ hsignificand
    have hpow : (10 : ℚ) ^ e ≤ 10 ^ (t.exponent - taken.length) :=
      zpow_le_zpow_right₀ (by norm_num) (he hnonneg)
    exact mul_le_mul_of_nonneg_left hpow (Nat.cast_nonneg _)
  have hstart : ∃ x, scale (Binary.ofInt .double (Digits.value (t.whole ++ taken))) 0 = some x :=
    exists_scale_eq_some hfits fun _ => by
      rw [zpow_zero, mul_one]
      exact_mod_cast hfits.trans greatestNatural_le
  simp only [NumeralText.value, hall, htaken, Nat.zero_add, Nat.sub_self, Nat.cast_zero, zero_sub]
  rw [NumeralText.exponent] at hfloat
  rcases hp : t.power with _ | ⟨_ | _, digits⟩ <;> simp only [hp] at hfloat ⊢
  · obtain ⟨x, hx⟩ := hstart
    obtain ⟨y, hy⟩ := hfloat (-taken.length) fun _ => (zero_sub _).ge
    rw [hx, hy]
    split_ifs <;> exact ⟨_, rfl⟩
  · have hsmall := hpower digits hp
    obtain ⟨x, hx⟩ := hfloat (clampExponent (-taken.length + Digits.value digits)) fun hnonneg =>
      (clampExponent_le hnonneg).trans (by omega)
    rw [if_neg (Nat.not_le.mpr hsmall), if_neg Bool.false_ne_true, hx]
    exact ⟨_, rfl⟩
  · obtain ⟨x, hx⟩ := hfloat (clampExponent (-taken.length - Digits.value digits)) fun hnonneg =>
      (clampExponent_le hnonneg).trans (by omega)
    rw [if_pos trivial, hx]
    split_ifs with hlarge hzero
    · cases hzero.2
    · exact ⟨_, rfl⟩
    · exact ⟨_, rfl⟩

end CommandGrammar.Json
