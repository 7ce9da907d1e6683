import CommandGrammar.Proofs.Json.Grammar
import CommandGrammar.Proofs.Json.Scaling

/-!
# Texts of floating-point numbers

What is written for a finite number, around a point or with a power of ten, is a numeral of JSON with
the magnitude that was written. So the text of every finite number is read as a number in range.
-/

namespace CommandGrammar

namespace Json

/-! ### Scans of decimals -/

theorem scanPower_signed {digits : List Char} (hnonempty : digits ≠ [])
    (hdigits : ∀ c ∈ digits, c.isDigit = true) (negative : Bool) :
    scanPower ('e' :: (if negative then '-' else '+') :: digits)
      = .ok (some (negative, digits), []) := by
  have hscan := scanDigits_of_stops hnonempty hdigits Text.stops_nil
  rw [List.append_nil] at hscan
  cases negative <;> simp [scanPower, Decimal.splitSign, hscan, Except.map]

theorem scanNumeral_point {whole fraction : List Char} (negative : Bool) (hwhole : WholeDigits whole)
    (hnonempty : fraction ≠ []) (hdigits : ∀ c ∈ fraction, c.isDigit = true) :
    scanNumeral negative (whole ++ '.' :: fraction)
      = .ok (⟨negative, whole, fraction, none⟩, []) := by
  have hscan := scanDigits_of_stops hnonempty hdigits Text.stops_nil
  rw [List.append_nil] at hscan
  rw [scanNumeral, hwhole.scanWhole_append (Text.stops_cons rfl _)]
  simp only [ok_bind, scanFraction, hscan]
  rfl

theorem scanNumeral_power {d : Char} {fraction power : List Char} (negative below : Bool)
    (hd : d.isDigit = true) (hfraction : ∀ c ∈ fraction, c.isDigit = true) (hnonempty : power ≠ [])
    (hpower : ∀ c ∈ power, c.isDigit = true) :
    scanNumeral negative ((d :: if fraction = [] then [] else '.' :: fraction)
        ++ 'e' :: (if below then '-' else '+') :: power)
      = .ok (⟨negative, [d], fraction, some (below, power)⟩, []) := by
  have hwhole : WholeDigits [d] := ⟨List.cons_ne_nil d [], by simpa using hd, by simp⟩
  have hbehind := scanPower_signed hnonempty hpower below
  split
  · rename_i hempty
    subst hempty
    have hscan := hwhole.scanWhole_append (Text.stops_cons (c := 'e') rfl
      ((if below then '-' else '+') :: power))
    simp only [scanNumeral, hscan, ok_bind, scanFraction_cons_of_ne (c := 'e') (by decide), hbehind]
    rfl
  · rename_i hfilled
    have hscan := hwhole.scanWhole_append (Text.stops_cons (c := '.') rfl
      (fraction ++ 'e' :: (if below then '-' else '+') :: power))
    have hpart := scanDigits_of_stops hfilled hfraction (Text.stops_cons (c := 'e') rfl
      ((if below then '-' else '+') :: power))
    rw [List.singleton_append] at hscan
    simp only [List.cons_append, scanNumeral, hscan, ok_bind, scanFraction, hpart, hbehind]
    rfl

/-! ### Digits of a number -/

theorem wholeDigits_take_ofNat {n : Nat} (hn : 0 < n) {count : Nat} (hcount : 0 < count) :
    WholeDigits ((Digits.ofNat n).take count) where
  nonempty := by
    rw [ne_eq, List.take_eq_nil_iff, not_or]
    exact ⟨hcount.ne', Digits.ofNat_ne_nil n⟩
  isDigit c hc := Digits.isDigit_of_mem_ofNat (List.mem_of_mem_take hc)
  leading hzero := by
    obtain ⟨c, digits, hdigits, hc⟩ := Digits.ofNat_eq_cons hn
    obtain ⟨count, rfl⟩ := Nat.exists_eq_succ_of_ne_zero hcount.ne'
    rw [hdigits] at hzero
    exact absurd (Option.some.inj hzero) hc

theorem value_zeros_append (n : Nat) (digits : List Char) :
    Digits.value (Layout.zeros n ++ digits) = Digits.value digits := by
  rw [Digits.value_append, Layout.zeros, Digits.value_replicate, Nat.zero_mul, Nat.zero_add]

theorem value_append_zeros (digits : List Char) (n : Nat) :
    Digits.value (digits ++ Layout.zeros n) = Digits.value digits * 10 ^ n := by
  rw [Digits.value_append, Layout.zeros, Digits.value_replicate, List.length_replicate, Nat.add_zero]

theorem isDigit_of_mem_zeros {n : Nat} {c : Char} (h : c ∈ Layout.zeros n) : c.isDigit = true := by
  rw [List.eq_of_mem_replicate h]
  rfl

theorem value_le_greatestNatural {digits : List Char} (hdigits : ∀ c ∈ digits, c.isDigit = true)
    (hlength : digits.length ≤ 19) : Digits.value digits ≤ greatestNatural :=
  calc Digits.value digits ≤ 10 ^ digits.length := (Digits.value_lt hdigits).le
    _ ≤ 10 ^ 19 := Nat.pow_le_pow_right (by decide) hlength
    _ ≤ greatestNatural := by decide

/-! ### Digits around a point -/

/-- The text is a numeral with the magnitude, the whole part and a positive power of ten within the
bounds for them. -/
def Spells (negative : Bool) (text : List Char) (magnitude : ℚ) : Prop :=
  ∃ t, scanNumeral negative text = .ok (t, []) ∧ t.magnitude = magnitude
    ∧ Digits.value t.whole ≤ greatestNatural
    ∧ ∀ digits, t.power = some (false, digits) → Digits.value digits < twoTo 31

theorem Spells.exists_reads {negative : Bool} {text : List Char} {magnitude : ℚ}
    (h : Spells negative text magnitude) (hsafe : magnitude ≤ safeMagnitude) :
    ∃ n, Reads ((if negative then ['-'] else []) ++ text) (.number (.ok n)) := by
  obtain ⟨t, hscan, rfl, hwhole, hpower⟩ := h
  obtain ⟨n, hn⟩ := exists_value_eq_ok hwhole hpower hsafe
  exact ⟨n, hn ▸ reads_of_scanNumeral hscan blank_nil⟩

/-- Without a power of ten the magnitude is that of the digits, shifted by those behind the point. -/
theorem spells_point (negative : Bool) {whole fraction : List Char} (hwhole : WholeDigits whole)
    (hlength : whole.length ≤ 19) (hnonempty : fraction ≠ [])
    (hdigits : ∀ c ∈ fraction, c.isDigit = true) :
    Spells negative (whole ++ '.' :: fraction)
      (Digits.value (whole ++ fraction) * 10 ^ (-fraction.length : Int)) := by
  refine ⟨_, scanNumeral_point negative hwhole hnonempty hdigits, ?_,
    value_le_greatestNatural hwhole.isDigit hlength, ?_⟩
  · rw [NumeralText.magnitude, NumeralText.exponent, zero_sub]
  · rintro digits ⟨⟩

/-- A power of ten shifts the point behind the one digit in front of it. -/
theorem spells_power {d : Char} {fraction : List Char} {power : Nat} (negative below : Bool)
    (hd : d.isDigit = true) (hfraction : ∀ c ∈ fraction, c.isDigit = true)
    (hpower : below = false → power < twoTo 31) :
    Spells negative ((d :: if fraction = [] then [] else '.' :: fraction)
        ++ 'e' :: (if below then '-' else '+') :: Digits.ofNat power)
      (Digits.value (d :: fraction)
        * 10 ^ ((if below then -(power : Int) else power) - fraction.length)) := by
  refine ⟨_, scanNumeral_power negative below hd hfraction (Digits.ofNat_ne_nil power) fun c =>
    Digits.isDigit_of_mem_ofNat, ?_, value_le_greatestNatural (by simpa using hd) (by simp), ?_⟩
  · cases below <;> simp [NumeralText.magnitude, NumeralText.exponent]
  · rintro digits ⟨⟩
    rw [Digits.value_ofNat]
    exact hpower rfl

section Texts

variable {layout : Layout} {value : Nat} {k : Int} (negative : Bool)

theorem spells_pointed_below (hpoint : k + (Digits.ofNat value).length ≤ 0) :
    Spells negative (layout.pointed (Digits.ofNat value) (k + (Digits.ofNat value).length))
      (value * 10 ^ k) := by
  have hdigits : ∀ c ∈ Layout.zeros (-(k + (Digits.ofNat value).length)).toNat ++ Digits.ofNat value,
      c.isDigit = true :=
    fun c hc => (List.mem_append.mp hc).elim isDigit_of_mem_zeros Digits.isDigit_of_mem_ofNat
  have hspells := spells_point negative wholeDigits_zero (by decide)
    (List.append_ne_nil_of_right_ne_nil _ (Digits.ofNat_ne_nil value)) hdigits
  have hlength : -((Layout.zeros (-(k + (Digits.ofNat value).length)).toNat
      ++ Digits.ofNat value).length : Int) = k := by
    rw [List.length_append, Layout.zeros, List.length_replicate]
    omega
  rw [hlength, show ['0'] = Layout.zeros 1 from rfl, value_zeros_append, value_zeros_append,
    Digits.value_ofNat] at hspells
  rw [Layout.pointed, if_pos hpoint]
  exact hspells

theorem spells_pointed_within (hvalue : 0 < value) (hpos : 0 < k + (Digits.ofNat value).length)
    (hk : k < 0) (hpoint : k + (Digits.ofNat value).length ≤ 19) :
    Spells negative (layout.pointed (Digits.ofNat value) (k + (Digits.ofNat value).length))
      (value * 10 ^ k) := by
  have hnonempty : (Digits.ofNat value).drop (k + (Digits.ofNat value).length).toNat ≠ [] := by
    rw [ne_eq, List.drop_eq_nil_iff]
    omega
  have hwhole := wholeDigits_take_ofNat hvalue
    (show 0 < (k + (Digits.ofNat value).length).toNat by omega)
  have hspells := spells_point negative hwhole (by rw [List.length_take]; omega) hnonempty
    fun c hc => Digits.isDigit_of_mem_ofNat (List.mem_of_mem_drop hc)
  have hlength : -(((Digits.ofNat value).drop (k + (Digits.ofNat value).length).toNat).length : Int)
      = k := by
    rw [List.length_drop]
    omega
  rw [hlength, List.take_append_drop, Digits.value_ofNat] at hspells
  rw [Layout.pointed, if_neg (by omega), if_pos (by omega)]
  exact hspells

/-- Zeros fill the places up to the point, and one stands behind it. -/
theorem spells_pointed_beyond (hmark : layout.wholeMark = ".0".toList)
    (hvalue : 0 < value ∨ value = 0 ∧ k = 0) (hk : 0 ≤ k)
    (hpoint : k + (Digits.ofNat value).length ≤ 19) :
    Spells negative (layout.pointed (Digits.ofNat value) (k + (Digits.ofNat value).length))
      (value * 10 ^ k) := by
  have hlength := List.length_pos_iff.mpr (Digits.ofNat_ne_nil value)
  obtain ⟨e, rfl⟩ := Int.eq_ofNat_of_zero_le hk
  have hwhole : WholeDigits (Digits.ofNat value ++ Layout.zeros e) := by
    rcases hvalue with hpos | ⟨rfl, hzero⟩
    · exact wholeDigits_ofNat_append hpos fun c => isDigit_of_mem_zeros
    · obtain rfl : e = 0 := Int.natCast_eq_zero.mp hzero
      have hplain := wholeDigits_ofNat 0
      rwa [← List.append_nil (Digits.ofNat 0)] at hplain
  have hplaces : (Digits.ofNat value ++ Layout.zeros e).length ≤ 19 := by
    rw [List.length_append, Layout.zeros, List.length_replicate]
    omega
  have hnonempty : Layout.zeros 1 ≠ [] := List.cons_ne_nil _ _
  have hspells := spells_point negative hwhole hplaces hnonempty fun c => isDigit_of_mem_zeros
  rw [value_append_zeros, value_append_zeros, Digits.value_ofNat] at hspells
  rw [Layout.pointed, if_neg (by omega), if_neg (by omega), hmark, Int.add_sub_cancel,
    Int.toNat_natCast]
  have hmagnitude : ((value * 10 ^ e * 10 ^ 1 : Nat) * 10 ^ (-(Layout.zeros 1).length : Int) : ℚ)
      = value * 10 ^ (e : Int) := by
    rw [Layout.zeros, List.length_replicate, zpow_natCast]
    push_cast
    field_simp
  exact hmagnitude ▸ hspells

theorem spells_pointed (hmark : layout.wholeMark = ".0".toList)
    (hvalue : 0 < value ∨ value = 0 ∧ k = 0) (hpoint : k + (Digits.ofNat value).length ≤ 19) :
    Spells negative (layout.pointed (Digits.ofNat value) (k + (Digits.ofNat value).length))
      (value * 10 ^ k) := by
  rcases le_or_gt (k + (Digits.ofNat value).length) 0 with hbelow | hpos
  · exact spells_pointed_below negative hbelow
  rcases le_or_gt 0 k with hk | hk
  · exact spells_pointed_beyond negative hmark hvalue hk hpoint
  · have hdigits := hvalue.resolve_right fun hzero => hk.ne hzero.2
    exact spells_pointed_within negative hdigits hpos hk hpoint

/-! ### Digits with a power of ten -/

/-- No magnitude up to the safe one needs a power of ten with more than three digits. -/
theorem point_le_of_safe (hvalue : 0 < value) (hsafe : value * 10 ^ k ≤ (safeMagnitude : ℚ)) :
    k + (Digits.ofNat value).length ≤ 309 := by
  by_contra hlarge
  have hdigits := List.length_pos_iff.mpr (Digits.ofNat_ne_nil value)
  have hlength : (10 : ℚ) ^ ((Digits.ofNat value).length - 1) ≤ value := by
    exact_mod_cast Digits.pow_length_le hvalue
  have hle : (10 : ℚ) ^ 309 ≤ value * 10 ^ k :=
    calc (10 : ℚ) ^ 309 ≤ 10 ^ (((Digits.ofNat value).length - 1 : Nat) + k) := by
          rw [← zpow_natCast]
          exact zpow_le_zpow_right₀ (by norm_num) (by omega)
      _ = 10 ^ ((Digits.ofNat value).length - 1) * 10 ^ k := by
          rw [zpow_add₀ (by norm_num), zpow_natCast]
      _ ≤ value * 10 ^ k := by gcongr
  have hlt : (safeMagnitude : ℚ) < 10 ^ 309 := by
    rw [← cast_tenTo]
    exact_mod_cast safeMagnitude_lt
  exact absurd (hle.trans hsafe) hlt.not_ge

theorem powered_cons (hmark : layout.powerMark = "e+".toList)
    (hmark' : layout.negativePowerMark = "e-".toList) (d : Char) (digits : List Char) (point : Int) :
    layout.powered (d :: digits) point = (d :: if digits = [] then [] else '.' :: digits)
      ++ 'e' :: (if decide (point - 1 < 0) then '-' else '+') :: Digits.ofNat (point - 1).natAbs := by
  rw [Layout.powered.eq_def, hmark, hmark']
  by_cases hbelow : point - 1 < 0 <;> cases digits <;> simp [hbelow]

theorem spells_powered (hmark : layout.powerMark = "e+".toList)
    (hmark' : layout.negativePowerMark = "e-".toList) (hvalue : 0 < value)
    (hsafe : value * 10 ^ k ≤ (safeMagnitude : ℚ)) :
    Spells negative (layout.powered (Digits.ofNat value) (k + (Digits.ofNat value).length))
      (value * 10 ^ k) := by
  have hpoint := point_le_of_safe hvalue hsafe
  obtain ⟨d, digits, hdigits, -⟩ := Digits.ofNat_eq_cons hvalue
  have hall : ∀ c ∈ d :: digits, c.isDigit = true := hdigits ▸ fun c => Digits.isDigit_of_mem_ofNat
  have hd := hall d List.mem_cons_self
  have hvalue : Digits.value (d :: digits) = value := hdigits ▸ Digits.value_ofNat value
  rw [hdigits] at hpoint ⊢
  rw [powered_cons hmark hmark', ← hvalue]
  generalize hpower : k + (d :: digits).length - 1 = power
  rw [List.length_cons] at hpoint hpower
  have hsmall : decide (power < 0) = false → power.natAbs < twoTo 31 := by
    intro hnonneg
    have hlarge : 309 ≤ twoTo 31 := by decide
    have := of_decide_eq_false hnonneg
    omega
  have hspells := spells_power negative (decide (power < 0)) hd
    (fun c hc => hall c (List.mem_cons_of_mem d hc)) hsmall
  have hk : (if decide (power < 0) then -(power.natAbs : Int) else power.natAbs) - digits.length
      = k := by
    simp only [decide_eq_true_eq]
    split <;> omega
  rwa [hk] at hspells

end Texts

/-! ### Texts of finite numbers -/

/-- A layout that writes finite numbers as numerals of JSON, and anything else as null. -/
structure IsNumeric (layout : Layout) : Prop where
  wholeMark : layout.wholeMark = ".0".toList
  powerMark : layout.powerMark = "e+".toList
  negativePowerMark : layout.negativePowerMark = "e-".toList
  positional : ∃ least greatest, layout.positional = some (least, greatest)
    ∧ least ≤ 1 ∧ 1 ≤ greatest ∧ greatest ≤ 19
  infinity : layout.infinity = "null".toList
  negativeInfinity : layout.negativeInfinity = "null".toList
  nan : layout.nan = "null".toList

theorem isNumeric_singleLayout : IsNumeric singleLayout :=
  ⟨rfl, rfl, rfl, ⟨-5, 13, rfl, by decide, by decide, by decide⟩, rfl, rfl, rfl⟩

theorem isNumeric_doubleLayout : IsNumeric doubleLayout :=
  ⟨rfl, rfl, rfl, ⟨-4, 16, rfl, by decide, by decide, by decide⟩, rfl, rfl, rfl⟩

section Magnitudes

variable {layout : Layout} (h : IsNumeric layout) {f : BinaryFormat} {rank : Nat}
include h

theorem exists_spells_magnitude (hsafe : f.upperEnd rank ≤ safeMagnitude) (negative : Bool) :
    ∃ m ≤ (safeMagnitude : ℚ), Spells negative (layout.magnitude f rank) m := by
  have hlength : (Digits.ofNat 0).length = 1 := by
    rw [ofNat_zero]
    rfl
  have hspells := spells_pointed negative h.wholeMark (.inr ⟨rfl, rfl⟩) (by omega)
  have hsmall : ((0 : Nat) * 10 ^ (0 : Int) : ℚ) ≤ safeMagnitude := by
    rw [Nat.cast_zero, zero_mul]
    exact Nat.cast_nonneg _
  by_cases hrank : rank = 0
  · have htext : layout.pointed (Digits.ofNat 0) (0 + (Digits.ofNat 0).length)
        = '0' :: layout.wholeMark := by
      rw [ofNat_zero]
      rfl
    rw [Layout.magnitude, if_pos hrank, ← htext]
    exact ⟨_, hsmall, hspells⟩
  obtain ⟨least, greatest, hpositional, hleast, hgreatest, hlimit⟩ := h.positional
  have hdecimal := shortestDecimal_le f layout.tie rank
  rw [Layout.magnitude.eq_def, if_neg hrank]
  generalize shortestDecimal f layout.tie rank = decimal at hdecimal ⊢
  obtain ⟨value, k⟩ := decimal
  simp only [hpositional, decide_eq_true_eq]
  rcases hdecimal with hnotFound | ⟨hpos, hle⟩
  · obtain ⟨rfl, rfl⟩ := Prod.mk.inj hnotFound
    rw [if_pos (by omega)]
    exact ⟨_, hsmall, hspells⟩
  · refine ⟨_, hle.trans hsafe, ?_⟩
    split
    · rename_i hplain
      exact spells_pointed negative h.wholeMark (.inl hpos) (hplain.2.trans hlimit)
    · exact spells_powered negative h.powerMark h.negativePowerMark hpos (hle.trans hsafe)

end Magnitudes

theorem upperEnd_single_le {rank : Nat} (h : rank < BinaryFormat.single.infinityRank) :
    BinaryFormat.single.upperEnd rank ≤ safeMagnitude := by
  have hmono := BinaryFormat.single.upperEnd_mono (Nat.le_pred_of_lt h)
  have hsignificand : BinaryFormat.single.significand (BinaryFormat.single.infinityRank - 1)
      = 2 ^ 24 - 1 := by decide
  have hexponent : BinaryFormat.single.exponent (BinaryFormat.single.infinityRank - 1) = 104 := by
    decide
  have hsafe : ((2 ^ 128 : Nat) : ℚ) ≤ safeMagnitude :=
    Nat.cast_le.mpr (by decide +kernel : 2 ^ 128 ≤ safeMagnitude)
  refine hmono.trans (le_trans ?_ hsafe)
  rw [BinaryFormat.upperEnd, BinaryFormat.magnitude, Nat.pred_eq_sub_one, hsignificand, hexponent]
  norm_num

theorem upperEnd_double_le {rank : Nat} (h : rank + 1 < BinaryFormat.double.infinityRank) :
    BinaryFormat.double.upperEnd rank ≤ safeMagnitude := by
  have hmono := BinaryFormat.double.upperEnd_mono
    (show rank ≤ BinaryFormat.double.infinityRank - 2 by omega)
  have hsignificand : BinaryFormat.double.significand (BinaryFormat.double.infinityRank - 2)
      = 2 ^ 53 - 2 := by decide
  have hexponent : BinaryFormat.double.exponent (BinaryFormat.double.infinityRank - 2) = 971 := by
    decide
  have hpower : (2 : ℚ) ^ (971 : Int) = 2 * twoTo 970 := by
    rw [cast_twoTo, ← zpow_natCast, ← zpow_one_add₀ two_ne_zero]
    rfl
  refine hmono.trans ?_
  rw [BinaryFormat.upperEnd, BinaryFormat.magnitude, hsignificand, hexponent, hpower, safeMagnitude,
    Nat.cast_mul]
  generalize (twoTo 970 : ℚ) = unit
  have hleft : (2 ^ 53 - 2 : Nat) = (9007199254740990 : ℚ) := by norm_num
  have hright : (twoTo 54 - 3 : Nat) = (18014398509481981 : ℚ) := by
    rw [show twoTo 54 - 3 = 18014398509481981 by decide]
    norm_num
  rw [hleft, hright]
  linarith

/-- The text of the highest number itself is read as that number, or as the lowest. -/
theorem reads_highest (negative : Bool) :
    Reads ((if negative then ['-'] else [])
        ++ doubleLayout.magnitude .double (BinaryFormat.double.infinityRank - 1))
      (.number (.ok (.float ⟨negative, BinaryFormat.double.infinityRank - 1⟩))) := by
  have htext : doubleLayout.magnitude .double (BinaryFormat.double.infinityRank - 1)
      = "1.7976931348623157e+308".toList := by decide +kernel
  have hscan : scanNumeral negative "1.7976931348623157e+308".toList
      = .ok (⟨negative, "1".toList, "7976931348623157".toList, some (false, "308".toList)⟩, []) := rfl
  have hvalue : NumeralText.value
      ⟨negative, "1".toList, "7976931348623157".toList, some (false, "308".toList)⟩
        = .ok (.float ⟨negative, BinaryFormat.double.infinityRank - 1⟩) := by
    cases negative <;> decide +kernel
  rw [htext, ← hvalue]
  exact reads_of_scanNumeral hscan blank_nil

theorem reads_null : Reads "null".toList .null := by
  intro gap rest fuel hgap _ hfuel
  refine ⟨[], blank_nil, ?_⟩
  cases fuel with
  | zero => simp at hfuel
  | succ fuel =>
      rw [readValue, List.append_assoc, skipSpace_append hgap]
      rfl

/-- A number, or nothing where there is no number to write. -/
inductive NumberOrNull : Reading → Prop where
  | number (n : Numeral) : NumberOrNull (.number (.ok n))
  | null : NumberOrNull .null

theorem IsNumeric.exists_reads_render {layout : Layout} (hlayout : IsNumeric layout)
    {f : BinaryFormat} {x : Binary f} (h : x.isFinite = true → ∃ n,
      Reads ((if x.negative then ['-'] else []) ++ layout.magnitude f x.rank) (.number (.ok n))) :
    ∃ r, Reads (layout.render x) r ∧ NumberOrNull r := by
  have hnull : ∃ r, Reads "null".toList r ∧ NumberOrNull r := ⟨.null, reads_null, .null⟩
  rw [Layout.render, hlayout.nan, hlayout.infinity, hlayout.negativeInfinity]
  split
  · exact hnull
  split
  · rename_i hfinite
    obtain ⟨n, hn⟩ := h hfinite
    exact ⟨_, hn, .number n⟩
  · rwa [ite_self]

theorem exists_reads_render_single (x : Binary .single) :
    ∃ r, Reads (singleLayout.render x) r ∧ NumberOrNull r := by
  refine isNumeric_singleLayout.exists_reads_render fun hfinite => ?_
  have hsafe := upperEnd_single_le (of_decide_eq_true hfinite)
  obtain ⟨m, hm, hspells⟩ := exists_spells_magnitude isNumeric_singleLayout hsafe x.negative
  exact hspells.exists_reads hm

theorem exists_reads_render_double (x : Binary .double) :
    ∃ r, Reads (doubleLayout.render x) r ∧ NumberOrNull r := by
  refine isNumeric_doubleLayout.exists_reads_render fun hfinite => ?_
  have hrank : x.rank < BinaryFormat.double.infinityRank := of_decide_eq_true hfinite
  rcases Nat.eq_or_lt_of_le (Nat.succ_le_of_lt hrank) with hhighest | hlower
  · -- only here the bound on the written digits says too little
    have hreads := reads_highest x.negative
    rw [show BinaryFormat.double.infinityRank - 1 = x.rank by omega] at hreads
    exact ⟨_, hreads⟩
  · obtain ⟨m, hm, hspells⟩ :=
      exists_spells_magnitude isNumeric_doubleLayout (upperEnd_double_le hlower) x.negative
    exact hspells.exists_reads hm

end Json

end CommandGrammar
