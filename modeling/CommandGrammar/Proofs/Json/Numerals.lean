import CommandGrammar.Json.Reading
import CommandGrammar.Json.Text
import CommandGrammar.Proofs.Outcomes
import CommandGrammar.Proofs.Text.Runs
import Mathlib.Order.Basic
import Mathlib.Tactic.ByContra
import Mathlib.Tactic.SplitIfs

/-!
# Reading back numbers

A scan of a number looks no further than its end, provided that what comes there does not go on with
the number. So the text of a number means the same alone and in front of a comma or a bracket.
-/

namespace CommandGrammar

namespace Digits

/-- Only zero is written with a zero in front. -/
theorem ofNat_eq_cons {n : Nat} (hn : 0 < n) : ∃ c digits, ofNat n = c :: digits ∧ c ≠ '0' := by
  induction n using ofNat.induct with
  | case1 n hlt =>
      have hall : ∀ d : Fin 10, 0 < d.val → digit d ≠ '0' := by decide
      exact ⟨digit n, [], by rw [ofNat, if_pos hlt], hall ⟨n, hlt⟩ hn⟩
  | case2 n hlt ih =>
      obtain ⟨c, digits, heq, hc⟩ := ih (by omega)
      exact ⟨c, digits ++ [digit (n % 10)], by rw [ofNat, if_neg hlt, heq, List.cons_append], hc⟩

end Digits

namespace Json

/-- What stands behind a number does not go on with it. -/
def EndsNumeral (text : List Char) : Prop :=
  ∀ c rest, text = c :: rest → c.isDigit = false ∧ c ≠ '.' ∧ c ≠ 'e' ∧ c ≠ 'E'

theorem endsNumeral_nil : EndsNumeral [] := by
  intro c rest h
  cases h

/-! ### Scans that look no further than their end -/

section Scans

variable {text left rest : List Char} (hrest : EndsNumeral rest)
include hrest

theorem EndsNumeral.stops : Text.Stops Char.isDigit rest := by
  cases rest with
  | nil =>
      intro c hc
      cases hc
  | cons c rest =>
      intro d hd
      obtain rfl := Option.some.inj hd
      exact (hrest c rest rfl).1

theorem scanDigits_append {digits : List Char} (h : scanDigits text = .ok (digits, left)) :
    scanDigits (text ++ rest) = .ok (digits, left ++ rest) := by
  rw [scanDigits] at h ⊢
  rw [hrest.stops.takeWhile_append, hrest.stops.dropWhile_append]
  split_ifs at h ⊢ with hempty
  cases h
  rfl

omit hrest in
theorem scanWhole_cons_of_ne {c : Char} (hc : c ≠ '0') (text : List Char) :
    scanWhole (c :: text) = scanDigits (c :: text) := by
  rw [scanWhole]
  rintro rest heq
  exact hc (List.cons.inj heq).1

theorem scanWhole_append {digits : List Char} (h : scanWhole text = .ok (digits, left)) :
    scanWhole (text ++ rest) = .ok (digits, left ++ rest) := by
  cases text with
  | nil => cases h
  | cons c text =>
      by_cases hc : c = '0'
      · subst hc
        cases text with
        | nil =>
            cases h
            cases rest with
            | nil => rfl
            | cons d rest => simp [scanWhole, (hrest d rest rfl).1]
        | cons d text =>
            simp only [scanWhole, List.cons_append] at h ⊢
            split_ifs at h ⊢ with hd
            cases h
            rfl
      · rw [scanWhole_cons_of_ne hc] at h
        rw [List.cons_append, scanWhole_cons_of_ne hc, ← List.cons_append]
        exact scanDigits_append hrest h

omit hrest in
theorem scanFraction_cons_of_ne {c : Char} (hc : c ≠ '.') (text : List Char) :
    scanFraction (c :: text) = .ok ([], c :: text) := by
  rw [scanFraction]
  rintro rest heq
  exact hc (List.cons.inj heq).1

theorem scanFraction_append {digits : List Char} (h : scanFraction text = .ok (digits, left)) :
    scanFraction (text ++ rest) = .ok (digits, left ++ rest) := by
  cases text with
  | nil =>
      cases h
      cases rest with
      | nil => rfl
      | cons c rest => exact scanFraction_cons_of_ne (hrest c rest rfl).2.1 rest
  | cons c text =>
      by_cases hc : c = '.'
      · subst hc
        exact scanDigits_append hrest h
      · rw [scanFraction_cons_of_ne hc] at h
        cases h
        exact scanFraction_cons_of_ne hc _

omit hrest in
theorem splitSign_cons_append (c : Char) (text : List Char) :
    Decimal.splitSign (c :: text ++ rest)
      = ((Decimal.splitSign (c :: text)).1, (Decimal.splitSign (c :: text)).2 ++ rest) := by
  by_cases hminus : c = '-'
  · subst hminus
    rfl
  by_cases hplus : c = '+'
  · subst hplus
    rfl
  · simp [Decimal.splitSign, hminus, hplus]

theorem scanPower_append {power : Option (Bool × List Char)} (h : scanPower text = .ok (power, left)) :
    scanPower (text ++ rest) = .ok (power, left ++ rest) := by
  cases text with
  | nil =>
      cases h
      cases rest with
      | nil => rfl
      | cons c rest => simp [scanPower, (hrest c rest rfl).2.2]
  | cons c text =>
      rw [List.cons_append]
      rw [scanPower] at h ⊢
      split_ifs at h ⊢ with hletter
      · cases text with
        | nil => cases h
        | cons d text =>
            rw [splitSign_cons_append]
            generalize Decimal.splitSign (d :: text) = split at h ⊢
            obtain ⟨negative, body⟩ := split
            obtain ⟨⟨digits, behind⟩, hscan, heq⟩ := exists_eq_ok_of_map h
            cases heq
            simp only [scanDigits_append hrest hscan]
            rfl
      · cases h
        rfl

/-- A number ends at the same place whatever stands behind it that does not go on with it. -/
theorem scanNumeral_append {negative : Bool} {numeral : NumeralText}
    (h : scanNumeral negative text = .ok (numeral, left)) :
    scanNumeral negative (text ++ rest) = .ok (numeral, left ++ rest) := by
  obtain ⟨⟨whole, behindWhole⟩, hwhole, h⟩ := exists_eq_ok_of_bind h
  obtain ⟨⟨fraction, behindFraction⟩, hfraction, h⟩ := exists_eq_ok_of_bind h
  obtain ⟨⟨power, behindPower⟩, hpower, h⟩ := exists_eq_ok_of_bind h
  cases h
  simp only [scanNumeral, scanWhole_append hrest hwhole, scanFraction_append hrest hfraction,
    scanPower_append hrest hpower, ok_bind]
  rfl

end Scans

/-! ### Scans of given digits -/

/-- Digits of a whole number; only zero starts with a zero. -/
structure WholeDigits (digits : List Char) : Prop where
  nonempty : digits ≠ []
  isDigit : ∀ c ∈ digits, c.isDigit = true
  leading : digits.head? = some '0' → digits = ['0']

section GivenDigits

variable {digits rest : List Char}

theorem scanDigits_of_stops (hnonempty : digits ≠ []) (hdigits : ∀ c ∈ digits, c.isDigit = true)
    (hrest : Text.Stops Char.isDigit rest) : scanDigits (digits ++ rest) = .ok (digits, rest) := by
  rw [scanDigits, hrest.takeWhile_append, hrest.dropWhile_append,
    List.takeWhile_eq_self_iff.mpr hdigits, List.dropWhile_eq_nil_iff.mpr hdigits]
  exact if_neg (by simpa using hnonempty)

theorem WholeDigits.scanWhole_append (h : WholeDigits digits) (hrest : Text.Stops Char.isDigit rest) :
    scanWhole (digits ++ rest) = .ok (digits, rest) := by
  obtain ⟨c, more, rfl⟩ := List.exists_cons_of_ne_nil h.nonempty
  by_cases hc : c = '0'
  · subst hc
    obtain rfl := (List.cons.inj (h.leading rfl)).2
    cases rest with
    | nil => rfl
    | cons d rest => simp [scanWhole, hrest d rfl]
  · rw [List.cons_append, scanWhole_cons_of_ne hc, ← List.cons_append]
    exact scanDigits_of_stops h.nonempty h.isDigit hrest

end GivenDigits

theorem wholeDigits_zero : WholeDigits ['0'] where
  nonempty := List.cons_ne_nil '0' []
  isDigit _ hc := List.mem_singleton.mp hc ▸ rfl
  leading _ := rfl

theorem ofNat_zero : Digits.ofNat 0 = ['0'] := by
  rw [Digits.ofNat]
  rfl

theorem wholeDigits_ofNat_append {n : Nat} (hn : 0 < n) {more : List Char}
    (hmore : ∀ c ∈ more, c.isDigit = true) : WholeDigits (Digits.ofNat n ++ more) where
  nonempty := List.append_ne_nil_of_left_ne_nil (Digits.ofNat_ne_nil n) more
  isDigit c hc := (List.mem_append.mp hc).elim Digits.isDigit_of_mem_ofNat (hmore c)
  leading hzero := by
    obtain ⟨c, digits, hdigits, hc⟩ := Digits.ofNat_eq_cons hn
    rw [hdigits] at hzero
    exact absurd (Option.some.inj hzero) hc

theorem wholeDigits_ofNat (n : Nat) : WholeDigits (Digits.ofNat n) := by
  rcases Nat.eq_zero_or_pos n with rfl | hn
  · rw [ofNat_zero]
    exact wholeDigits_zero
  · have hwhole := wholeDigits_ofNat_append hn (List.forall_mem_nil _)
    rwa [List.append_nil] at hwhole

theorem exists_eq_cons_of_scanNumeral {negative : Bool} {text left : List Char} {numeral : NumeralText}
    (h : scanNumeral negative text = .ok (numeral, left)) :
    ∃ c rest, text = c :: rest ∧ c.isDigit = true := by
  obtain ⟨⟨whole, behindWhole⟩, hwhole, -⟩ := exists_eq_ok_of_bind h
  cases text with
  | nil => cases hwhole
  | cons c text =>
      refine ⟨c, text, rfl, ?_⟩
      by_cases hc : c = '0'
      · exact hc ▸ rfl
      · rw [scanWhole_cons_of_ne hc, scanDigits] at hwhole
        by_contra hdigit
        rw [List.takeWhile_cons_of_neg hdigit] at hwhole
        cases hwhole

/-! ### Integers -/

theorem le_foldl_weight (digits : List Char) (n : Nat) :
    n ≤ digits.foldl (fun n c => 10 * n + Digits.weight c) n := by
  induction digits generalizing n with
  | nil => exact le_rfl
  | cons c digits ih =>
      calc n ≤ 10 * n + Digits.weight c := by omega
        _ ≤ _ := ih _

theorem accumulate_eq {digits : List Char} {n : Nat} (used : Nat)
    (h : digits.foldl (fun n c => 10 * n + Digits.weight c) n ≤ greatestNatural) :
    accumulate n used digits
      = (digits.foldl (fun n c => 10 * n + Digits.weight c) n, used + digits.length) := by
  induction digits generalizing n used with
  | nil => rfl
  | cons c digits ih =>
      rw [List.foldl_cons] at h
      have hle := Nat.le_trans (le_foldl_weight digits (10 * n + Digits.weight c)) h
      rw [accumulate, if_neg (Nat.not_lt.mpr hle), ih _ h, List.foldl_cons, List.length_cons]
      congr 1
      omega

theorem accumulate_ofNat {n : Nat} (h : n ≤ greatestNatural) :
    accumulate 0 0 (Digits.ofNat n) = (n, (Digits.ofNat n).length) := by
  have hvalue : (Digits.ofNat n).foldl (fun n c => 10 * n + Digits.weight c) 0 = n :=
    Digits.value_ofNat n
  rw [accumulate_eq 0 (hvalue.symm ▸ h), hvalue, Nat.zero_add]

theorem scanNumeral_ofNat (negative : Bool) (n : Nat) :
    scanNumeral negative (Digits.ofNat n) = .ok (⟨negative, Digits.ofNat n, [], none⟩, []) := by
  have hwhole := (wholeDigits_ofNat n).scanWhole_append Text.stops_nil
  rw [List.append_nil] at hwhole
  rw [scanNumeral, hwhole]
  rfl

theorem value_natural {n : Nat} (h : n ≤ greatestNatural) :
    NumeralText.value ⟨false, Digits.ofNat n, [], none⟩ = .ok (.natural n) := by
  simp [NumeralText.value, accumulate_ofNat h, accumulate]

theorem value_negative {n : Nat} (hn : 0 < n) (h : n ≤ twoTo 63) :
    NumeralText.value ⟨true, Digits.ofNat n, [], none⟩ = .ok (.negative n) := by
  have hle : n ≤ greatestNatural := Nat.le_trans h (by decide)
  simp [NumeralText.value, accumulate_ofNat hle, accumulate, Nat.pos_iff_ne_zero.mp hn, Nat.not_lt.mpr h]

end Json

end CommandGrammar
