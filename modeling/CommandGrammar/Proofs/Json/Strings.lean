import CommandGrammar.Json.Reading
import CommandGrammar.Json.Text
import Mathlib.Data.List.Forall2

/-!
# Reading back strings

Every character of a quoted string is scanned as one unit, and the unit stands for that character
whatever comes behind it.
-/

namespace CommandGrammar.Json

/-- The unit is read as the character, without regard to the units around it. -/
inductive Unit16.StandsFor : Unit16 → Char → Prop where
  | char (c : Char) : StandsFor (.char c) c
  | code {c : Char} (hcontrol : c.toNat < 32) : StandsFor (.code c.toNat) c

theorem joinUnits_code {n : Nat} (h : n < 0xD800) (ending : Option Fault) (units : List Unit16) :
    joinUnits ending (.code n :: units) = (joinUnits ending units).map (Char.ofNat n :: ·) := by
  have hlow : isLowSurrogate n = false := by
    rw [isLowSurrogate, Bool.and_eq_false_iff]
    exact .inl (decide_eq_false (by omega))
  have hhigh : isHighSurrogate n = false := by
    rw [isHighSurrogate, Bool.and_eq_false_iff]
    exact .inl (decide_eq_false (by omega))
  rw [joinUnits.eq_def]
  simp only [hlow, hhigh, Bool.false_eq_true, if_false]

theorem joinUnits_of_standsFor {units : List Unit16} {text : List Char}
    (h : List.Forall₂ Unit16.StandsFor units text) : joinUnits none units = .ok text := by
  induction h with
  | nil => rfl
  | cons hu _ ih =>
      cases hu with
      | char =>
          rw [joinUnits, ih]
          rfl
      | code hcontrol =>
          rw [joinUnits_code (by omega), ih, Char.ofNat_toNat]
          rfl

theorem hexValue?_hexDigit {n : Nat} (h : n < 16) : hexValue? (hexDigit n) = some n := by
  have hall : ∀ n : Fin 16, hexValue? (hexDigit n) = some n.val := by decide
  exact hall ⟨n, h⟩

theorem scanUnits_unicode {n : Nat} (h : n < 256) (text : List Char) :
    scanUnits ('\\' :: 'u' :: '0' :: '0' :: hexDigit (n / 16) :: hexDigit (n % 16) :: text)
      = (.code n :: (scanUnits text).1, (scanUnits text).2) := by
  have hzero : hexValue? '0' = some 0 := rfl
  have hsixteens := hexValue?_hexDigit (show n / 16 < 16 by omega)
  have hones := hexValue?_hexDigit (show n % 16 < 16 by omega)
  have hsum : ((0 * 16 + 0) * 16 + n / 16) * 16 + n % 16 = n := by omega
  rw [scanUnits]
  simp only [hzero, hsixteens, hones, hsum]

theorem scanUnits_simple {e c : Char} (hescape : simpleEscape? e = some c) (text : List Char) :
    scanUnits ('\\' :: e :: text) = (.char c :: (scanUnits text).1, (scanUnits text).2) := by
  have hletter : e ≠ 'u' := by
    rintro rfl
    cases hescape
  rw [scanUnits]
  · simp only [hescape]
  · exact hletter

theorem scanUnits_cons_of_plain {c : Char} (hquote : c ≠ '"') (hbackslash : c ≠ '\\')
    (hplain : 32 ≤ c.toNat) (text : List Char) :
    scanUnits (c :: text) = (.char c :: (scanUnits text).1, (scanUnits text).2) := by
  rw [scanUnits, if_neg (by omega)]
  · exact hquote
  · rintro _ heq -
    exact hbackslash heq
  · rintro _ _ heq -
    exact hbackslash heq
  · exact fun heq _ => hbackslash heq

theorem scanUnits_escapeChar (c : Char) (text : List Char) :
    ∃ u, Unit16.StandsFor u c
      ∧ scanUnits (escapeChar c ++ text) = (u :: (scanUnits text).1, (scanUnits text).2) := by
  by_cases hquote : c = '"'
  · subst hquote
    exact ⟨.char '"', .char _, scanUnits_simple rfl text⟩
  by_cases hbackslash : c = '\\'
  · subst hbackslash
    exact ⟨.char '\\', .char _, scanUnits_simple rfl text⟩
  by_cases hplain : 32 ≤ c.toNat
  · rw [escapeChar, if_neg hquote, if_neg hbackslash, if_pos hplain]
    exact ⟨.char c, .char c, scanUnits_cons_of_plain hquote hbackslash hplain text⟩
  by_cases hback : c = '\x08'
  · subst hback
    exact ⟨.char '\x08', .char _, scanUnits_simple rfl text⟩
  by_cases htab : c = '\t'
  · subst htab
    exact ⟨.char '\t', .char _, scanUnits_simple rfl text⟩
  by_cases hline : c = '\n'
  · subst hline
    exact ⟨.char '\n', .char _, scanUnits_simple rfl text⟩
  by_cases hfeed : c = '\x0c'
  · subst hfeed
    exact ⟨.char '\x0c', .char _, scanUnits_simple rfl text⟩
  by_cases hreturn : c = '\r'
  · subst hreturn
    exact ⟨.char '\r', .char _, scanUnits_simple rfl text⟩
  · have hcontrol : c.toNat < 32 := by omega
    rw [escapeChar, if_neg hquote, if_neg hbackslash, if_neg hplain, if_neg hback, if_neg htab,
      if_neg hline, if_neg hfeed, if_neg hreturn]
    exact ⟨.code c.toNat, .code hcontrol, scanUnits_unicode (by omega) text⟩

theorem scanUnits_flatMap_escapeChar (text rest : List Char) :
    ∃ units, List.Forall₂ Unit16.StandsFor units text
      ∧ scanUnits (text.flatMap escapeChar ++ '"' :: rest) = (units, .ok rest) := by
  induction text with
  | nil => exact ⟨[], .nil, rfl⟩
  | cons c text ih =>
      obtain ⟨units, hunits, hscan⟩ := ih
      obtain ⟨u, hu, hchar⟩ := scanUnits_escapeChar c (text.flatMap escapeChar ++ '"' :: rest)
      refine ⟨u :: units, .cons hu hunits, ?_⟩
      rw [List.flatMap_cons, List.append_assoc, hchar, hscan]

/-- Behind its opening quote, a quoted string is read back up to its closing quote. -/
theorem scanString_flatMap_escapeChar (text : String) (rest : List Char) :
    scanString (text.toList.flatMap escapeChar ++ '"' :: rest) = .ok (.ok text, rest) := by
  obtain ⟨units, hunits, hscan⟩ := scanUnits_flatMap_escapeChar text.toList rest
  simp only [scanString, hscan, joinUnits_of_standsFor hunits]
  rw [Except.map, String.ofList_toList]

end CommandGrammar.Json
