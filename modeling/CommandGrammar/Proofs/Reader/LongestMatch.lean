import CommandGrammar.Proofs.Reader.Patterns
import CommandGrammar.Proofs.Reader.Tokens

/-!
# Scans take the longest match

A scan that falls behind a match of its pattern does not exist: what matches is covered by what the
scan takes, and if it is shorter, the scan goes on with a character that no later part of the pattern
starts with. So scans can be put together, and a number is read from the longest match of the pattern
of its kind.
-/

namespace CommandGrammar

/-- Every prefix of a text that is in the language is covered by what the scan takes. The scan goes
on behind it with a character of `more`. The language has words that start with a character of
`first` and at most the empty one beside them. -/
structure Covers (L : Language Char) (first more : Char → Bool)
    (scan : List Char → List Char) : Prop where
  starts {c : Char} {rest : List Char} : c :: rest ∈ L → first c = true
  covers {text token : List Char} : token ∈ L → token <+: text →
    ∃ rest, scan text = token ++ rest ∧ ∀ c ∈ rest.head?, more c = true

namespace Covers

open Numeral Pattern

variable {L L₁ L₂ : Language Char} {first first₁ first₂ more more₁ more₂ : Char → Bool}
  {scan scan₁ scan₂ : List Char → List Char}

theorem length_le (h : Covers L first more scan) {text token : List Char} (hmatch : token ∈ L)
    (hstart : token <+: text) : token.length ≤ (scan text).length := by
  obtain ⟨rest, hrest, -⟩ := h.covers hmatch hstart
  rw [hrest, List.length_append]
  exact Nat.le_add_right _ _

theorem nothing : Covers 1 (fun _ => false) (fun _ => false) fun _ => [] where
  starts h := by cases h
  covers {text token} h _ := by
    obtain rfl := (Language.mem_one token).mp h
    exact ⟨[], rfl, fun c hc => by cases hc⟩

theorem run {p : Pattern} {test : Char → Bool} (hp : IsClass p test) :
    Covers p.star.matches' test test fun text => text.takeWhile test where
  starts h := (mem_star_iff hp).mp h _ List.mem_cons_self
  covers {text token} hmatch hstart := by
    obtain ⟨rest, rfl⟩ := hstart
    refine ⟨rest.takeWhile test, ?_, fun c hc => ?_⟩
    · exact List.takeWhile_append_of_pos ((mem_star_iff hp).mp hmatch)
    · exact List.mem_takeWhile_imp (List.mem_of_mem_head? hc)

/-- A part of a pattern that may be missing. -/
theorem startingWith {p : Pattern} {test : Char → Bool} (hp : IsClass p test)
    (h : Covers L first more scan) :
    Covers (1 + p.matches' * L) test (fun c => test c || more c) (startingWith test scan) where
  starts {c rest} hmatch := by
    rcases (Language.mem_add _ _ _).mp hmatch with hnil | hcons
    · cases hnil
    · obtain ⟨d, token, hd, -, heq⟩ := (mem_class_mul_iff hp).mp hcons
      rwa [(List.cons.inj heq).1]
  covers {text token} hmatch hstart := by
    rcases (Language.mem_add _ _ _).mp hmatch with hnil | hcons
    · obtain rfl := (Language.mem_one token).mp hnil
      refine ⟨Numeral.startingWith test scan text, rfl, fun c hc => ?_⟩
      cases text with
      | nil => cases hc
      | cons d text =>
          rw [Numeral.startingWith] at hc
          split at hc
          · rename_i hd
            obtain rfl := Option.some.inj hc
            exact Bool.or_eq_true_iff.mpr (.inl hd)
          · cases hc
    · obtain ⟨d, token, hd, htoken, rfl⟩ := (mem_class_mul_iff hp).mp hcons
      obtain ⟨behind, rfl⟩ := hstart
      obtain ⟨rest, hrest, hmore⟩ := h.covers htoken (List.prefix_append token behind)
      refine ⟨rest, ?_, fun c hc => Bool.or_eq_true_iff.mpr (.inr (hmore c hc))⟩
      simp [Numeral.startingWith, hd, hrest]

/-- Two parts of a pattern, if no word of the second starts where the first one goes on. -/
theorem followedBy (hscan : IsScan scan₁) (h₁ : Covers L₁ first₁ more₁ scan₁)
    (h₂ : Covers L₂ first₂ more₂ scan₂)
    (hapart : ∀ c, first₂ c = true → more₁ c = false) :
    Covers (L₁ * L₂) (fun c => first₁ c || first₂ c) (fun c => more₁ c || more₂ c)
      (followedBy scan₁ scan₂) where
  starts {c rest} hmatch := by
    obtain ⟨left, hleft, right, hright, heq⟩ := Language.mem_mul.mp hmatch
    rw [Bool.or_eq_true_iff]
    cases left with
    | nil =>
        obtain rfl : right = c :: rest := heq
        exact .inr (h₂.starts hright)
    | cons d left =>
        obtain ⟨rfl, -⟩ := List.cons.inj heq
        exact .inl (h₁.starts hleft)
  covers {text token} hmatch hstart := by
    obtain ⟨left, hleft, right, hright, rfl⟩ := Language.mem_mul.mp hmatch
    obtain ⟨rest, hrest, hmore⟩ := h₁.covers hleft ((List.prefix_append left right).trans hstart)
    have hbehind := List.prefix_iff_eq_append.mp (hscan.isPrefix text)
    rw [Numeral.followedBy]
    generalize text.drop (scan₁ text).length = behind at hbehind ⊢
    cases rest with
    | nil =>
        -- The first scan ends with the first part, and the second starts where the second part does.
        rw [List.append_nil] at hrest
        have hright' : right <+: behind := by
          rwa [← hbehind, hrest, List.prefix_append_right_inj] at hstart
        obtain ⟨rest, hrest', hmore⟩ := h₂.covers hright hright'
        refine ⟨rest, by rw [hrest, hrest', List.append_assoc], fun c hc => ?_⟩
        exact Bool.or_eq_true_iff.mpr (.inr (hmore c hc))
    | cons c rest =>
        -- The first scan goes on, so that the second part has to be empty.
        have hc : more₁ c = true := hmore c rfl
        obtain rfl : right = [] := by
          cases right with
          | nil => rfl
          | cons d right =>
              rw [← hbehind, hrest, List.append_assoc, List.prefix_append_right_inj,
                List.cons_append, List.cons_prefix_cons] at hstart
              rw [hstart.1] at hright
              rw [hapart c (h₂.starts hright)] at hc
              cases hc
        refine ⟨c :: rest ++ scan₂ behind, by simp [hrest], fun d hd => ?_⟩
        obtain rfl := Option.some.inj hd
        exact Bool.or_eq_true_iff.mpr (.inl hc)

theorem mono (h : Covers L first more scan) (hsub : ∀ token ∈ L₁, token ∈ L) :
    Covers L₁ first more scan where
  starts hmatch := h.starts (hsub _ hmatch)
  covers hmatch hstart := h.covers (hsub _ hmatch) hstart

end Covers

namespace Pattern

open Numeral

/-! ### Parts of numerals -/

theorem mem_star_of_mem_plus {p : Pattern} {test : Char → Bool} (hp : IsClass p test) :
    ∀ token ∈ (plus p).matches', token ∈ p.star.matches' :=
  fun _ h => (mem_star_iff hp).mpr ((mem_plus_iff hp).mp h).2

theorem startingWith_mem {p : Pattern} {test : Char → Bool} (hp : IsClass p test)
    {L : Language Char} {scan : List Char → List Char} (hscan : ∀ text, scan text ∈ L)
    (text : List Char) : startingWith test scan text ∈ 1 + p.matches' * L := by
  rw [Language.mem_add]
  cases text with
  | nil => exact .inl Language.nil_mem_one
  | cons c text =>
      rw [startingWith]
      split
      · rename_i hc
        exact .inr ((mem_class_mul_iff hp).mpr ⟨c, _, hc, hscan text, rfl⟩)
      · exact .inl Language.nil_mem_one

theorem digits_mem (text : List Char) : digits text ∈ digit.star.matches' :=
  (mem_star_iff isClass_digit).mpr fun _ hc => List.mem_takeWhile_imp hc

theorem digits_mem_plus {text : List Char} (hdigit : text.head?.any Char.isDigit = true) :
    digits text ∈ (plus digit).matches' := by
  have hnonempty : bodyOf .int text ≠ [] := bodyOf_ne_nil hdigit
  exact (mem_plus_iff isClass_digit).mpr ⟨hnonempty, fun _ hc => List.mem_takeWhile_imp hc⟩

theorem minus_mem (text : List Char) : minus text ∈ minusSign.matches' := by
  have hmem := startingWith_mem (isClass_char '-') (L := 1) (fun _ => Language.nil_mem_one) text
  rwa [mul_one, ← minus_eq] at hmem

theorem sign_mem (text : List Char) : sign text ∈ plusOrMinus.matches' := by
  have hmem := startingWith_mem (isClass_oneOf_pair '+' '-') (L := 1)
    (fun _ => Language.nil_mem_one) text
  rwa [mul_one, ← sign_eq] at hmem

theorem fraction_mem (text : List Char) : fraction text ∈ fractionPart.matches' := by
  rw [fraction_eq]
  exact startingWith_mem (isClass_char '.') digits_mem text

theorem power_mem (text : List Char) : power text ∈ powerPart.matches' := by
  rw [power_eq]
  exact startingWith_mem (isClass_oneOf_pair 'e' 'E')
    (fun rest => Language.append_mem_mul (sign_mem rest) (digits_mem _)) text

/-! ### What scans of numerals cover -/

theorem covers_minus : Covers minusSign.matches' (· == '-') (· == '-') minus := by
  have h := Covers.startingWith (isClass_char '-') .nothing
  simp only [mul_one, Bool.or_false, ← minus_eq] at h
  exact h

theorem covers_sign : Covers plusOrMinus.matches' (fun c => c == '+' || c == '-')
    (fun c => c == '+' || c == '-') sign := by
  have h := Covers.startingWith (isClass_oneOf_pair '+' '-') .nothing
  simp only [mul_one, Bool.or_false, ← sign_eq] at h
  exact h

theorem covers_digits : Covers digit.star.matches' Char.isDigit Char.isDigit digits :=
  .run isClass_digit

theorem covers_digits_plus : Covers (plus digit).matches' Char.isDigit Char.isDigit digits :=
  covers_digits.mono (mem_star_of_mem_plus isClass_digit)

theorem covers_fraction : Covers fractionPart.matches' (· == '.')
    (fun c => c == '.' || c.isDigit) fraction := by
  rw [fraction_eq]
  exact .startingWith (isClass_char '.') covers_digits

theorem covers_power : Covers powerPart.matches' (fun c => c == 'e' || c == 'E')
    (fun c => (c == 'e' || c == 'E') || ((c == '+' || c == '-') || c.isDigit)) power := by
  rw [power_eq]
  refine .startingWith (isClass_oneOf_pair 'e' 'E')
    (.followedBy wordScan_sign.isScan covers_sign covers_digits fun c hc => ?_)
  rcases Bool.eq_false_or_eq_true (c == '+' || c == '-') with hsign | hsign
  · rcases Bool.or_eq_true_iff.mp hsign with hsign | hsign <;>
      exact absurd (eq_of_beq hsign ▸ hc) (by decide)
  · exact hsign

/-- What scans behind the sign of a numeral does not start with a sign. -/
theorem covers_behind_minus {L : Language Char} {first more : Char → Bool}
    {scan : List Char → List Char} (h : Covers L first more scan) (hfirst : first '-' = false) :
    ∃ first more, Covers (minusSign.matches' * L) first more
      (Numeral.followedBy minus scan) := by
  refine ⟨_, _, .followedBy wordScan_minus.isScan covers_minus h fun c hc => ?_⟩
  refine beq_eq_false_iff_ne.mpr ?_
  rintro rfl
  rw [hfirst] at hc
  cases hc

theorem covers_numeral (kind : NumberKind) :
    ∃ first more, Covers (ofKind kind).matches' first more (followedBy minus (bodyOf kind)) := by
  cases kind with
  | int | long => exact covers_behind_minus covers_digits_plus (by decide)
  | float | double =>
      rw [bodyOf, decimal_eq]
      refine covers_behind_minus (.followedBy (wordScan_digits.followedBy wordScan_fraction).isScan
        (.followedBy wordScan_digits.isScan covers_digits_plus covers_fraction fun c hc => ?_)
        covers_power fun c hc => ?_) (by decide)
      · rw [eq_of_beq hc]
        rfl
      · rcases Bool.or_eq_true_iff.mp hc with hc | hc <;> rw [eq_of_beq hc] <;> rfl

/-! ### The longest match -/

section Numerals

variable {kind : NumberKind} {text token : List Char}

theorem numeral_mem (hdigit : (text.drop (minus text).length).head?.any Char.isDigit = true) :
    followedBy minus (bodyOf kind) text ∈ (ofKind kind).matches' := by
  cases kind with
  | int | long => exact Language.append_mem_mul (minus_mem text) (digits_mem_plus hdigit)
  | float | double =>
      rw [bodyOf, decimal_eq]
      exact Language.append_mem_mul (minus_mem text) (Language.append_mem_mul
        (Language.append_mem_mul (digits_mem_plus hdigit) (fraction_mem _)) (power_mem _))

theorem isLongestMatch_numeral (kind : NumberKind)
    (hdigit : (text.drop (minus text).length).head?.any Char.isDigit = true) :
    IsLongestMatch (ofKind kind) text (followedBy minus (bodyOf kind) text) where
  isPrefix := (wordScan_minus.followedBy (wordScan_bodyOf kind)).isScan.isPrefix text
  isMatch := numeral_mem hdigit
  longest hstart hmatch := by
    obtain ⟨first, more, hcovers⟩ := covers_numeral kind
    exact hcovers.length_le hmatch hstart

theorem opens_opening_iff :
    Opens opening text ↔ (text.drop (minus text).length).head?.any Char.isDigit = true := by
  constructor
  · rintro ⟨token, ⟨behind, rfl⟩, hmatch⟩
    obtain ⟨front, hfront, single, hsingle, rfl⟩ := Language.mem_mul.mp hmatch
    obtain ⟨c, hc, rfl⟩ := (isClass_digit single).mp hsingle
    rcases mem_optional_iff.mp hfront with rfl | hfront
    · have hminus : minus (c :: behind) = [] := by
        rw [minus]
        rintro rest heq
        rw [(List.cons.inj heq).1] at hc
        cases hc
      simpa [hminus] using hc
    · obtain rfl : front = ['-'] := hfront
      simpa [minus] using hc
  · intro h
    obtain ⟨c, hhead, hc⟩ := (Option.any_eq_true _ _).mp h
    obtain ⟨behind, hbehind⟩ := List.head?_eq_some_iff.mp hhead
    refine ⟨minus text ++ [c], ⟨behind, ?_⟩,
      Language.append_mem_mul (minus_mem text) ((isClass_digit [c]).mpr ⟨c, hc, rfl⟩)⟩
    rw [List.append_assoc, List.singleton_append, ← hbehind]
    exact List.prefix_iff_eq_append.mp (wordScan_minus.isScan.isPrefix text)

/-- What starts as a match of a kind starts as a number. -/
theorem opens_opening_of_mem (hmatch : token ∈ (ofKind kind).matches') : Opens opening token := by
  have hopening : ∃ L, (ofKind kind).matches' = opening.matches' * L := by
    cases kind with
    | int | long => exact ⟨_, (mul_assoc _ _ _).symm⟩
    | float | double =>
        refine ⟨digit.star.matches' * fractionPart.matches' * powerPart.matches', ?_⟩
        simp only [ofKind, decimal, opening, plus, RegularExpression.matches'_mul, mul_assoc]
  obtain ⟨L, hL⟩ := hopening
  rw [hL] at hmatch
  obtain ⟨front, hfront, behind, -, rfl⟩ := Language.mem_mul.mp hmatch
  exact ⟨front, List.prefix_append front behind, hfront⟩

theorem IsLongestMatch.opens (h : IsLongestMatch (ofKind kind) text token) : Opens opening text := by
  obtain ⟨front, hstart, hmatch⟩ := opens_opening_of_mem h.isMatch
  exact ⟨front, hstart.trans h.isPrefix, hmatch⟩

theorem IsLongestMatch.eq_numeral (h : IsLongestMatch (ofKind kind) text token) :
    token = followedBy minus (bodyOf kind) text :=
  h.eq (isLongestMatch_numeral kind (opens_opening_iff.mp h.opens))

end Numerals

end Pattern

/-! ### Reads of numbers -/

namespace Reader

open Pattern

variable {α : Type} [Numeric α] {r s : Reader} {token : List Char} {value : α}

theorem exists_isLongestMatch (kind : NumberKind) (h : Opens opening r.remaining) :
    ∃ token, IsLongestMatch (ofKind kind) r.remaining token :=
  ⟨_, isLongestMatch_numeral kind (opens_opening_iff.mp h)⟩

theorem number_of_not_opens (h : ¬Opens opening r.remaining) :
    r.number α = (.error ⟨.expectedNumber (Numeric.kind α), r⟩, r) := by
  have hdigit := mt opens_opening_iff.mpr h
  rw [remaining] at hdigit
  rw [number, Numeral.ofText?_eq, if_neg hdigit]

variable [Numeral.LawfulNumeric α]

theorem number_of_isLongestMatch
    (h : IsLongestMatch (ofKind (Numeric.kind α)) r.remaining token) :
    r.number α = match Numeric.ofNumeral? token with
      | some value => (.ok value, r.advance token.length)
      | none => (.error ⟨.invalidNumber (Numeric.kind α), r⟩, r) := by
  have hdigit := opens_opening_iff.mp h.opens
  rw [h.eq_numeral]
  rw [remaining] at hdigit ⊢
  cases hvalue : Numeric.ofNumeral? (α := α)
      (Numeral.followedBy Numeral.minus (Numeral.bodyOf (Numeric.kind α)) r.after) <;>
    simp only [number, Numeral.ofText?_eq, if_pos hdigit, Numeral.LawfulNumeric.body_eq, hvalue]

/-- Behind a numeral the cursor has moved on by one byte for each character of it. -/
theorem eq_advance_iff {kind : NumberKind} (h : IsLongestMatch (ofKind kind) r.remaining token) :
    s = r.advance token.length ↔ s.text = r.text ∧ s.cursor = r.cursor + token.length := by
  have hscan := (Numeral.wordScan_minus.followedBy (Numeral.wordScan_bodyOf kind)).isScan
  have hbytes : Text.byteLength token = token.length := by
    apply Text.byteLength_of_isWordChar
    rw [h.eq_numeral]
    exact fun c hc => hscan.isWordChar hc
  have htake : r.after.take token.length = token := (List.prefix_iff_eq_take.mp h.isPrefix).symm
  have hcursor : (r.advance token.length).cursor = r.cursor + token.length := by
    rw [cursor_advance, htake, hbytes]
  constructor
  · rintro rfl
    exact ⟨text_advance r _, hcursor⟩
  · rintro ⟨htext, hplace⟩
    exact eq_of_text_of_cursor (htext.trans (text_advance r _).symm) (hplace.trans hcursor.symm)

theorem number_eq_ok_iff (h : IsLongestMatch (ofKind (Numeric.kind α)) r.remaining token) :
    r.number α = (.ok value, s) ↔ Numeric.ofNumeral? token = some value
      ∧ s.text = r.text ∧ s.cursor = r.cursor + token.length := by
  rw [number_of_isLongestMatch h, ← eq_advance_iff h]
  cases Numeric.ofNumeral? (α := α) token with
  | none => simp
  | some found => simp [Prod.ext_iff, eq_comm]

/-- What is read is the value of a longest match. -/
theorem exists_token_of_number (hread : r.number α = (.ok value, s)) :
    ∃ token, IsLongestMatch (ofKind (Numeric.kind α)) r.remaining token
      ∧ Numeric.ofNumeral? token = some value
      ∧ s.text = r.text ∧ s.cursor = r.cursor + token.length := by
  have hopens : Opens opening r.remaining := by
    by_contra hnot
    rw [number_of_not_opens hnot] at hread
    cases hread
  obtain ⟨token, htoken⟩ := exists_isLongestMatch (Numeric.kind α) hopens
  exact ⟨token, htoken, (number_eq_ok_iff htoken).mp hread⟩

theorem number_eq_invalid_iff (h : IsLongestMatch (ofKind (Numeric.kind α)) r.remaining token) :
    r.number α = (.error ⟨.invalidNumber (Numeric.kind α), r⟩, r)
      ↔ Numeric.ofNumeral? (α := α) token = none := by
  rw [number_of_isLongestMatch h]
  cases Numeric.ofNumeral? (α := α) token <;> simp

theorem number_eq_expected_iff :
    r.number α = (.error ⟨.expectedNumber (Numeric.kind α), r⟩, r) ↔ ¬Opens opening r.remaining := by
  refine ⟨fun heq hopens => ?_, number_of_not_opens⟩
  obtain ⟨token, htoken⟩ := exists_isLongestMatch (Numeric.kind α) hopens
  rw [number_of_isLongestMatch htoken] at heq
  cases hvalue : Numeric.ofNumeral? (α := α) token <;> simp [hvalue] at heq

end Reader

end CommandGrammar
