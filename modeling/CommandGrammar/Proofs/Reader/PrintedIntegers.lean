import CommandGrammar.Proofs.Reader.Agreement
import CommandGrammar.Proofs.Reader.BoundedReads
import CommandGrammar.Proofs.Text.Runs

/-!
# Reads of printed integers

A numeral is taken whole if no digit follows it, wherever it stands. So an integer is read back from
its decimal text, and with it everything that the refusal of a number between bounds tells about it.
-/

namespace CommandGrammar

/-! ### Numerals in a text -/

section Numerals

variable {token after : List Char} {n : Int}

theorem denotes_ofInt (n : Int) : Denotes (Digits.ofInt n) n := by
  cases n with
  | ofNat n =>
      have hdenotes := Denotes.natural (Digits.ofNat_ne_nil n) fun c => Digits.isDigit_of_mem_ofNat
      rwa [← Digits.value_eq_ofDigits, Digits.value_ofNat] at hdenotes
  | negSucc n =>
      have hdenotes := Denotes.negated (Digits.ofNat_ne_nil (n + 1)) fun c =>
        Digits.isDigit_of_mem_ofNat
      rwa [← Digits.value_eq_ofDigits, Digits.value_ofNat] at hdenotes

theorem denotes_toString (n : Int) : Denotes (toString n).toList n := by
  rw [← Digits.ofInt_eq_toString, String.toList_ofList]
  exact denotes_ofInt n

namespace Numeral

theorem digits_append (hdigits : ∀ c ∈ token, c.isDigit = true)
    (hafter : Text.Stops Char.isDigit after) : digits (token ++ after) = token := by
  rw [digits, hafter.takeWhile_append, List.takeWhile_eq_self_iff.mpr hdigits]

/-- A numeral is found whole in front of anything but another digit. -/
theorem ofText?_append_of_denotes (h : Denotes token n) (hafter : Text.Stops Char.isDigit after) :
    ofText? digits (token ++ after) = some token := by
  cases h with
  | natural hnonempty hdigits =>
      obtain ⟨c, rest, rfl⟩ := List.exists_cons_of_ne_nil hnonempty
      have hfirst : c.isDigit = true := hdigits c List.mem_cons_self
      have hminus : minus (c :: rest ++ after) = [] := by
        rw [List.cons_append, minus]
        rintro text heq
        obtain ⟨rfl, -⟩ := List.cons.inj heq
        cases hfirst
      rw [ofText?_eq, hminus, followedBy, hminus, List.length_nil, List.drop_zero,
        digits_append hdigits hafter]
      exact if_pos hfirst
  | @negated rest hnonempty hdigits =>
      obtain ⟨c, more, rfl⟩ := List.exists_cons_of_ne_nil hnonempty
      have hminus : minus ('-' :: (c :: more) ++ after) = ['-'] := rfl
      rw [ofText?_eq, hminus, followedBy, hminus]
      change (if c.isDigit then some (['-'] ++ digits (c :: more ++ after)) else none) = _
      rw [if_pos (hdigits c List.mem_cons_self), digits_append hdigits hafter]
      rfl

end Numeral

end Numerals

/-! ### Reading back -/

/-- Wherever the text stands, unless a digit follows it, the integer is read from where it starts,
and the reader stops behind it. -/
def ReadsBack {bits : Nat} [Numeric (Signed bits)] (text : String) (v : Signed bits) : Prop :=
  ∀ before after : List Char, (∀ c ∈ after.head?, c.isDigit = false) →
    ∃ r s, (Reader.ofChars (before ++ text.toList ++ after)).moveTo (Text.byteLength before) = .ok r
      ∧ r.number (Signed bits) = (.ok v, s) ∧ r.bytes.number (Signed bits) = .ok (.ok v, s.bytes)
      ∧ s.consumed = before ++ text.toList ∧ s.remaining = after

section Signed

variable {bits : Nat} [Numeric (Signed bits)] [DecimalSigned bits]

theorem Reader.number_of_denotes {before token after : List Char} {v : Signed bits}
    (h : Denotes token v.val) (hafter : Text.Stops Char.isDigit after) :
    (⟨before, token ++ after⟩ : Reader).number (Signed bits)
      = (.ok v, ⟨token.reverse ++ before, after⟩) := by
  have hvalue : Numeric.ofNumeral? token = some v := by
    rw [DecimalSigned.ofNumeral?_eq]
    exact (Signed.ofNumeral?_eq_some_iff h).mpr rfl
  rw [number, DecimalSigned.body_eq, Numeral.ofText?_append_of_denotes h hafter]
  simp only [hvalue, advance, List.take_left, List.drop_left]

variable [Numeral.LawfulNumeric (Signed bits)]

theorem readsBack_of_denotes {text : String} {v : Signed bits} (h : Denotes text.toList v.val) :
    ReadsBack text v := by
  intro before after hafter
  have hread : (⟨before.reverse, text.toList ++ after⟩ : Reader).number (Signed bits)
      = (.ok v, ⟨text.toList.reverse ++ before.reverse, after⟩) :=
    Reader.number_of_denotes h hafter
  refine ⟨_, _, ?_, hread, ?_, ?_, rfl⟩
  · rw [Reader.moveTo_eq_ok_iff, Reader.text_ofChars]
    simp [Reader.text, Reader.consumed, Reader.remaining, Reader.cursor]
  · rw [Reader.number_bytes, hread]
    rfl
  · simp [Reader.consumed]

theorem readsBack_toString (v : Signed bits) : ReadsBack (toString v.val) v :=
  readsBack_of_denotes (denotes_toString v.val)

end Signed

/-! ### Refusals -/

theorem Reader.cause_of_number {α : Type} [Numeric α] {r s : Reader} {e : SyntaxError}
    (h : r.number α = (.error e, s)) :
    e.cause = .expectedNumber (Numeric.kind α) ∨ e.cause = .invalidNumber (Numeric.kind α) := by
  rw [number] at h
  split at h
  · cases h
    exact .inl rfl
  · split at h
    · cases h
    · cases h
      exact .inr rfl

/-- What the refusals of a family of reads tell: the number that was found and the bound that it
misses, as texts from which both are read back. -/
structure RefusalsReadBack (bits : Nat) [Numeric (Signed bits)] {β α : Type}
    (read : β → Reader → ReadResult α) (lower upper : β → Int) (r : Reader) : Prop where
  tooLow {b : β} {found least : String} {place s : Reader} :
    read b r = (.error ⟨.tooLow found least, place⟩, s) →
      ∃ v bound : Signed bits, (r.number (Signed bits)).1 = .ok v ∧ bound.val = lower b
        ∧ ReadsBack found v ∧ ReadsBack least bound ∧ v.val < bound.val
  tooHigh {b : β} {found greatest : String} {place s : Reader} :
    read b r = (.error ⟨.tooHigh found greatest, place⟩, s) →
      ∃ v bound : Signed bits, (r.number (Signed bits)).1 = .ok v ∧ bound.val = upper b
        ∧ ReadsBack found v ∧ ReadsBack greatest bound ∧ bound.val < v.val

namespace BoundedReads

variable {β α : Type} {bits : Nat} [Numeric (Signed bits)] {read : β → Reader → ReadResult α}
  {value : Signed bits → α} {lower upper : β → Int} {r : Reader}

/-- A read is refused because there is no number, or because of the bound that the number misses. -/
theorem cause_of_error (h : BoundedReads read value lower upper r) {b : β} {e : SyntaxError}
    {s : Reader} (hread : read b r = (.error e, s)) :
    (∃ s', r.number (Signed bits) = (.error e, s'))
      ∨ ∃ v, (r.number (Signed bits)).1 = .ok v
        ∧ (v.val < lower b ∧ e.cause = .tooLow (toString v.val) (toString (lower b))
          ∨ upper b < v.val ∧ e.cause = .tooHigh (toString v.val) (toString (upper b))) := by
  cases hnumber : r.number (Signed bits) with
  | mk outcome s' =>
      cases outcome with
      | error e' =>
          rw [h.error hnumber] at hread
          cases hread
          exact .inl ⟨_, rfl⟩
      | ok v =>
          refine .inr ⟨v, rfl, ?_⟩
          by_cases hlow : v.val < lower b
          · rw [h.tooLow hnumber hlow] at hread
            cases hread
            exact .inl ⟨hlow, rfl⟩
          by_cases hhigh : upper b < v.val
          · rw [h.tooHigh hnumber (Int.not_lt.mp hlow) hhigh] at hread
            cases hread
            exact .inr ⟨hhigh, rfl⟩
          · rw [h.ok_iff.mpr ⟨v, hnumber, Int.not_lt.mp hlow, Int.not_lt.mp hhigh, rfl⟩] at hread
            cases hread

theorem refusalsReadBack [DecimalSigned bits] [Numeral.LawfulNumeric (Signed bits)]
    (h : BoundedReads read value lower upper r)
    (hlower : ∀ b, ∃ bound : Signed bits, bound.val = lower b)
    (hupper : ∀ b, ∃ bound : Signed bits, bound.val = upper b) :
    RefusalsReadBack bits read lower upper r where
  tooLow {b found least place s} hread := by
    obtain ⟨s', hnumber⟩ | ⟨v, hv, ⟨hlow, hcause⟩ | ⟨-, hcause⟩⟩ := h.cause_of_error hread
    · rcases Reader.cause_of_number hnumber with hcause | hcause <;> cases hcause
    · obtain ⟨bound, hbound⟩ := hlower b
      cases hcause
      rw [← hbound] at hlow ⊢
      exact ⟨v, bound, hv, rfl, readsBack_toString v, readsBack_toString bound, hlow⟩
    · cases hcause
  tooHigh {b found greatest place s} hread := by
    obtain ⟨s', hnumber⟩ | ⟨v, hv, ⟨-, hcause⟩ | ⟨hhigh, hcause⟩⟩ := h.cause_of_error hread
    · rcases Reader.cause_of_number hnumber with hcause | hcause <;> cases hcause
    · cases hcause
    · obtain ⟨bound, hbound⟩ := hupper b
      cases hcause
      rw [← hbound] at hhigh ⊢
      exact ⟨v, bound, hv, rfl, readsBack_toString v, readsBack_toString bound, hhigh⟩

end BoundedReads

namespace Range

variable {bits : Nat} [Numeric (Signed bits)] [LawfulSigned bits] [PrintedSigned bits]
  [DecimalSigned bits] [Numeral.LawfulNumeric (Signed bits)]

theorem refusalsReadBack (r : Reader) :
    RefusalsReadBack bits Range.read (fun range : Range (Signed bits) => range.min.val)
      (fun range => range.max.val) r :=
  (boundedReads r).refusalsReadBack (fun range => ⟨range.min, rfl⟩) fun range => ⟨range.max, rfl⟩

end Range

namespace Bounds

variable {bits : Nat} [Numeric (Signed bits)] [LawfulSigned bits] [PrintedSigned bits]
  [DecimalSigned bits] [Numeral.LawfulNumeric (Signed bits)]

theorem refusalsReadBack {α : Type} (f : Signed bits → α) (r : Reader) :
    RefusalsReadBack bits (fun bounds r => (bounds.toRange.read r).map f) least greatest r :=
  (boundedReads f r).refusalsReadBack (fun bounds => ⟨bounds.toRange.min, bounds.toRange_min_val⟩)
    fun bounds => ⟨bounds.toRange.max, bounds.toRange_max_val⟩

end Bounds

/-- **Printed integers are read back.** Behind any text and in front of any that does not start with
a digit, the decimal text of an integer of 32 or of 64 bits is read as that integer, to its end. So
are the number and the bound in the refusal of an integer argument, and the number lies beyond the
bound. -/
theorem printed_integers_read_back :
    (∀ v : Signed 32, ReadsBack (toString v.val) v)
      ∧ (∀ v : Signed 64, ReadsBack (toString v.val) v)
      ∧ ∀ r : Reader,
        RefusalsReadBack 32 Range.read (fun range : Range (Signed 32) => range.min.val)
            (fun range => range.max.val) r
          ∧ RefusalsReadBack 64 Range.read (fun range : Range (Signed 64) => range.min.val)
            (fun range => range.max.val) r
          ∧ RefusalsReadBack 32 (fun bounds => (ArgumentType.integer bounds).read) Bounds.least
            Bounds.greatest r
          ∧ RefusalsReadBack 64 (fun bounds => (ArgumentType.long bounds).read) Bounds.least
            Bounds.greatest r :=
  ⟨readsBack_toString, readsBack_toString, fun r => ⟨Range.refusalsReadBack r,
    Range.refusalsReadBack r, Bounds.refusalsReadBack ArgumentValue.integer r,
    Bounds.refusalsReadBack ArgumentValue.long r⟩⟩

/-- The least integer of 32 bits is read behind a character of two bytes and in front of a letter,
and the refusal of `0` below one tells both. -/
theorem printed_integers_read_back_leastAndRefused :
    (∃ r s, (Reader.ofString "é-2147483648L").moveTo 2 = .ok r
        ∧ r.number (Signed 32) = (.ok (Signed.lowest 32), s) ∧ s.remaining = ['L'])
      ∧ ∃ v bound : Signed 32, ReadsBack "0" v ∧ ReadsBack "1" bound ∧ v.val < bound.val := by
  obtain ⟨hint, -, hrefusals⟩ := printed_integers_read_back
  constructor
  · have hletter : ∀ c ∈ ['L'].head?, c.isDigit = false := fun c hc => by cases hc; rfl
    obtain ⟨r, s, hmove, hread, -, -, hremaining⟩ := hint (Signed.lowest 32) ['é'] ['L'] hletter
    exact ⟨r, s, hmove, hread, hremaining⟩
  · obtain ⟨hrange, -⟩ := hrefusals (.ofString "0")
    have hrefused : Range.read ⟨⟨1, by decide, by decide⟩, Signed.highest 32⟩ (.ofString "0")
        = (.error ⟨.tooLow "0" "1", .ofString "0"⟩, .ofString "0") := by decide +kernel
    obtain ⟨v, bound, -, -, hfound, hleast, hlt⟩ := hrange.tooLow hrefused
    exact ⟨v, bound, hfound, hleast, hlt⟩

end CommandGrammar
