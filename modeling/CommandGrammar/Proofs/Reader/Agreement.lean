import CommandGrammar.Proofs.Outcomes
import CommandGrammar.Proofs.Reader.ByteReader
import CommandGrammar.Proofs.Reader.Tokens

/-!
# The two readers agree

A `Reader` stands for its text and the byte offset of its cursor. Step by step and read by read, what
is done on the offset goes through and has the result that the operation on the `Reader` has. So no
read misses, and every loop stops at a boundary.
-/

namespace CommandGrammar

/-- A part of the text can be cut out by the offsets of its ends. -/
theorem ByteReader.slice_eq (left part right : List Char) (offset : Nat) :
    (⟨left ++ part ++ right, offset⟩ : ByteReader).slice (Text.byteLength left)
      (Text.byteLength (left ++ part)) = .ok part := by
  simp only [slice, Text.splitAtByte?_byteLength]

namespace Reader

/-- The text and the offset of the cursor. -/
def bytes (r : Reader) : ByteReader := ⟨r.text, r.cursor⟩

theorem bytes_injective : Function.Injective bytes := by
  intro r s h
  obtain ⟨htext, hcursor⟩ := ByteReader.mk.inj h
  exact eq_of_text_of_cursor htext hcursor

theorem isBoundary_cursor (r : Reader) : Text.IsBoundary r.text r.cursor := by
  rw [text, ← byteLength_consumed]
  exact Text.isBoundary_byteLength r.consumed r.remaining

/-- The readers are the texts with a boundary of them. -/
theorem exists_bytes_eq_iff {b : ByteReader} :
    (∃ r : Reader, r.bytes = b) ↔ Text.IsBoundary b.text b.offset := by
  constructor
  · rintro ⟨r, rfl⟩
    exact r.isBoundary_cursor
  · intro h
    obtain ⟨left, right, htext, hoffset⟩ := Text.isBoundary_iff.mp h
    refine ⟨⟨left.reverse, right⟩, ?_⟩
    obtain ⟨text', offset⟩ := b
    simp only [bytes, Reader.text, consumed, remaining, cursor, List.reverse_reverse,
      Text.byteLength_reverse] at htext hoffset ⊢
    rw [htext, hoffset]

/-! ### Single steps -/

theorem length_bytes (r : Reader) : r.bytes.length = r.length := (length_eq r).symm

theorem advance_advance (r : Reader) (m n : Nat) : (r.advance m).advance n = r.advance (m + n) := by
  simp [advance, List.take_add, List.drop_drop]

theorem canRead_one_iff (r : Reader) : r.bytes.canRead 1 = true ↔ r.after ≠ [] := by
  rw [ByteReader.canRead, decide_eq_true_iff, length_bytes, length, ne_eq,
    ← Text.byteLength_eq_zero_iff]
  change r.cursor + 1 ≤ r.cursor + Text.byteLength r.after ↔ _
  omega

theorem moveTo_bytes (r : Reader) (position : Nat) :
    r.bytes.moveTo position = ((r.moveTo position).map bytes).mapError .misuse := by
  unfold ByteReader.moveTo moveTo
  rw [length_bytes, bytes]
  cases hsplit : Text.splitAtByte? position r.text with
  | none => rfl
  | some parts =>
      obtain ⟨htext, hlength⟩ := Text.splitAtByte?_eq_some_iff.mp hsplit
      simp [Except.map, Except.mapError, bytes, text, consumed, remaining, cursor, ← htext, hlength]

theorem peekAt_bytes (r : Reader) (count : Nat) :
    r.bytes.peekAt count = (r.peekAt count).mapError .misuse := by
  have hsplit : Text.splitAtByte? (r.bytes.offset + count) r.bytes.text
      = (Text.splitAtByte? count r.after).map fun parts => (r.consumed ++ parts.1, parts.2) := by
    rw [bytes, ← byteLength_consumed]
    exact Text.splitAtByte?_byteLength_add r.consumed r.after count
  unfold ByteReader.peekAt peekAt
  rw [length_bytes, hsplit]
  cases hparts : Text.splitAtByte? count r.after with
  | none => rfl
  | some parts =>
      obtain ⟨before, after⟩ := parts
      cases after <;> rfl

theorem peekAt_zero {r : Reader} {c : Char} {rest : List Char} (h : r.after = c :: rest) :
    r.peekAt 0 = .ok c := by
  rw [peekAt, h]
  rfl

theorem peekAt_zero_bytes {r : Reader} {c : Char} {rest : List Char} (h : r.after = c :: rest) :
    r.bytes.peekAt 0 = .ok c := by
  rw [peekAt_bytes, peekAt_zero h]
  rfl

theorem next_bytes (r : Reader) :
    r.bytes.next = (r.next.map fun p => (p.1, p.2.bytes)).mapError .misuse := by
  rw [ByteReader.next, next, peek]
  cases hafter : r.after with
  | nil =>
      rw [peekAt_bytes, peekAt, hafter]
      rfl
  | cons c rest =>
      rw [peekAt_zero_bytes hafter, peekAt_zero hafter]
      simp [Except.map, Except.mapError, bytes, cursor_advance, hafter]

theorem skip_bytes {r : Reader} {c : Char} {rest : List Char} (h : r.after = c :: rest) :
    r.bytes.skip = .ok (r.advance 1).bytes := by
  rw [ByteReader.skip, next_bytes, next, peek, peekAt_zero h]
  rfl

theorem meets_bytes (r : Reader) (p : Char → Bool) :
    r.bytes.meets p = .ok (r.after.head?.any p) := by
  unfold ByteReader.meets
  cases hafter : r.after with
  | nil =>
      have hend : ¬ r.bytes.canRead 1 = true := fun hleft => r.canRead_one_iff.mp hleft hafter
      rw [if_neg hend]
      rfl
  | cons c rest =>
      have hleft : r.bytes.canRead 1 = true := by
        apply r.canRead_one_iff.mpr
        rw [hafter]
        exact List.cons_ne_nil c rest
      rw [if_pos hleft, peekAt_zero_bytes hafter]
      rfl

/-- A loop over characters stops behind the longest run of characters that pass the test. -/
theorem skipWhile_bytes (p : Char → Bool) (r : Reader) :
    r.bytes.skipWhile p = .ok (r.advance (r.after.takeWhile p).length).bytes := by
  obtain ⟨before, after⟩ := r
  induction after generalizing before with
  | nil =>
      have hend : ¬ (bytes ⟨before, []⟩).canRead 1 = true := fun hleft =>
        (canRead_one_iff _).mp hleft rfl
      rw [ByteReader.skipWhile, dif_neg hend, List.takeWhile_nil, List.length_nil, advance_zero]
  | cons c after ih =>
      have hleft : (bytes ⟨before, c :: after⟩).canRead 1 = true :=
        (canRead_one_iff _).mpr (List.cons_ne_nil c after)
      have hskip := skip_bytes (r := ⟨before, c :: after⟩) rfl
      rw [ByteReader.skipWhile, dif_pos hleft, peekAt_zero_bytes rfl]
      by_cases hp : p c = true
      · simp only [hp, if_true]
        split
        · rename_i fault hfault
          rw [hskip] at hfault
          cases hfault
        · rename_i s hs
          rw [hskip] at hs
          cases hs
          have hrest := ih (c :: before)
          rw [List.takeWhile_cons_of_pos hp, List.length_cons, Nat.add_comm, ← advance_advance]
          exact hrest
      · simp [hp]

/-- What lies between the cursor and a place further on is the first part of the rest. -/
theorem slice_bytes {r : Reader} {taken : List Char} (htaken : taken <+: r.after) :
    (r.advance taken.length).bytes.slice r.bytes.offset (r.advance taken.length).bytes.offset
      = .ok taken := by
  have htake : r.after.take taken.length = taken := (List.prefix_iff_eq_take.mp htaken).symm
  have hlast : (r.advance taken.length).cursor = Text.byteLength (r.consumed ++ taken) := by
    rw [cursor_advance, htake, Text.byteLength_append, byteLength_consumed]
  have htext : (r.advance taken.length).text
      = r.consumed ++ taken ++ (r.advance taken.length).remaining := by
    rw [text, consumed_advance, htake]
  rw [bytes, bytes, hlast, htext, ← byteLength_consumed]
  exact ByteReader.slice_eq _ _ _ _

theorem consumed_bytes (r : Reader) : r.bytes.consumed = .ok r.consumed := by
  have hslice := ByteReader.slice_eq [] r.consumed r.remaining r.cursor
  rwa [List.nil_append, byteLength_consumed] at hslice

theorem remaining_bytes (r : Reader) : r.bytes.remaining = .ok r.remaining := by
  have hslice := ByteReader.slice_eq r.consumed r.remaining [] r.cursor
  rwa [List.append_nil, byteLength_consumed] at hslice

theorem word_bytes (r : Reader) : r.bytes.word = .ok (r.word.1, r.word.2.bytes) := by
  have hslice := slice_bytes (List.takeWhile_prefix isWordChar (l := r.after))
  rw [ByteReader.word, skipWhile_bytes, ok_bind, hslice]
  rfl

/-! ### Scans -/

/-- The steps move behind what the scan takes. -/
def Skips (skip : ByteReader → Except ByteReader.Fault ByteReader)
    (scan : List Char → List Char) : Prop :=
  ∀ r : Reader, skip r.bytes = .ok (r.advance (scan r.after).length).bytes

theorem Skips.followedBy {skip skip' : ByteReader → Except ByteReader.Fault ByteReader}
    {scan scan' : List Char → List Char} (hskip : Skips skip scan) (hskip' : Skips skip' scan') :
    Skips (fun b => skip b >>= skip') (Numeral.followedBy scan scan') := by
  intro r
  simp only [hskip r, ok_bind]
  rw [hskip', advance_advance, Numeral.followedBy, List.length_append]
  rfl

theorem Skips.startingWith {skip : ByteReader → Except ByteReader.Fault ByteReader}
    {scan : List Char → List Char} (p : Char → Bool) (hskip : Skips skip scan) :
    Skips (fun b => do if ← b.meets p then let s ← b.skip; skip s else return b)
      (Numeral.startingWith p scan) := by
  intro r
  simp only [meets_bytes, ok_bind]
  cases hafter : r.after with
  | nil =>
      rw [Numeral.startingWith, List.length_nil, advance_zero]
      rfl
  | cons c rest =>
      rw [Numeral.startingWith, List.head?_cons, Option.any_some]
      by_cases hp : p c = true
      · rw [if_pos hp, if_pos hp, skip_bytes hafter, ok_bind, hskip, advance_advance,
          List.length_cons, Nat.add_comm]
        simp [advance, hafter]
      · rw [if_neg hp, if_neg hp, List.length_nil, advance_zero]
        rfl

theorem skips_digits : Skips ByteReader.skipDigits Numeral.digits := skipWhile_bytes Char.isDigit

theorem skips_if (p : Char → Bool) :
    Skips (ByteReader.skipIf p) (Numeral.startingWith p fun _ => []) := by
  have hstay : Skips pure fun _ => [] := by
    intro r
    rw [List.length_nil, advance_zero]
    rfl
  intro r
  rw [← hstay.startingWith p r, ByteReader.skipIf]
  simp only [bind_pure]

theorem skips_fraction : Skips ByteReader.skipFraction Numeral.fraction := by
  rw [Numeral.fraction_eq]
  exact skips_digits.startingWith _

theorem skips_power : Skips ByteReader.skipPower Numeral.power := by
  rw [Numeral.power_eq, Numeral.sign_eq]
  exact ((skips_if _).followedBy skips_digits).startingWith _

theorem skips_body (kind : NumberKind) :
    Skips (ByteReader.skipBody kind) (Numeral.bodyOf kind) := by
  cases kind with
  | int | long => exact skips_digits
  | float | double =>
      intro r
      rw [Numeral.bodyOf, Numeral.decimal_eq]
      rw [← (skips_digits.followedBy skips_fraction).followedBy skips_power r]
      simp only [ByteReader.skipBody, bind_assoc]

theorem skips_minus : Skips (ByteReader.skipIf (· == '-')) Numeral.minus := by
  rw [Numeral.minus_eq]
  exact skips_if _

/-- To put the offset back is to be at the reader from before. -/
theorem restore_bytes (r : Reader) (count : Nat) :
    (⟨(r.advance count).bytes.text, r.bytes.offset⟩ : ByteReader) = r.bytes := by
  simp only [bytes, text_advance]

end Reader

/-! ### Reads -/

/-- The result of a read with all its readers as offsets. -/
def ReadResult.bytes {α : Type} (result : ReadResult α) : ByteReader.Result α :=
  (result.1.mapError fun e => (e.cause, e.reader.bytes), result.2.bytes)

theorem ReadResult.bytes_map {α β : Type} (f : α → β) (result : ReadResult α) :
    (result.map f).bytes = result.bytes.map f := by
  obtain ⟨value, s⟩ := result
  cases value <;> rfl

namespace Reader

theorem number_bytes (α : Type) [Numeric α] [Numeral.LawfulNumeric α] (r : Reader) :
    r.bytes.number α = .ok (r.number α).bytes := by
  have hbody := skips_body (Numeric.kind α) (r.advance (Numeral.minus r.after).length)
  rw [← Numeral.LawfulNumeric.body_eq] at hbody
  rw [ByteReader.number, number, Numeral.ofText?_eq]
  simp only [skips_minus r, ok_bind, meets_bytes]
  by_cases hdigit : (r.after.drop (Numeral.minus r.after).length).head?.any Char.isDigit = true
  · have hscan := (Numeral.wordScan_numeral α).isScan
    have hplace : (r.advance (Numeral.minus r.after).length).advance
        (Numeric.body α (r.advance (Numeral.minus r.after).length).after).length
        = r.advance (Numeral.followedBy Numeral.minus (Numeric.body α) r.after).length := by
      rw [advance_advance, Numeral.followedBy, List.length_append]
      rfl
    rw [if_pos hdigit, hbody, hplace]
    refine (if_pos hdigit).trans ?_
    rw [ok_bind, slice_bytes (hscan.isPrefix r.after), ok_bind]
    simp only [restore_bytes]
    cases Numeric.ofNumeral? (α := α)
      (Numeral.followedBy Numeral.minus (Numeric.body α) r.after) <;> rfl
  · rw [if_neg hdigit, restore_bytes]
    refine (if_neg hdigit).trans ?_
    rfl

theorem bool_bytes (r : Reader) : r.bytes.bool = .ok r.bool.bytes := by
  have hword : r.word = (r.word.1, r.advance r.word.1.length) := rfl
  rw [ByteReader.bool, word_bytes, ok_bind, bool, hword]
  simp only [restore_bytes]
  split
  · rfl
  · split <;> rfl

theorem nonEmptyWord_bytes (r : Reader) : r.bytes.nonEmptyWord = .ok r.nonEmptyWord.bytes := by
  rw [ByteReader.nonEmptyWord, word_bytes, ok_bind, nonEmptyWord]
  simp only
  split <;> rfl

end Reader

theorem Range.read_bytes {α : Type} [Numeric α] [Numeral.LawfulNumeric α] (range : Range α)
    (r : Reader) : r.bytes.within range = .ok (range.read r).bytes := by
  have htext := (r.number_allOrNothing α).text_eq
  rw [ByteReader.within, Reader.number_bytes, ok_bind, read]
  generalize r.number α = result at htext
  obtain ⟨value, s⟩ := result
  have hback : s.bytes.moveTo r.bytes.offset = .ok r.bytes := by
    have hmove : s.moveTo r.cursor = .ok r := Reader.moveTo_eq_ok_iff.mpr ⟨htext.symm, rfl⟩
    rw [Reader.moveTo_bytes, Reader.bytes, hmove]
    rfl
  cases value with
  | error e => rfl
  | ok value =>
      simp only [ReadResult.bytes, Except.mapError]
      cases range.violation? value with
      | none => rfl
      | some cause =>
          simp only [hback, ok_bind]
          rfl

theorem ArgumentType.read_bytes (type : ArgumentType) (r : Reader) :
    r.bytes.argument type = .ok (type.read r).bytes := by
  cases type with
  | integer bounds | long bounds | float bounds | double bounds =>
      rw [ByteReader.argument, Range.read_bytes, read, ReadResult.bytes_map]
      rfl
  | bool =>
      rw [ByteReader.argument, Reader.bool_bytes, read, ReadResult.bytes_map]
      rfl
  | word =>
      rw [ByteReader.argument, Reader.nonEmptyWord_bytes, read, ReadResult.bytes_map]
      rfl

end CommandGrammar
