import CommandGrammar.Proofs.Reader.TypedReads
import CommandGrammar.Proofs.Text.Runs

/-!
# Reads do not see what surrounds the token

A read goes on as long as there are characters of a word. So it comes to the same in the middle of a
longer text as on its own, if what follows does not go on with the word: only places are counted from
further back.
-/

namespace CommandGrammar

/-! ### Scans in front of other text -/

namespace Numeral

variable {rest : List Char} (hrest : Text.Stops Reader.isWordChar rest)
include hrest

/-- What a scan takes does not depend on what stands behind the word. -/
theorem WordScan.append {scan : List Char → List Char} (h : WordScan scan) (text : List Char) :
    scan (text ++ rest) = scan text := by
  induction h generalizing text with
  | nothing => rfl
  | run hp => exact (hrest.mono hp).takeWhile_append text
  | @startingWith p scan hp _ ih =>
      cases text with
      | nil =>
          cases rest with
          | nil => rfl
          | cons c rest =>
              have hc : p c = false := hrest.mono hp c rfl
              simp [Numeral.startingWith, hc]
      | cons c text => rw [List.cons_append, Numeral.startingWith, Numeral.startingWith, ih]
  | @followedBy first second hfirst _ ihfirst ihsecond =>
      -- The second scan starts within the text, since the first one takes no more than that.
      have hlength := (hfirst.isScan.isPrefix text).length_le
      rw [Numeral.followedBy, Numeral.followedBy, ihfirst,
        List.drop_append_of_le_length hlength, ihsecond]

theorem ofText?_append (α : Type) [Numeric α] [LawfulNumeric α] (text : List Char) :
    ofText? (Numeric.body α) (text ++ rest) = ofText? (Numeric.body α) text := by
  have hlength := (wordScan_minus.isScan.isPrefix text).length_le
  rw [ofText?_eq, ofText?_eq, (wordScan_numeral α).append hrest, wordScan_minus.append hrest,
    List.drop_append_of_le_length hlength,
    (hrest.mono isWordChar_of_isDigit).any_head?_append]

end Numeral

/-! ### Readers in the middle of a text -/

namespace Reader

/-- The same place with more text on both sides. -/
def between (left right : List Char) (r : Reader) : Reader :=
  ⟨r.before ++ left.reverse, r.after ++ right⟩

variable {left right : List Char}

theorem text_between (r : Reader) : (r.between left right).text = left ++ r.text ++ right := by
  simp [between, text, consumed, remaining]

theorem cursor_between (r : Reader) :
    (r.between left right).cursor = Text.byteLength left + r.cursor := by
  simp [between, cursor, Nat.add_comm]

/-- The offset behind the text in front is where the text that was put between starts. -/
theorem moveTo_between (left text right : List Char) :
    (ofChars (left ++ text ++ right)).moveTo (Text.byteLength left)
      = .ok ((ofChars text).between left right) := by
  apply moveTo_eq_ok_iff.mpr
  rw [text_between, cursor_between]
  exact ⟨rfl, rfl⟩

theorem advance_between {r : Reader} {count : Nat} (h : count ≤ r.after.length) :
    (r.between left right).advance count = (r.advance count).between left right := by
  simp only [between, advance, List.take_append_of_le_length h, List.drop_append_of_le_length h,
    List.append_assoc]

end Reader

def ReadResult.between {α : Type} (left right : List Char) (result : ReadResult α) : ReadResult α :=
  (result.1.mapError fun e => ⟨e.cause, e.reader.between left right⟩, result.2.between left right)

theorem ReadResult.between_map {α β : Type} {left right : List Char} (f : α → β)
    (result : ReadResult α) :
    (result.map f).between left right = (result.between left right).map f := by
  obtain ⟨value, s⟩ := result
  cases value <;> rfl

/-! ### Reads -/

section Reads

variable (left : List Char) {right : List Char} (hright : Text.Stops Reader.isWordChar right)
include hright

namespace Reader

theorem word_between (r : Reader) :
    (r.between left right).word = (r.word.1, r.word.2.between left right) := by
  have hword : (r.between left right).after.takeWhile isWordChar = r.after.takeWhile isWordChar :=
    hright.takeWhile_append r.after
  have hlength := (List.takeWhile_prefix isWordChar (l := r.after)).length_le
  simp only [word, hword, advance_between hlength]

theorem number_between (α : Type) [Numeric α] [Numeral.LawfulNumeric α] (r : Reader) :
    (r.between left right).number α = (r.number α).between left right := by
  have htext : Numeral.ofText? (Numeric.body α) (r.between left right).after
      = Numeral.ofText? (Numeric.body α) r.after := Numeral.ofText?_append hright α r.after
  rw [number, number, htext]
  cases hnumeral : Numeral.ofText? (Numeric.body α) r.after with
  | none => rfl
  | some numeral =>
      have hlength : numeral.length ≤ r.after.length := by
        rw [Numeral.ofText?_eq] at hnumeral
        split at hnumeral
        · obtain rfl := Option.some.inj hnumeral
          exact ((Numeral.wordScan_numeral α).isScan.isPrefix r.after).length_le
        · cases hnumeral
      dsimp only
      cases Numeric.ofNumeral? (α := α) numeral with
      | none => rfl
      | some value => simp only [ReadResult.between, Except.mapError, advance_between hlength]

theorem bool_between (r : Reader) :
    (r.between left right).bool = r.bool.between left right := by
  rw [bool, bool, r.word_between left hright]
  dsimp only
  split
  · rfl
  · split <;> rfl

theorem nonEmptyWord_between (r : Reader) :
    (r.between left right).nonEmptyWord = r.nonEmptyWord.between left right := by
  rw [nonEmptyWord, nonEmptyWord, r.word_between left hright]
  dsimp only
  split <;> rfl

end Reader

theorem Range.read_between {α : Type} [Numeric α] [Numeral.LawfulNumeric α] (range : Range α)
    (r : Reader) : range.read (r.between left right) = (range.read r).between left right := by
  rw [read, read, r.number_between left hright α]
  generalize r.number α = result
  obtain ⟨value, s⟩ := result
  cases value with
  | error e => rfl
  | ok value =>
      simp only [ReadResult.between, Except.mapError]
      cases range.violation? value <;> rfl

theorem ArgumentType.read_between (type : ArgumentType) (r : Reader) :
    type.read (r.between left right) = (type.read r).between left right := by
  cases type with
  | integer bounds | long bounds | float bounds | double bounds =>
      rw [read, read, Range.read_between left hright, ReadResult.between_map]
  | bool => rw [read, read, r.bool_between left hright, ReadResult.between_map]
  | word => rw [read, read, r.nonEmptyWord_between left hright, ReadResult.between_map]

theorem TypedRead.read_between {α : Type} (t : TypedRead α) (r : Reader) :
    t.read (r.between left right) = (t.read r).between left right := by
  cases t with
  | number kind => exact r.number_between left hright kind.Value
  | within kind range => exact range.read_between left hright r
  | bool => exact r.bool_between left hright
  | word => exact r.nonEmptyWord_between left hright
  | argument type => exact type.read_between left hright r

end Reads

/-! ### Places -/

/-- What a read comes to, with byte offsets for the places: its value, or the cause of its failure
and where it was seen, and the cursor afterwards. -/
structure ReadOutcome (α : Type) where
  value : Except (SyntaxError.Cause × Nat) α
  cursor : Nat

/-- The same outcome with all places further on. -/
def ReadOutcome.shifted {α : Type} (count : Nat) (outcome : ReadOutcome α) : ReadOutcome α :=
  ⟨outcome.value.mapError fun e => (e.1, count + e.2), count + outcome.cursor⟩

namespace ReadResult

variable {α : Type}

def outcome (result : ReadResult α) : ReadOutcome α :=
  ⟨result.1.mapError fun e => (e.cause, e.position), result.2.cursor⟩

theorem outcome_between (left right : List Char) (result : ReadResult α) :
    (result.between left right).outcome = (outcome result).shifted (Text.byteLength left) := by
  obtain ⟨value, s⟩ := result
  simp only [outcome, between, ReadOutcome.shifted, Reader.cursor_between]
  cases value with
  | error e => simp only [Except.mapError, SyntaxError.position, Reader.cursor_between]
  | ok value => rfl

end ReadResult

theorem Reader.isWordChar_of_isSpace {c : Char} (h : isSpace c = true) : isWordChar c = false := by
  simp only [isSpace, Bool.or_eq_true, beq_iff_eq] at h
  rcases h with ((rfl | rfl) | rfl) | rfl <;> rfl

namespace TypedRead

/-- **Reads are independent of their context.** Put between any text and one that is empty or starts
with a space, a text is read as on its own: to the same value or with the same cause of failure, and
all places lie further on by the length of what stands in front. The same holds of the word at the
cursor. -/
theorem read_in_context (left text right : List Char)
    (hright : ∀ c ∈ right.head?, Reader.isSpace c = true) :
    ∃ r, (Reader.ofChars (left ++ text ++ right)).moveTo (Text.byteLength left) = .ok r
      ∧ (∀ {α : Type} (t : TypedRead α),
        t.steps ⟨left ++ text ++ right, Text.byteLength left⟩ = .ok (t.read r).bytes
          ∧ (t.read r).outcome = (t.read (.ofChars text)).outcome.shifted (Text.byteLength left))
      ∧ r.word.1 = (Reader.ofChars text).word.1
      ∧ r.word.2.cursor = Text.byteLength left + (Reader.ofChars text).word.2.cursor := by
  have hstops : Text.Stops Reader.isWordChar right := fun c hc =>
    Reader.isWordChar_of_isSpace (hright c hc)
  have hword := (Reader.ofChars text).word_between left hstops
  refine ⟨(Reader.ofChars text).between left right, Reader.moveTo_between left text right, ?_, ?_, ?_⟩
  · intro α t
    constructor
    · have hsteps := t.steps_bytes ((Reader.ofChars text).between left right)
      rw [Reader.bytes, Reader.text_between, Reader.cursor_between] at hsteps
      exact hsteps
    · rw [t.read_between left hstops, ReadResult.outcome_between]
  · rw [hword]
  · rw [hword, Reader.cursor_between]

/-- Behind a character of two bytes `-12` is read as it is alone, and `-3000000000` is refused as it is
alone, at the byte where it starts. -/
theorem read_in_context_secondByte :
    (∃ r, (Reader.ofString "é-12\t7").moveTo 2 = .ok r
        ∧ ((number .int).read r).outcome = ⟨.ok ⟨-12, by decide, by decide⟩, 5⟩)
      ∧ ∃ r, (Reader.ofString "é-3000000000 ").moveTo 2 = .ok r
        ∧ ((number .int).read r).outcome = ⟨.error (.invalidNumber .int, 2), 2⟩ := by
  constructor
  · have htab : ∀ c ∈ ['\t', '7'].head?, Reader.isSpace c = true := fun c hc => by cases hc; rfl
    obtain ⟨r, hr, hread, -⟩ := read_in_context ['é'] ['-', '1', '2'] ['\t', '7'] htab
    refine ⟨r, hr, (hread (number .int)).2.trans ?_⟩
    rfl
  · have hspace : ∀ c ∈ [' '].head?, Reader.isSpace c = true := fun c hc => by cases hc; rfl
    obtain ⟨r, hr, hread, -⟩ := read_in_context ['é'] "-3000000000".toList [' '] hspace
    refine ⟨r, hr, (hread (number .int)).2.trans ?_⟩
    rfl

end TypedRead

end CommandGrammar
