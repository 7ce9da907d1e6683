import CommandGrammar.Proofs.Reader.Agreement

/-!
# Typed reads

All typed reads of a reader as data: numbers of each kind, with and without bounds, truth values,
words and arguments.
-/

namespace CommandGrammar

/-- The numbers of a kind. -/
def NumberKind.Value : NumberKind → Type
  | .int => Signed 32
  | .long => Signed 64
  | .float => Binary .single
  | .double => Binary .double

instance NumberKind.instNumeric : (kind : NumberKind) → Numeric kind.Value
  | .int => inferInstanceAs (Numeric (Signed 32))
  | .long => inferInstanceAs (Numeric (Signed 64))
  | .float => inferInstanceAs (Numeric (Binary .single))
  | .double => inferInstanceAs (Numeric (Binary .double))

instance NumberKind.instLawfulNumeric : (kind : NumberKind) → Numeral.LawfulNumeric kind.Value
  | .int => inferInstanceAs (Numeral.LawfulNumeric (Signed 32))
  | .long => inferInstanceAs (Numeral.LawfulNumeric (Signed 64))
  | .float => inferInstanceAs (Numeral.LawfulNumeric (Binary .single))
  | .double => inferInstanceAs (Numeral.LawfulNumeric (Binary .double))

/-- A read of a typed value. -/
inductive TypedRead : Type → Type where
  | number (kind : NumberKind) : TypedRead kind.Value
  | within (kind : NumberKind) (range : Range kind.Value) : TypedRead kind.Value
  | bool : TypedRead Bool
  | word : TypedRead String
  | argument (type : ArgumentType) : TypedRead ArgumentValue

namespace TypedRead

variable {α : Type}

def read : TypedRead α → Reader → ReadResult α
  | number kind => Reader.number kind.Value
  | within _ range => range.read
  | bool => Reader.bool
  | word => Reader.nonEmptyWord
  | argument type => type.read

/-- The same read on the byte offset of the cursor. -/
def steps : TypedRead α → ByteReader → Except ByteReader.Fault (ByteReader.Result α)
  | number kind => ByteReader.number kind.Value
  | within _ range => ByteReader.within range
  | bool => ByteReader.bool
  | word => ByteReader.nonEmptyWord
  | argument type => ByteReader.argument type

theorem steps_bytes (t : TypedRead α) (r : Reader) : t.steps r.bytes = .ok (t.read r).bytes := by
  cases t with
  | number kind => exact r.number_bytes kind.Value
  | within kind range => exact range.read_bytes r
  | bool => exact r.bool_bytes
  | word => exact r.nonEmptyWord_bytes
  | argument type => exact type.read_bytes r

theorem read_allOrNothing (t : TypedRead α) (r : Reader) : AllOrNothing r (t.read r) := by
  cases t with
  | number kind => exact r.number_allOrNothing kind.Value
  | within kind range => exact range.read_allOrNothing r
  | bool => exact r.bool_allOrNothing
  | word => exact r.nonEmptyWord_allOrNothing
  | argument type => exact type.read_allOrNothing r

theorem text_read (t : TypedRead α) (r : Reader) : (t.read r).2.text = r.text :=
  (t.read_allOrNothing r).text_eq

/-- **A typed read takes a token or nothing.** On the byte offset it goes through and has the same
result. If it fails, the reader and the one kept in the error are the reader from before. If it
succeeds, the text is the same and the cursor has moved on to a boundary, over characters of a word
only. -/
theorem read_takes_token_or_nothing (t : TypedRead α) (r : Reader) :
    t.steps r.bytes = .ok (t.read r).bytes
      ∧ (∀ e s, t.read r = (.error e, s) → s = r ∧ e.reader = r ∧ e.position = r.cursor)
      ∧ (∀ value s, t.read r = (.ok value, s) →
        s.text = r.text ∧ r.cursor < s.cursor ∧ Text.IsBoundary r.text s.cursor
          ∧ ∃ token, s.consumed = r.consumed ++ token
            ∧ ∀ c ∈ token, Reader.isWordChar c = true) := by
  have hread := t.read_allOrNothing r
  refine ⟨t.steps_bytes r, ?_, ?_⟩
  · intro e s heq
    rw [heq] at hread
    cases hread
    exact ⟨rfl, rfl, rfl⟩
  · intro value s heq
    rw [heq] at hread
    cases hread with
    | @all _ token hnonempty htaken hword =>
        have htake : r.after.take token.length = token := (List.prefix_iff_eq_take.mp htaken).symm
        have hpositive : 0 < Text.byteLength token :=
          Nat.pos_of_ne_zero fun hzero => hnonempty (Text.byteLength_eq_zero_iff.mp hzero)
        have hboundary := (r.advance token.length).isBoundary_cursor
        rw [Reader.text_advance] at hboundary
        refine ⟨Reader.text_advance r token.length, ?_, hboundary, token, ?_, hword⟩
        · rw [Reader.cursor_advance, htake]
          exact Nat.lt_add_of_pos_right hpositive
        · rw [Reader.consumed_advance, htake]

/-- The numeral `-12` is taken; `-3000000000` does not fit in 32 bits and is not. -/
theorem read_takes_token_or_nothing_int :
    (∃ value s, (number .int).read (.ofString "-12 x") = (.ok value, s) ∧ 0 < s.cursor
        ∧ Text.IsBoundary "-12 x".toList s.cursor)
      ∧ ∃ e s, (number .int).read (.ofString "-3000000000 x") = (.error e, s)
        ∧ s = .ofString "-3000000000 x" ∧ e.position = 0 := by
  constructor
  · obtain ⟨-, -, hok⟩ := read_takes_token_or_nothing (number .int) (.ofString "-12 x")
    obtain ⟨-, hlt, hboundary, -⟩ := hok ⟨-12, by decide, by decide⟩ _ rfl
    exact ⟨_, _, rfl, hlt, hboundary⟩
  · obtain ⟨-, herror, -⟩ := read_takes_token_or_nothing (number .int) (.ofString "-3000000000 x")
    obtain ⟨hstay, -, hposition⟩ := herror ⟨.invalidNumber .int, _⟩ _ rfl
    exact ⟨_, _, rfl, hstay, hposition⟩

end TypedRead

end CommandGrammar
