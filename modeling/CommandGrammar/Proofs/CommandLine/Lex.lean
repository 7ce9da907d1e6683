import CommandGrammar.CommandLine.Run
import CommandGrammar.Proofs.Json.Arguments
import CommandGrammar.Proofs.Json.Decimals
import CommandGrammar.Proofs.Json.Nesting
import CommandGrammar.Proofs.Reader.ErrorContext
import CommandGrammar.Proofs.Reader.Integers

/-!
# What one read makes of a text

A run of `lex` takes a first part of what is behind the cursor or nothing, and its record has all of
the text: what was read and what is left.
-/

namespace CommandGrammar

open Json

namespace CommandLine

/-! ### Step by step -/

/-- The read of each kind on the byte offset of a cursor. -/
def LexKind.steps : LexKind → ByteReader → Except ByteReader.Fault (ByteReader.Result ArgumentValue)
  | int, b => (b.number (Signed 32)).map (ByteReader.Result.map .integer)
  | long, b => (b.number (Signed 64)).map (ByteReader.Result.map .long)
  | float, b => (b.number (Binary .single)).map (ByteReader.Result.map .float)
  | double, b => (b.number (Binary .double)).map (ByteReader.Result.map .double)
  | bool, b => b.bool.map (ByteReader.Result.map .bool)
  | string, b => b.word.map fun (word, s) => (.ok (.word (String.ofList word)), s)

/-- A run from a cursor on, in the order in which the text is looked at. -/
def lexStepsAt (kind : LexKind) (start : ByteReader) (format : OutputFormat) :
    Except ByteReader.Fault Outcome := do
  let (result, final) ← kind.steps start
  match result with
  | .error (cause, place) =>
    let context ← place.context
    return .failure (s!"{cause.message} at position {place.offset}" ++ ": " ++ String.ofList context)
  | .ok value =>
    let read ← final.slice start.offset final.offset
    let remaining ← final.remaining
    return .success (render (.record [("value", value.toData), ("cursor", .integer final.offset),
      ("read", .text (String.ofList read)), ("remaining", .text (String.ofList remaining))]) format)

/-- A run on byte offsets. The cursor is only set behind the check of it. -/
def lexSteps (kind : LexKind) (input : String) (cursor : Nat) (format : OutputFormat) :
    Except ByteReader.Fault Outcome := do
  let b : ByteReader := ⟨input.toList, 0⟩
  if b.length < cursor || !(Text.splitAtByte? cursor b.text).isSome then
    return .failure s!"--cursor {cursor} is not a character boundary of the input"
  let start ← b.moveTo cursor
  lexStepsAt kind start format

theorem LexKind.steps_bytes (kind : LexKind) (r : Reader) :
    kind.steps r.bytes = .ok (kind.read r).bytes := by
  cases kind with
  | int | long | float | double =>
      rw [steps, Reader.number_bytes, read, ReadResult.bytes_map]
      rfl
  | bool =>
      rw [steps, Reader.bool_bytes, read, ReadResult.bytes_map]
      rfl
  | string =>
      rw [steps, Reader.word_bytes, read]
      rfl

/-! ### What is read -/

/-- The value that a kind makes of the text that it takes. -/
inductive LexKind.Makes : LexKind → List Char → ArgumentValue → Prop where
  | int {token : List Char} {v : Signed 32} (h : Denotes token v.val) :
      Makes .int token (.integer v)
  | long {token : List Char} {v : Signed 64} (h : Denotes token v.val) :
      Makes .long token (.long v)
  | float (token : List Char) (x : Binary .single) : Makes .float token (.float x)
  | double (token : List Char) (x : Binary .double) : Makes .double token (.double x)
  | bool (value : Bool) : Makes .bool (toString value).toList (.bool value)
  | string (token : List Char) : Makes .string token (.word (String.ofList token))

/-- The results of a run that takes a first part of the rest, or nothing. -/
inductive Taken (kind : LexKind) (r : Reader) : ReadResult ArgumentValue → Prop where
  | nothing (e : SyntaxError) (s : Reader) (h : e.reader = r) : Taken kind r (.error e, s)
  | token {token : List Char} {value : ArgumentValue} (htaken : token <+: r.after)
      (hmakes : kind.Makes token value) : Taken kind r (.ok value, r.advance token.length)

section Reads

variable {kind : LexKind} {r : Reader}

theorem taken_signed {bits : Nat} [Numeric (Signed bits)] [Numeral.LawfulNumeric (Signed bits)]
    [DecimalSigned bits] {build : Signed bits → ArgumentValue}
    (hmakes : ∀ token v, Denotes token v.val → kind.Makes token (build v)) :
    Taken kind r ((r.number (Signed bits)).map build) := by
  have hread := r.number_allOrNothing (Signed bits)
  have hdenotes := @Reader.denotes_of_number bits _ _ r
  generalize r.number (Signed bits) = result at hread hdenotes
  cases hread with
  | nothing cause => exact .nothing _ _ rfl
  | all value =>
      obtain ⟨token, htaken, hplace, hvalue⟩ := hdenotes rfl
      rw [hplace]
      exact .token htaken (hmakes token value hvalue)

theorem taken_of_allOrNothing {α : Type} {result : ReadResult α} (h : AllOrNothing r result)
    {build : α → ArgumentValue} (hmakes : ∀ token value, kind.Makes token (build value)) :
    Taken kind r (result.map build) := by
  cases h with
  | nothing cause => exact .nothing _ _ rfl
  | all value _ htaken => exact .token htaken (hmakes _ value)

theorem taken_word {value : ArgumentValue} (hmakes : kind.Makes r.word.1 value) :
    Taken kind r (.ok value, r.word.2) :=
  .token (List.takeWhile_prefix Reader.isWordChar) hmakes

theorem taken_bool (r : Reader) : Taken .bool r (r.bool.map .bool) := by
  rw [Reader.bool.eq_def]
  dsimp only
  split
  · rename_i htrue
    exact taken_word (htrue ▸ .bool true)
  split
  · rename_i hfalse
    exact taken_word (hfalse ▸ .bool false)
  · exact .nothing _ _ rfl

theorem taken_read (kind : LexKind) (r : Reader) : Taken kind r (kind.read r) := by
  cases kind with
  | int => exact taken_signed fun token v => .int
  | long => exact taken_signed fun token v => .long
  | float => exact taken_of_allOrNothing (r.number_allOrNothing (Binary .single)) .float
  | double => exact taken_of_allOrNothing (r.number_allOrNothing (Binary .double)) .double
  | bool => exact taken_bool r
  | string => exact taken_word (.string r.word.1)

end Reads

/-! ### A run is safe -/

/-- What a run comes to at a place of the text. -/
def lexAt (kind : LexKind) (r : Reader) (format : OutputFormat) : Outcome :=
  match kind.read r with
  | (.ok value, s) => .success (render (lexData value r s) format)
  | (.error e, _) => .failure (toString e ++ ": " ++ String.ofList e.context)

theorem lex_eq {input : String} {cursor : Nat} (kind : LexKind) (format : OutputFormat) :
    lex kind input cursor format = match (Reader.ofString input).moveTo cursor with
      | .error _ => .failure s!"--cursor {cursor} is not a character boundary of the input"
      | .ok r => lexAt kind r format := rfl

/-- The record of a text that was taken. -/
theorem lexData_advance {r : Reader} {token : List Char} (htaken : token <+: r.after)
    (value : ArgumentValue) :
    lexData value r (r.advance token.length)
      = .record [("value", value.toData), ("cursor", .integer (r.advance token.length).cursor),
        ("read", .text (String.ofList token)),
        ("remaining", .text (String.ofList (r.advance token.length).remaining))] := by
  have htake : r.after.take token.length = token := (List.prefix_iff_eq_take.mp htaken).symm
  rw [lexData, Reader.consumed_advance, List.drop_left, htake]

theorem lexStepsAt_bytes (kind : LexKind) (r : Reader) (format : OutputFormat) :
    lexStepsAt kind r.bytes format = .ok (lexAt kind r format) := by
  have htaken := taken_read kind r
  rw [lexStepsAt, kind.steps_bytes, ok_bind, lexAt]
  generalize kind.read r = result at htaken
  cases htaken with
  | nothing e s h =>
      simp only [ReadResult.bytes, Except.mapError, e.context_bytes, ok_bind]
      rfl
  | @token token value htaken hmakes =>
      simp only [ReadResult.bytes, Except.mapError, Reader.slice_bytes htaken, Reader.remaining_bytes,
        ok_bind, lexData_advance htaken]
      rfl

theorem exists_moveTo_iff {input : String} {cursor : Nat} :
    (∃ r, (Reader.ofString input).moveTo cursor = .ok r) ↔ Text.IsBoundary input.toList cursor := by
  constructor
  · rintro ⟨r, hr⟩
    obtain ⟨htext, hcursor⟩ := Reader.moveTo_eq_ok_iff.mp hr
    have hboundary := r.isBoundary_cursor
    rwa [htext, hcursor] at hboundary
  · intro hboundary
    obtain ⟨r, hr⟩ := Reader.exists_bytes_eq_iff.mpr
      (show Text.IsBoundary (ByteReader.mk input.toList cursor).text cursor from hboundary)
    obtain ⟨htext, hcursor⟩ := ByteReader.mk.inj hr
    exact ⟨r, Reader.moveTo_eq_ok_iff.mpr ⟨htext, hcursor⟩⟩

theorem lex_of_not_isBoundary {input : String} {cursor : Nat} (kind : LexKind)
    (format : OutputFormat) (h : ¬Text.IsBoundary input.toList cursor) :
    lex kind input cursor format
      = .failure s!"--cursor {cursor} is not a character boundary of the input" := by
  rw [lex_eq]
  cases hplace : (Reader.ofString input).moveTo cursor with
  | error misuse => rfl
  | ok r => exact absurd (exists_moveTo_iff.mp ⟨r, hplace⟩) h

/-- On byte offsets a run goes through: the cursor is only set where it may be, and no text is cut
inside a character. -/
theorem lexSteps_eq (kind : LexKind) (input : String) (cursor : Nat) (format : OutputFormat) :
    lexSteps kind input cursor format = .ok (lex kind input cursor format) := by
  rw [lexSteps]
  dsimp only
  by_cases hboundary : Text.IsBoundary input.toList cursor
  · obtain ⟨r, hr⟩ := exists_moveTo_iff.mpr hboundary
    have hmove := (Reader.ofString input).moveTo_bytes cursor
    rw [hr] at hmove
    have hpast : ¬(⟨input.toList, 0⟩ : ByteReader).length < cursor := Nat.not_lt.mpr hboundary.le
    rw [decide_eq_false hpast, Text.isSome_splitAtByte?_iff.mpr hboundary, lex_eq, hr]
    have hstart : (⟨input.toList, 0⟩ : ByteReader).moveTo cursor = .ok r.bytes := hmove
    simp only [hstart, ok_bind, lexStepsAt_bytes]
    rfl
  · have hnone : (Text.splitAtByte? cursor input.toList).isSome = false :=
      Bool.eq_false_iff.mpr (mt Text.isSome_splitAtByte?_iff.mp hboundary)
    rw [lex_of_not_isBoundary kind format hboundary, hnone, Bool.not_false, Bool.or_true]
    rfl

/-! ### Reading back the record -/

/-- What the record of a run shows as the value of the text that was read. -/
inductive LexKind.Shows : LexKind → List Char → Content → Prop where
  | int {read : List Char} {n : Int} (h : Denotes read n) :
      Shows .int read (.number (Numeral.ofInt n))
  | long {read : List Char} {n : Int} (h : Denotes read n) :
      Shows .long read (.number (Numeral.ofInt n))
  | bool (value : Bool) : Shows .bool (toString value).toList (.bool value)
  | string (read : List Char) : Shows .string read (.text (String.ofList read))
  | number {kind : LexKind} (hkind : kind = .float ∨ kind = .double) (read : List Char)
      (n : Numeral) : Shows kind read (.number n)
  /-- There is no JSON for an infinity. -/
  | infinite {kind : LexKind} (hkind : kind = .float ∨ kind = .double) (read : List Char) :
      Shows kind read .null

/-- The text of a value is read as the value, and this is shown as the content. -/
structure WrittenAs (value : Data) (content : Content) : Prop where
  reads (depth : Nat) : Reads (value.prettyAt depth) value.reading
  content_eq (limit : Nat) : value.reading.content limit = .ok content

theorem writtenAs_integer {bits : Nat} (hbits : signedBound bits ≤ twoTo 63) (v : Signed bits) :
    WrittenAs (.integer v.val) (.number (Numeral.ofInt v.val)) where
  reads depth := Data.reads_prettyAt depth _ (ArgumentType.readable_signed hbits v)
  content_eq limit := by
    rw [Data.reading, Reading.content]
    rfl

theorem exists_shows_of_render {kind : LexKind} (hkind : kind = .float ∨ kind = .double)
    (token : List Char) {value : Data} {text : List Char}
    (htext : ∀ depth, value.prettyAt depth = text) (hreading : value.reading = (Json.read text).1)
    (h : ∃ r, Reads text r ∧ NumberOrNull r) :
    ∃ content, kind.Shows token content ∧ WrittenAs value content := by
  obtain ⟨r, hreads, hr⟩ := h
  rw [read_of_reads hreads] at hreading
  cases hr with
  | number n =>
      refine ⟨_, .number hkind token n, fun depth => ?_, fun limit => ?_⟩
      · rwa [htext, hreading]
      · rw [hreading, Reading.content]
        rfl
  | null =>
      refine ⟨_, .infinite hkind token, fun depth => ?_, fun limit => ?_⟩
      · rwa [htext, hreading]
      · rw [hreading, Reading.content]

theorem LexKind.Makes.exists_shows {kind : LexKind} {token : List Char} {value : ArgumentValue}
    (h : kind.Makes token value) :
    ∃ content, kind.Shows token content ∧ WrittenAs value.toData content := by
  cases h with
  | int h => exact ⟨_, .int h, writtenAs_integer (by decide) _⟩
  | long h => exact ⟨_, .long h, writtenAs_integer (by decide) _⟩
  | float token x =>
      refine exists_shows_of_render (.inl rfl) token (fun depth => ?_) ?_
        (exists_reads_render_single x)
      · rw [ArgumentValue.toData, Data.prettyAt, Data.compact]
      · rw [ArgumentValue.toData, Data.reading]
  | double token x =>
      refine exists_shows_of_render (.inr rfl) token (fun depth => ?_) ?_
        (exists_reads_render_double x)
      · rw [ArgumentValue.toData, Data.prettyAt, Data.compact]
      · rw [ArgumentValue.toData, Data.reading]
  | bool value =>
      refine ⟨_, .bool value, fun depth => ?_, fun limit => ?_⟩
      · exact Data.reads_prettyAt depth _ (by rw [ArgumentValue.toData, Data.Readable]; trivial)
      · rw [ArgumentValue.toData, Data.reading, Reading.content]
  | string token =>
      refine ⟨_, .string token, fun depth => ?_, fun limit => ?_⟩
      · exact Data.reads_prettyAt depth _ (by rw [ArgumentValue.toData, Data.Readable]; trivial)
      · rw [ArgumentValue.toData, Data.reading, Reading.content]
        rfl

/-- The record of a run with what it shows in place of the value. -/
def shownRecord (value : Content) (cursor : Nat) (read remaining : List Char) : Content :=
  .map [(.text "value", value), (.text "cursor", .number (.natural cursor)),
    (.text "read", .text (String.ofList read)), (.text "remaining", .text (String.ofList remaining))]

theorem decode_render {value : Data} {content : Content} (h : WrittenAs value content) {cursor : Nat}
    (hcursor : cursor ≤ greatestNatural) (read remaining : List Char) :
    Json.decode (Reading.content depthLimit)
      (render (.record [("value", value), ("cursor", .integer cursor),
        ("read", .text (String.ofList read)), ("remaining", .text (String.ofList remaining))]) .json)
      = .ok (shownRecord content cursor read remaining) := by
  have hfields : Data.ReadableFields [("cursor", .integer cursor),
      ("read", .text (String.ofList read)), ("remaining", .text (String.ofList remaining))] := by
    simp only [Data.ReadableFields, Data.Readable, and_true]
    omega
  have hreads := (Data.reads_record 0 "value" (h.reads 1) hfields).append_blank Data.blank_lineFeed
  have hrecord : (Data.record [("value", value), ("cursor", .integer cursor),
      ("read", .text (String.ofList read)), ("remaining", .text (String.ofList remaining))]).reading.content
        depthLimit = .ok (shownRecord content cursor read remaining) := by
    rw [Data.reading, Reading.content, depthLimit, enter, ok_bind]
    simp only [Data.readingFields, Data.reading, Reading.contentMembers, Reading.content, ofText,
      h.content_eq, ok_bind]
    rfl
  rw [render, Data.pretty, decode, read_of_reads hreads]
  simp only [hrecord]
  rfl

/-! ### Runs -/

/-- How a run from a boundary of the text ends, in every format. -/
inductive Accounts (kind : LexKind) (input : List Char) (cursor : Nat)
    (run : OutputFormat → Outcome) : Prop where
  /-- Nothing is read, and the error is where the cursor was put. -/
  | refused (e : SyntaxError) (htext : e.reader.text = input) (hposition : e.position = cursor)
      (hrun : ∀ format, run format = .failure (toString e ++ ": " ++ String.ofList e.context))
  /-- Some of the text is read, and the record has the rest of it too. -/
  | took {before read remaining : List Char} {value : Content}
      (hinput : input = before ++ read ++ remaining)
      (hcursor : Text.byteLength before = cursor) (hshows : kind.Shows read value)
      (hexit : ∀ format, (run format).exit = 0 ∧ (run format).stderr = "")
      (hjson : Json.decode (Reading.content depthLimit) (run .json).stdout.toList
        = .ok (shownRecord value (cursor + Text.byteLength read) read remaining))

theorem accounts_lexAt {kind : LexKind} {r : Reader}
    (hfits : Text.byteLength r.text ≤ greatestNatural) :
    Accounts kind r.text r.cursor (lexAt kind r) := by
  have htaken := taken_read kind r
  cases hread : kind.read r with
  | mk result s =>
      rw [hread] at htaken
      cases htaken with
      | nothing e s h =>
          refine .refused e (h ▸ rfl) (h ▸ rfl) fun format => ?_
          rw [lexAt, hread]
      | @token token value htaken hmakes =>
          obtain ⟨content, hshows, hwritten⟩ := hmakes.exists_shows
          have htake : r.after.take token.length = token := (List.prefix_iff_eq_take.mp htaken).symm
          have htext : r.text = r.consumed ++ token ++ (r.advance token.length).remaining := by
            rw [← r.text_advance token.length, Reader.text, Reader.consumed_advance, htake]
          have hcursor : (r.advance token.length).cursor = r.cursor + Text.byteLength token := by
            rw [Reader.cursor_advance, htake]
          have hle : r.cursor + Text.byteLength token ≤ greatestNatural := by
            rw [htext, Text.byteLength_append, Text.byteLength_append,
              r.byteLength_consumed] at hfits
            omega
          have hrun : ∀ format, lexAt kind r format
              = .success (render (lexData value r (r.advance token.length)) format) := by
            intro format
            rw [lexAt, hread]
          refine .took htext r.byteLength_consumed hshows (fun format => ?_) ?_
          · rw [hrun]
            exact ⟨rfl, rfl⟩
          · rw [hrun, lexData_advance htaken, Outcome.success, String.toList_ofList, hcursor]
            exact decode_render hwritten hle token _

/-- **A run of `lex` accounts for the whole text.** Its steps on byte offsets go through. If the cursor
is past the end or inside a character, it says so. Otherwise it fails where the cursor is, or what it
read and what it left are the text from there on, and its record can be read back. Byte offsets are
numbers of 64 bits. -/
theorem lex_accounts_for_text (kind : LexKind) (input : String) (cursor : Nat)
    (hfits : Text.byteLength input.toList ≤ greatestNatural) :
    (∀ format, lexSteps kind input cursor format = .ok (lex kind input cursor format))
      ∧ (Text.byteLength input.toList < cursor ∨ Text.InsideCharacter input.toList cursor →
        ∀ format, lex kind input cursor format
          = .failure s!"--cursor {cursor} is not a character boundary of the input")
      ∧ (¬(Text.byteLength input.toList < cursor ∨ Text.InsideCharacter input.toList cursor) →
        Accounts kind input.toList cursor (lex kind input cursor)) := by
  refine ⟨lexSteps_eq kind input cursor, fun hmisplaced format => ?_, fun hplaced => ?_⟩
  · exact lex_of_not_isBoundary kind format (Text.not_isBoundary_iff.mpr hmisplaced)
  · have hboundary := not_not.mp (mt Text.not_isBoundary_iff.mp hplaced)
    obtain ⟨r, hr⟩ := exists_moveTo_iff.mpr hboundary
    obtain ⟨htext, rfl⟩ := Reader.moveTo_eq_ok_iff.mp hr
    have hinput : input.toList = r.text := htext.symm
    have hrun : lex kind input r.cursor = lexAt kind r := by
      funext format
      rw [lex_eq, hr]
    rw [hrun, hinput]
    exact accounts_lexAt (hinput ▸ hfits)

/-- The first character takes two bytes. From behind it `-12` is read, from inside it nothing is. -/
theorem lex_accounts_for_text_behindAccent :
    Text.byteLength "é-12 x".toList ≤ greatestNatural
      ∧ lexSteps .int "é-12 x" 2 .json = .ok (lex .int "é-12 x" 2 .json)
      ∧ (∀ format, lex .int "é-12 x" 1 format
        = ⟨1, "", "error: --cursor 1 is not a character boundary of the input\n"⟩)
      ∧ ∃ before read remaining value, "é-12 x".toList = before ++ read ++ remaining
        ∧ Text.byteLength before = 2 ∧ LexKind.int.Shows read value
        ∧ Json.decode (Reading.content depthLimit) (lex .int "é-12 x" 2 .json).stdout.toList
          = .ok (shownRecord value (2 + Text.byteLength read) read remaining) := by
  have hfits : Text.byteLength "é-12 x".toList ≤ greatestNatural := by decide
  have hinside : Text.InsideCharacter "é-12 x".toList 1 :=
    ⟨[], 'é', "-12 x".toList, rfl, by decide, by decide⟩
  have hbetween : ¬(Text.byteLength "é-12 x".toList < 2 ∨ Text.InsideCharacter "é-12 x".toList 2) :=
    mt Text.not_isBoundary_iff.mpr (not_not.mpr (Text.isBoundary_byteLength ['é'] "-12 x".toList))
  obtain ⟨-, hmisplaced, -⟩ := lex_accounts_for_text .int "é-12 x" 1 hfits
  obtain ⟨hsteps, -, haccounts⟩ := lex_accounts_for_text .int "é-12 x" 2 hfits
  refine ⟨hfits, hsteps .json, hmisplaced (.inr hinside), ?_⟩
  cases haccounts hbetween with
  | refused e htext hposition hrun =>
      have hexit : (lex .int "é-12 x" 2 .json).exit = 0 := by decide +kernel
      rw [hrun] at hexit
      cases hexit
  | took hinput hcursor hshows hexit hjson => exact ⟨_, _, _, _, hinput, hcursor, hshows, hjson⟩

end CommandLine

end CommandGrammar
