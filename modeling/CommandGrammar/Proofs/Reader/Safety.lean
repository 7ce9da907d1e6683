import CommandGrammar.Proofs.Reader.TypedReads

/-!
# Safety of readers

Readers of one text are used and copied in any order. As long as no call was a misuse, every one of
them is at a boundary of the text, and whether the next call is a misuse can be told from its offset.
-/

namespace CommandGrammar

/-- A use of a reader. -/
inductive ReaderCall where
  | moveTo (position : Nat)
  | peek
  | peekAt (count : Nat)
  | next
  | skip
  | skipSpaces
  | word
  | typed {α : Type} (t : TypedRead α)

namespace ReaderCall

/-- The reader after the call. -/
def perform : ReaderCall → Reader → Except Misuse Reader
  | moveTo position, r => r.moveTo position
  | peek, r => r.peek.map fun _ => r
  | peekAt count, r => (r.peekAt count).map fun _ => r
  | next, r => r.next.map Prod.snd
  | skip, r => r.next.map Prod.snd
  | skipSpaces, r => .ok r.skipSpaces
  | word, r => .ok r.word.2
  | typed t, r => .ok (t.read r).2

/-- The same call on the byte offset of the cursor. -/
def steps : ReaderCall → ByteReader → Except ByteReader.Fault ByteReader
  | moveTo position, b => b.moveTo position
  | peek, b => (b.peekAt 0).map fun _ => b
  | peekAt count, b => (b.peekAt count).map fun _ => b
  | next, b => b.next.map Prod.snd
  | skip, b => b.skip
  | skipSpaces, b => b.skipSpaces
  | word, b => b.word.map Prod.snd
  | typed t, b => (t.steps b).map Prod.snd

/-- The call moves to, or looks at, a place where no character of the text starts. The end of the
text is such a place for a look, but not for a move. -/
def Misused (b : ByteReader) : ReaderCall → Prop
  | moveTo position => b.length < position ∨ Text.InsideCharacter b.text position
  | peekAt count =>
    b.length ≤ b.offset + count ∨ Text.InsideCharacter b.text (b.offset + count)
  | peek | next | skip => b.offset = b.length
  | skipSpaces | word | typed _ => False

/-! ### One call -/

theorem steps_bytes (call : ReaderCall) (r : Reader) :
    call.steps r.bytes = ((call.perform r).map Reader.bytes).mapError .misuse := by
  have hnext : r.bytes.next.map Prod.snd
      = ((r.next.map Prod.snd).map Reader.bytes).mapError .misuse := by
    rw [r.next_bytes]
    cases r.next <;> rfl
  cases call with
  | moveTo position => exact r.moveTo_bytes position
  | peek =>
      rw [steps, perform, Reader.peekAt_bytes, Reader.peek]
      cases r.peekAt 0 <;> rfl
  | peekAt count =>
      rw [steps, perform, Reader.peekAt_bytes]
      cases r.peekAt count <;> rfl
  | next => exact hnext
  | skip => exact hnext
  | skipSpaces => exact r.skipWhile_bytes Reader.isSpace
  | word =>
      rw [steps, perform, Reader.word_bytes]
      rfl
  | typed t =>
      rw [steps, perform, t.steps_bytes]
      rfl

theorem text_perform {call : ReaderCall} {r s : Reader} (h : call.perform r = .ok s) :
    s.text = r.text := by
  have hnext (h : r.next.map Prod.snd = .ok s) : s.text = r.text := by
    obtain ⟨_, hpair, rfl⟩ := exists_eq_ok_of_map h
    obtain ⟨_, -, rfl⟩ := exists_eq_ok_of_map hpair
    exact r.text_advance 1
  cases call with
  | moveTo position => exact (Reader.moveTo_eq_ok_iff.mp h).1
  | peek =>
      obtain ⟨_, -, rfl⟩ := exists_eq_ok_of_map h
      rfl
  | peekAt count =>
      obtain ⟨_, -, rfl⟩ := exists_eq_ok_of_map h
      rfl
  | next => exact hnext h
  | skip => exact hnext h
  | skipSpaces =>
      cases h
      exact r.text_advance _
  | word =>
      cases h
      exact r.text_advance _
  | typed t =>
      cases h
      exact t.text_read r

end ReaderCall

/-! ### Misuses -/

namespace ByteReader

theorem moveTo_fails_iff {b : ByteReader} {position : Nat} :
    (∃ fault, b.moveTo position = .error fault)
      ↔ b.length < position ∨ Text.InsideCharacter b.text position := by
  rw [length, ← Text.not_isBoundary_iff, ← Text.isSome_splitAtByte?_iff, moveTo]
  split
  · rename_i hsome
    simp [hsome]
  · rename_i hnone
    simp [hnone]

theorem peekAt_fails_iff {b : ByteReader} {count : Nat} :
    (∃ fault, b.peekAt count = .error fault)
      ↔ b.length ≤ b.offset + count ∨ Text.InsideCharacter b.text (b.offset + count) := by
  rw [peekAt, length]
  split
  · rename_i left c right hsplit
    obtain ⟨htext, hoffset⟩ := Text.splitAtByte?_eq_some_iff.mp hsplit
    have hboundary : Text.IsBoundary b.text (b.offset + count) :=
      Text.isBoundary_iff.mpr ⟨left, c :: right, htext, hoffset⟩
    have hlt : b.offset + count < Text.byteLength b.text := by
      rw [htext, hoffset, Text.byteLength_append, Text.byteLength_cons]
      have hpos := c.utf8Size_pos
      omega
    constructor
    · rintro ⟨_, hfault⟩
      cases hfault
    · rintro (hle | hinside)
      · exact absurd hle (Nat.not_le_of_gt hlt)
      · exact absurd hinside hboundary.not_insideCharacter
  · rename_i hnone
    refine ⟨fun _ => ?_, fun _ => ⟨_, rfl⟩⟩
    by_cases hboundary : Text.IsBoundary b.text (b.offset + count)
    · -- The text can be split here, so there is nothing behind the place.
      obtain ⟨left, right, htext, hoffset⟩ := Text.isBoundary_iff.mp hboundary
      cases right with
      | nil =>
          rw [List.append_nil] at htext
          exact .inl (by rw [htext, hoffset])
      | cons c right =>
          exact absurd (Text.splitAtByte?_eq_some_iff.mpr ⟨htext, hoffset⟩) (hnone left c right)
    · exact (Text.not_isBoundary_iff.mp hboundary).imp_left Nat.le_of_lt

end ByteReader

namespace ReaderCall

theorem steps_fails_iff (call : ReaderCall) (r : Reader) :
    (∃ fault, call.steps r.bytes = .error fault) ↔ call.Misused r.bytes := by
  have hpeek : (∃ fault, r.bytes.peekAt 0 = .error fault) ↔ r.bytes.offset = r.bytes.length := by
    have hboundary := r.isBoundary_cursor
    rw [ByteReader.peekAt_fails_iff, Nat.add_zero]
    constructor
    · rintro (hle | hinside)
      · exact Nat.le_antisymm hboundary.le hle
      · exact absurd hinside hboundary.not_insideCharacter
    · intro hend
      exact .inl (Nat.le_of_eq hend.symm)
  have hnext : (∃ fault, r.bytes.next.map Prod.snd = .error fault)
      ↔ r.bytes.offset = r.bytes.length := by
    rw [exists_map_eq_error_iff, ByteReader.next, exists_map_eq_error_iff, hpeek]
  have hnever {s : Reader} (hsteps : call.steps r.bytes = .ok s.bytes) :
      ¬ ∃ fault, call.steps r.bytes = .error fault := by
    rw [hsteps]
    rintro ⟨_, hfault⟩
    cases hfault
  cases call with
  | moveTo position => exact ByteReader.moveTo_fails_iff
  | peek => exact (exists_map_eq_error_iff _).trans hpeek
  | peekAt count => exact (exists_map_eq_error_iff _).trans ByteReader.peekAt_fails_iff
  | next => exact hnext
  | skip => exact hnext
  | skipSpaces => exact iff_of_false (hnever (steps_bytes _ r)) not_false
  | word => exact iff_of_false (hnever (steps_bytes _ r)) not_false
  | typed t => exact iff_of_false (hnever (steps_bytes _ r)) not_false

end ReaderCall

/-! ### Runs -/

/-- A call on one of several readers, or a copy of one of them. -/
inductive ReaderAction where
  | call (slot : Nat) (call : ReaderCall)
  | copy (slot : Nat)

namespace ReaderAction

section

variable {ρ ε : Type} (perform : ReaderCall → ρ → Except ε ρ)

/-- The readers after one action. A slot without a reader stays as it is. -/
def apply (readers : List ρ) : ReaderAction → Except ε (List ρ)
  | call slot c =>
    match readers[slot]? with
    | some r => (perform c r).map (readers.set slot)
    | none => .ok readers
  | copy slot => .ok (readers ++ readers[slot]?.toList)

/-- The readers after a list of actions, none of which was a misuse. -/
def run : List ReaderAction → List ρ → Except ε (List ρ)
  | [], readers => .ok readers
  | action :: actions, readers => action.apply perform readers >>= run actions

end

theorem apply_bytes (action : ReaderAction) (readers : List Reader) :
    action.apply ReaderCall.steps (readers.map Reader.bytes)
      = ((action.apply ReaderCall.perform readers).map (List.map Reader.bytes)).mapError
          .misuse := by
  cases action with
  | call slot c =>
      rw [apply, apply, List.getElem?_map]
      cases readers[slot]? with
      | none => rfl
      | some r =>
          simp only [Option.map_some, ReaderCall.steps_bytes]
          cases c.perform r with
          | error misuse => rfl
          | ok s => exact congrArg Except.ok List.map_set.symm
  | copy slot =>
      rw [apply, apply, List.getElem?_map]
      cases readers[slot]? <;> simp [Except.map, Except.mapError]

theorem run_bytes (actions : List ReaderAction) (readers : List Reader) :
    run ReaderCall.steps actions (readers.map Reader.bytes)
      = ((run ReaderCall.perform actions readers).map (List.map Reader.bytes)).mapError
          .misuse := by
  induction actions generalizing readers with
  | nil => rfl
  | cons action actions ih =>
      rw [run, run, apply_bytes]
      cases action.apply ReaderCall.perform readers with
      | error misuse => rfl
      | ok readers' => exact ih readers'

/-- Every action keeps the text. -/
theorem text_apply {text : List Char} {action : ReaderAction} {readers readers' : List Reader}
    (htext : ∀ r ∈ readers, r.text = text)
    (h : action.apply ReaderCall.perform readers = .ok readers') :
    ∀ r ∈ readers', r.text = text := by
  cases action with
  | call slot c =>
      rw [apply] at h
      cases hslot : readers[slot]? with
      | none =>
          rw [hslot] at h
          cases h
          exact htext
      | some r =>
          rw [hslot] at h
          obtain ⟨s, hs, rfl⟩ := exists_eq_ok_of_map h
          intro t ht
          rcases List.mem_or_eq_of_mem_set ht with ht | rfl
          · exact htext t ht
          · rw [ReaderCall.text_perform hs]
            exact htext r (List.mem_of_getElem? hslot)
  | copy slot =>
      cases h
      intro r hr
      rcases List.mem_append.mp hr with hr | hr
      · exact htext r hr
      · exact htext r (List.mem_of_getElem? (Option.mem_toList.mp hr))

theorem text_run {text : List Char} {actions : List ReaderAction} {readers readers' : List Reader}
    (htext : ∀ r ∈ readers, r.text = text)
    (h : run ReaderCall.perform actions readers = .ok readers') :
    ∀ r ∈ readers', r.text = text := by
  induction actions generalizing readers with
  | nil =>
      cases h
      exact htext
  | cons action actions ih =>
      rw [run] at h
      cases happly : action.apply ReaderCall.perform readers with
      | error misuse =>
          rw [happly] at h
          cases h
      | ok between =>
          rw [happly] at h
          exact ih (text_apply htext happly) h

end ReaderAction

namespace ByteReader

/-- A reader of the text at a boundary. The two sides of it can be cut out and make up the text, and
exactly the calls that misuse it fail. -/
structure Safe (text : List Char) (b : ByteReader) : Prop where
  text_eq : b.text = text
  offset_le : b.offset ≤ Text.byteLength text
  isBoundary : Text.IsBoundary text b.offset
  sides : ∃ left right, b.consumed = .ok left ∧ b.remaining = .ok right ∧ left ++ right = text
    ∧ Text.byteLength left = b.offset
  fails_iff (call : ReaderCall) : (∃ fault, call.steps b = .error fault) ↔ call.Misused b

theorem safe_bytes (r : Reader) : Safe r.text r.bytes where
  text_eq := rfl
  offset_le := r.isBoundary_cursor.le
  isBoundary := r.isBoundary_cursor
  sides := ⟨r.consumed, r.remaining, r.consumed_bytes, r.remaining_bytes, rfl,
    r.byteLength_consumed⟩
  fails_iff call := call.steps_fails_iff r

end ByteReader

namespace ReaderAction

/-- **Readers of one text are safe.** On byte offsets a run has the result that it has on readers.
As long as there was no misuse, every reader is at a boundary of the same text, and each call fails
exactly if it misuses the reader. -/
theorem run_safe (text : List Char) (actions : List ReaderAction) :
    run ReaderCall.steps actions [⟨text, 0⟩]
        = ((run ReaderCall.perform actions [.ofChars text]).map (List.map Reader.bytes)).mapError
          .misuse
      ∧ ∀ readers, run ReaderCall.steps actions [⟨text, 0⟩] = .ok readers →
        ∀ b ∈ readers, ByteReader.Safe text b := by
  have hagree := run_bytes actions [.ofChars text]
  refine ⟨hagree, ?_⟩
  intro bs hrun b hb
  rw [show [(⟨text, 0⟩ : ByteReader)] = [Reader.ofChars text].map Reader.bytes from rfl,
    hagree] at hrun
  cases hperform : run ReaderCall.perform actions [.ofChars text] with
  | error misuse =>
      rw [hperform] at hrun
      cases hrun
  | ok readers =>
      rw [hperform] at hrun
      cases hrun
      obtain ⟨r, hr, rfl⟩ := List.mem_map.mp hb
      have hstart : ∀ s ∈ [Reader.ofChars text], s.text = text := by
        intro s hs
        rw [List.mem_singleton.mp hs, Reader.text_ofChars]
      rw [← text_run hstart hperform r hr]
      exact ByteReader.safe_bytes r

/-- A character of two bytes is read and then a number, with a copy left at the start. No reader of
this text can be moved to its second byte. -/
theorem run_safe_twoBytes :
    ∃ b, run ReaderCall.steps [.copy 0, .call 0 .next, .call 1 (.peekAt 2),
        .call 0 (.typed (.number .int))] [⟨['é', '1'], 0⟩] = .ok [b, ⟨['é', '1'], 0⟩]
      ∧ b.offset = 3 ∧ ∃ fault, (ReaderCall.moveTo 1).steps b = .error fault := by
  obtain ⟨hagree, hsafe⟩ := run_safe ['é', '1'] [.copy 0, .call 0 .next, .call 1 (.peekAt 2),
    .call 0 (.typed (.number .int))]
  refine ⟨⟨['é', '1'], 3⟩, hagree.trans rfl, rfl, ?_⟩
  have hb := hsafe _ (hagree.trans rfl) ⟨['é', '1'], 3⟩ (List.mem_cons_self)
  exact (hb.fails_iff _).mpr (.inr ⟨[], 'é', ['1'], rfl, by decide, by decide⟩)

end ReaderAction

end CommandGrammar
