import CommandGrammar.Proofs.Reader.Agreement

/-!
# The context of an error as byte offsets

Where the context of an error starts is found among the byte offsets of the characters before the
cursor. The text from there on can always be cut out, and it is the last ten of these characters.
-/

namespace CommandGrammar

namespace Text

/-- The byte offsets at which the characters of a text start, counted from `start` on. -/
def charOffsets (start : Nat) : List Char → List Nat
  | [] => []
  | c :: text => start :: charOffsets (start + c.utf8Size) text

theorem charOffsets_append (left right : List Char) (start : Nat) :
    charOffsets start (left ++ right)
      = charOffsets start left ++ charOffsets (start + byteLength left) right := by
  induction left generalizing start with
  | nil => rfl
  | cons c left ih =>
      rw [List.cons_append, charOffsets, charOffsets, ih, List.cons_append, byteLength_cons,
        Nat.add_assoc]

theorem length_charOffsets (text : List Char) (start : Nat) :
    (charOffsets start text).length = text.length := by
  induction text generalizing start with
  | nil => rfl
  | cons c text ih => rw [charOffsets, List.length_cons, List.length_cons, ih]

/-- Counted from the end, a character starts behind all the text before it. -/
theorem reverse_charOffsets_getElem? (left : List Char) (c : Char) (right : List Char) :
    (charOffsets 0 (left ++ c :: right)).reverse[right.length]? = some (byteLength left) := by
  have hlength :
      right.length = (charOffsets (byteLength left + c.utf8Size) right).reverse.length := by
    rw [List.length_reverse, length_charOffsets]
  rw [charOffsets_append, charOffsets, List.reverse_append, List.reverse_cons, Nat.zero_add,
    List.append_assoc, List.singleton_append, hlength, List.getElem?_append_right le_rfl, Nat.sub_self]
  rfl

end Text

namespace ByteReader

/-- The context of an error, found by byte offsets. -/
def context (b : ByteReader) : Except Fault (List Char) := do
  let consumed ← b.consumed
  let offsets := (Text.charOffsets 0 consumed).reverse
  let start := (offsets[SyntaxError.contextLength - 1]?).getD 0
  let tail ← (⟨consumed, 0⟩ : ByteReader).slice start (Text.byteLength consumed)
  return (if 0 < start then ['.', '.', '.'] else []) ++ tail ++ SyntaxError.marker

/-- The text behind some of the consumed characters, with an ellipsis for these. -/
theorem context_of_start {b : ByteReader} {left right : List Char}
    (hconsumed : b.consumed = .ok (left ++ right))
    (hstart : ((Text.charOffsets 0 (left ++ right)).reverse[SyntaxError.contextLength - 1]?).getD 0
      = Text.byteLength left) :
    b.context = .ok ((if left = [] then [] else ['.', '.', '.']) ++ right ++ SyntaxError.marker) := by
  have hslice := slice_eq left right [] 0
  rw [List.append_nil] at hslice
  simp only [context, hconsumed, ok_bind, hstart, hslice]
  by_cases hleft : left = []
  · subst hleft
    rfl
  · have hpos := Nat.pos_of_ne_zero (mt Text.byteLength_eq_zero_iff.mp hleft)
    rw [if_pos hpos, if_neg hleft]
    rfl

end ByteReader

theorem SyntaxError.context_bytes (e : SyntaxError) : e.reader.bytes.context = .ok e.context := by
  have hconsumed := e.reader.consumed_bytes
  rw [Reader.consumed] at hconsumed
  rw [SyntaxError.context]
  generalize e.reader.before = before at hconsumed ⊢
  rcases Nat.lt_or_ge before.length contextLength with hshort | hlong
  · -- everything is shown
    have hnone : (Text.charOffsets 0 ([] ++ before.reverse)).reverse[contextLength - 1]? = none := by
      rw [List.getElem?_eq_none_iff, List.length_reverse, Text.length_charOffsets, List.nil_append,
        List.length_reverse]
      omega
    rw [← List.nil_append before.reverse] at hconsumed
    rw [ByteReader.context_of_start hconsumed (by rw [hnone]; rfl), if_pos rfl,
      if_neg hshort.not_gt, List.take_of_length_le hshort.le]
  · obtain ⟨nearest, older, rfl, hlength⟩ : ∃ nearest older, before = nearest ++ older
        ∧ nearest.length = contextLength :=
      ⟨before.take contextLength, before.drop contextLength, (List.take_append_drop _ _).symm,
        List.length_take_of_le hlong⟩
    obtain ⟨c, shown, hshown⟩ : ∃ c shown, nearest.reverse = c :: shown := by
      apply List.exists_cons_of_ne_nil
      intro hnil
      rw [List.reverse_eq_nil_iff.mp hnil] at hlength
      cases hlength
    have hcount : shown.length = contextLength - 1 := by
      have hreverse := congrArg List.length hshown
      rw [List.length_reverse, hlength, List.length_cons] at hreverse
      omega
    have hstart := Text.reverse_charOffsets_getElem? older.reverse c shown
    rw [hcount, ← hshown] at hstart
    rw [List.reverse_append] at hconsumed
    rw [ByteReader.context_of_start hconsumed (by rw [hstart]; rfl), ← hlength, List.take_left,
      List.length_append]
    by_cases holder : older = []
    · subst holder
      simp
    · have hpos := List.length_pos_iff.mpr holder
      rw [if_neg (mt List.reverse_eq_nil_iff.mp holder), if_pos (by omega)]

namespace SyntaxError

/-- The characters before the cursor, split where the context starts. -/
theorem exists_context_eq (e : SyntaxError) :
    ∃ older shown, e.reader.consumed = older ++ shown
      ∧ shown.length = min contextLength (older ++ shown).length
      ∧ e.context = (if contextLength < (older ++ shown).length then ['.', '.', '.'] else [])
        ++ shown ++ marker := by
  have hsplit : e.reader.consumed = (e.reader.before.drop contextLength).reverse
      ++ (e.reader.before.take contextLength).reverse := by
    rw [← List.reverse_append, List.take_append_drop, Reader.consumed]
  have hlength : e.reader.consumed.length = e.reader.before.length := List.length_reverse
  refine ⟨_, _, hsplit, ?_, ?_⟩
  · rw [← hsplit, hlength, List.length_reverse, List.length_take]
  · rw [← hsplit, hlength, context]

/-- **The context is the end of the text before the error.** Wherever the cursor stands between two
characters, the last ten characters in front of it are shown, or all of them if there are no more
than ten, and only those that are left out are marked. On byte offsets the same context is found,
and no text is cut inside a character. -/
theorem context_shows_last_characters (cause : Cause) {text : List Char} {offset : Nat}
    (hboundary : Text.IsBoundary text offset) :
    ∃ older shown remaining, text = older ++ shown ++ remaining
      ∧ Text.byteLength (older ++ shown) = offset
      ∧ shown.length = min 10 (older ++ shown).length
      ∧ ByteReader.context ⟨text, offset⟩
        = .ok ((if 10 < (older ++ shown).length then "...".toList else []) ++ shown
          ++ "<--[HERE]".toList)
      ∧ ∀ r : Reader, r.bytes = ⟨text, offset⟩ →
        context ⟨cause, r⟩ = (if 10 < (older ++ shown).length then "...".toList else []) ++ shown
          ++ "<--[HERE]".toList := by
  obtain ⟨r, hr⟩ := Reader.exists_bytes_eq_iff.mpr
    (show Text.IsBoundary (ByteReader.mk text offset).text offset from hboundary)
  obtain ⟨older, shown, hconsumed, hlength, hcontext⟩ := exists_context_eq ⟨cause, r⟩
  obtain ⟨htext, hoffset⟩ := ByteReader.mk.inj hr
  refine ⟨older, shown, r.remaining, ?_, ?_, hlength, ?_, ?_⟩
  · rw [← htext, Reader.text, ← hconsumed]
  · rw [← hconsumed, Reader.byteLength_consumed, hoffset]
  · have hbytes := context_bytes ⟨cause, r⟩
    rw [hcontext, hr] at hbytes
    exact hbytes
  · intro s hs
    obtain rfl := Reader.bytes_injective (hr.trans hs.symm)
    exact hcontext

/-- Thirteen bytes are eleven characters, so the first of them is left out. -/
theorem context_shows_last_characters_elevenCharacters :
    Text.IsBoundary "héllo wörld!".toList 13
      ∧ ByteReader.context ⟨"héllo wörld!".toList, 13⟩ = .ok "...éllo wörld<--[HERE]".toList := by
  have hboundary : Text.IsBoundary "héllo wörld!".toList 13 :=
    Text.isBoundary_iff.mpr ⟨"héllo wörld".toList, ['!'], by decide +kernel, by decide +kernel⟩
  refine ⟨hboundary, ?_⟩
  obtain ⟨older, shown, remaining, htext, hoffset, hlength, hcontext, -⟩ :=
    context_shows_last_characters .expectedBool hboundary
  have hsplit := Text.splitAtByte?_byteLength (older ++ shown) remaining
  have hcut : Text.splitAtByte? 13 "héllo wörld!".toList
      = some ("h".toList ++ "éllo wörld".toList, ['!']) := by decide +kernel
  rw [hoffset, ← htext, hcut] at hsplit
  have hconsumed : "h".toList ++ "éllo wörld".toList = older ++ shown :=
    (Prod.mk.inj (Option.some.inj hsplit)).1
  rw [← hconsumed] at hlength hcontext
  obtain ⟨-, rfl⟩ := List.append_inj' hconsumed hlength.symm
  exact hcontext.trans (congrArg Except.ok (by decide +kernel))

end SyntaxError

end CommandGrammar
