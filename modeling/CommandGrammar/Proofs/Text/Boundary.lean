import CommandGrammar.Text.Bytes
import Mathlib.Data.List.Basic

/-!
# Places between two characters

A byte offset is a boundary of a text if the bytes before it are the UTF-8 form of a text. Any other
offset lies past the end or inside a character.
-/

namespace CommandGrammar.Text

/-- The offset lies between two characters of the text, or at one of its ends. -/
def IsBoundary (text : List Char) (offset : Nat) : Prop :=
  String.Pos.Raw.IsValid (String.ofList text) ⟨offset⟩

/-- The offset lies behind the first byte of a character and before the end of it. -/
def InsideCharacter (text : List Char) (offset : Nat) : Prop :=
  ∃ left c right, text = left ++ c :: right ∧ byteLength left < offset
    ∧ offset < byteLength left + c.utf8Size

theorem utf8ByteSize_ofList (text : List Char) :
    (String.ofList text).utf8ByteSize = byteLength text := by
  induction text with
  | nil => rfl
  | cons c text ih =>
      have hcons : String.ofList (c :: text) = String.singleton c ++ String.ofList text := by
        rw [String.singleton_eq_ofList, ← String.ofList_append]
        rfl
      rw [hcons, String.utf8ByteSize_append, String.utf8ByteSize_singleton, ih, byteLength_cons]

theorem isBoundary_iff {text : List Char} {offset : Nat} :
    IsBoundary text offset ↔ ∃ left right, text = left ++ right ∧ offset = byteLength left := by
  rw [IsBoundary, String.Pos.Raw.isValid_ofList]
  constructor
  · rintro ⟨count, hcount⟩
    rw [utf8ByteSize_ofList] at hcount
    exact ⟨text.take count, text.drop count, (List.take_append_drop count text).symm, hcount⟩
  · rintro ⟨left, right, rfl, rfl⟩
    exact ⟨left.length, by rw [List.take_left, utf8ByteSize_ofList]⟩

theorem isBoundary_byteLength (left right : List Char) :
    IsBoundary (left ++ right) (byteLength left) :=
  isBoundary_iff.mpr ⟨left, right, rfl, rfl⟩

theorem isSome_splitAtByte?_iff {text : List Char} {offset : Nat} :
    (splitAtByte? offset text).isSome = true ↔ IsBoundary text offset := by
  rw [isBoundary_iff, Option.isSome_iff_exists]
  constructor
  · rintro ⟨⟨left, right⟩, hsplit⟩
    exact ⟨left, right, splitAtByte?_eq_some_iff.mp hsplit⟩
  · rintro ⟨left, right, hsplit⟩
    exact ⟨(left, right), splitAtByte?_eq_some_iff.mpr hsplit⟩

theorem IsBoundary.le {text : List Char} {offset : Nat} (h : IsBoundary text offset) :
    offset ≤ byteLength text := by
  obtain ⟨left, right, rfl, rfl⟩ := isBoundary_iff.mp h
  rw [byteLength_append]
  exact Nat.le_add_right _ _

theorem splitAtByte?_cons (c : Char) (text : List Char) (offset : Nat) :
    splitAtByte? (c.utf8Size + offset) (c :: text)
      = (splitAtByte? offset text).map fun parts => (c :: parts.1, parts.2) := by
  have hpos := c.utf8Size_pos
  obtain ⟨n, hn⟩ : ∃ n, c.utf8Size + offset = n + 1 := ⟨c.utf8Size + offset - 1, by omega⟩
  rw [hn, splitAtByte?, if_pos (by omega), show n + 1 - c.utf8Size = offset by omega]

/-- To split behind a first part is to split the rest and put the first part in front. -/
theorem splitAtByte?_byteLength_add (left right : List Char) (offset : Nat) :
    splitAtByte? (byteLength left + offset) (left ++ right)
      = (splitAtByte? offset right).map fun parts => (left ++ parts.1, parts.2) := by
  induction left with
  | nil =>
      rw [byteLength_nil, Nat.zero_add]
      exact Option.map_id'.symm
  | cons c left ih =>
      rw [byteLength_cons, Nat.add_assoc, List.cons_append, splitAtByte?_cons, ih, Option.map_map]
      rfl

theorem isBoundary_or_insideCharacter {text : List Char} {offset : Nat}
    (h : offset ≤ byteLength text) : IsBoundary text offset ∨ InsideCharacter text offset := by
  induction text generalizing offset with
  | nil =>
      obtain rfl := Nat.le_zero.mp h
      exact .inl (isBoundary_byteLength [] [])
  | cons c text ih =>
      rw [byteLength_cons] at h
      rcases Nat.lt_or_ge offset c.utf8Size with hlt | hge
      · rcases Nat.eq_zero_or_pos offset with rfl | hpos
        · exact .inl (isBoundary_byteLength [] (c :: text))
        · exact .inr ⟨[], c, text, rfl, hpos, by rw [byteLength_nil]; omega⟩
      · have hle : offset - c.utf8Size ≤ byteLength text := by omega
        rcases ih hle with hboundary | hinside
        · obtain ⟨left, right, rfl, hlength⟩ := isBoundary_iff.mp hboundary
          refine .inl (isBoundary_iff.mpr ⟨c :: left, right, rfl, ?_⟩)
          rw [byteLength_cons]
          omega
        · obtain ⟨left, d, right, rfl, hfirst, hlast⟩ := hinside
          refine .inr ⟨c :: left, d, right, rfl, ?_, ?_⟩ <;> rw [byteLength_cons] <;> omega

theorem IsBoundary.not_insideCharacter {text : List Char} {offset : Nat}
    (h : IsBoundary text offset) : ¬ InsideCharacter text offset := by
  obtain ⟨before, after, rfl, rfl⟩ := isBoundary_iff.mp h
  rintro ⟨left, c, right, htext, hfirst, hlast⟩
  rcases List.append_eq_append_iff.mp htext with ⟨between, rfl, -⟩ | ⟨between, rfl, hrest⟩
  · rw [byteLength_append] at hfirst
    omega
  · cases between with
    | nil =>
        rw [List.append_nil] at hfirst
        omega
    | cons d between =>
        obtain ⟨rfl, -⟩ := List.cons.inj hrest
        rw [byteLength_append, byteLength_cons] at hlast
        omega

/-- An offset that is no boundary lies past the end or inside a character. -/
theorem not_isBoundary_iff {text : List Char} {offset : Nat} :
    ¬ IsBoundary text offset ↔ byteLength text < offset ∨ InsideCharacter text offset := by
  constructor
  · intro hnot
    rcases Nat.lt_or_ge (byteLength text) offset with hpast | hle
    · exact .inl hpast
    · exact .inr ((isBoundary_or_insideCharacter hle).resolve_left hnot)
  · rintro (hpast | hinside) hboundary
    · exact absurd hboundary.le (Nat.not_le_of_gt hpast)
    · exact hboundary.not_insideCharacter hinside

end CommandGrammar.Text
