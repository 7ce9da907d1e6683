/-!
# Byte offsets

A place in a text is named by the number of bytes that its UTF-8 form has before that place. Only
places between two characters have a name.
-/

namespace CommandGrammar.Text

/-- The length of the UTF-8 form. -/
def byteLength : List Char → Nat
  | [] => 0
  | c :: text => c.utf8Size + byteLength text

/-- The two parts of a text on either side of a byte offset, if it lies between two characters. -/
def splitAtByte? : Nat → List Char → Option (List Char × List Char)
  | 0, text => some ([], text)
  | _ + 1, [] => none
  | offset + 1, c :: text =>
    if c.utf8Size ≤ offset + 1 then
      (splitAtByte? (offset + 1 - c.utf8Size) text).map fun parts => (c :: parts.1, parts.2)
    else none

@[simp] theorem byteLength_nil : byteLength [] = 0 := rfl

@[simp] theorem byteLength_cons (c : Char) (text : List Char) :
    byteLength (c :: text) = c.utf8Size + byteLength text := rfl

@[simp] theorem byteLength_append (left right : List Char) :
    byteLength (left ++ right) = byteLength left + byteLength right := by
  induction left with
  | nil => simp
  | cons c left ih => simp [ih, Nat.add_assoc]

@[simp] theorem byteLength_reverse (text : List Char) : byteLength text.reverse = byteLength text := by
  induction text with
  | nil => rfl
  | cons c text ih => simp [ih, Nat.add_comm]

theorem byteLength_eq_zero_iff {text : List Char} : byteLength text = 0 ↔ text = [] := by
  cases text with
  | nil => simp
  | cons c text => have := c.utf8Size_pos; simp; omega

theorem splitAtByte?_byteLength (left right : List Char) :
    splitAtByte? (byteLength left) (left ++ right) = some (left, right) := by
  induction left with
  | nil => simp [splitAtByte?]
  | cons c left ih =>
    have hpos := c.utf8Size_pos
    obtain ⟨n, hn⟩ : ∃ n, c.utf8Size + byteLength left = n + 1 :=
      ⟨c.utf8Size + byteLength left - 1, by omega⟩
    rw [List.cons_append, byteLength_cons, hn, splitAtByte?, if_pos (by omega),
      show n + 1 - c.utf8Size = byteLength left by omega, ih]
    rfl

/-- An offset is accepted exactly when it is the length of a first part, and the parts are then
determined by it. -/
theorem splitAtByte?_eq_some_iff {offset : Nat} {text left right : List Char} :
    splitAtByte? offset text = some (left, right) ↔
      text = left ++ right ∧ offset = byteLength left := by
  constructor
  · intro h
    induction text generalizing offset left with
    | nil =>
      cases offset with
      | zero => simp [splitAtByte?] at h; simp [h]
      | succ n => simp [splitAtByte?] at h
    | cons c text ih =>
      cases offset with
      | zero => simp [splitAtByte?] at h; simp [h]
      | succ n =>
        rw [splitAtByte?] at h
        split at h
        · rename_i hle
          obtain ⟨⟨l, r⟩, hp, heq⟩ := Option.map_eq_some_iff.mp h
          obtain ⟨rfl, rfl⟩ := Prod.mk.inj heq
          obtain ⟨rfl, hlen⟩ := ih hp
          exact ⟨rfl, by simp; omega⟩
        · simp at h
  · rintro ⟨rfl, rfl⟩
    exact splitAtByte?_byteLength left right

end CommandGrammar.Text
