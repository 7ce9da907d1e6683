import CommandGrammar.Text.Bytes
import Mathlib.Data.List.Lex
import Mathlib.Data.String.Basic

/-!
# The order of texts

Texts compare character by character. That is the order of their UTF-8 forms, byte by byte: the form
of a character tells where it ends, and a larger character has the larger form.
-/

namespace CommandGrammar.Text

/-- The bytes of the UTF-8 form. -/
def utf8 (s : String) : List UInt8 := s.toUTF8.data.toList

theorem utf8_eq_flatMap (s : String) : utf8 s = s.toList.flatMap String.utf8EncodeChar := by
  have hs : s.toByteArray = (String.ofList s.toList).toByteArray := by rw [String.ofList_toList]
  rw [utf8, String.toUTF8_eq_toByteArray, hs, String.toByteArray_ofList, List.utf8Encode,
    List.data_toByteArray]

theorem byte_cons_lt_iff {m n : Nat} (hm : m < UInt8.size) (hn : n < UInt8.size)
    {left right : List UInt8} :
    UInt8.ofNat m :: left < UInt8.ofNat n :: right ↔ m < n ∨ m = n ∧ left < right := by
  have heq : UInt8.ofNat m = UInt8.ofNat n ↔ m = n := by
    constructor
    · intro h
      have hmod := congrArg UInt8.toNat h
      rwa [UInt8.toNat_ofNat_of_lt' hm, UInt8.toNat_ofNat_of_lt' hn] at hmod
    · rintro rfl
      rfl
  rw [List.cons_lt_cons_iff, UInt8.ofNat_lt_iff_lt hm hn, heq]

theorem toNat_lt_of_char (c : Char) : c.val.toNat < 0x110000 := by
  rcases c.valid with hlow | ⟨-, hhigh⟩
  · have : c.val.toNat < 0xD800 := hlow
    omega
  · exact hhigh

/-- The form of the smaller of two characters is smaller, whatever follows either of them. -/
theorem utf8EncodeChar_append_lt {c d : Char} (h : c < d) (left right : List UInt8) :
    String.utf8EncodeChar c ++ left < String.utf8EncodeChar d ++ right := by
  have hlt : c.val.toNat < d.val.toNat := h
  have hmax : d.val.toNat < 0x110000 := toNat_lt_of_char d
  unfold String.utf8EncodeChar
  generalize c.val.toNat = m at hlt
  generalize d.val.toNat = n at hlt hmax
  have hsize : UInt8.size = 256 := rfl
  -- the places of a number in base 64, each from the one below it
  have hthird : ∀ k : Nat, k / 4096 = k / 64 / 64 := fun k => (Nat.div_div_eq_div_mul k 64 64).symm
  have hfourth : ∀ k : Nat, k / 262144 = k / 64 / 64 / 64 := fun k => by
    rw [← hthird, Nat.div_div_eq_div_mul]
  simp only [hthird, hfourth]
  split_ifs
  all_goals
    simp (disch := omega) only [List.cons_append, List.nil_append, byte_cons_lt_iff]
    omega

theorem utf8_lt_of_lt {s t : String} (h : s < t) : utf8 s < utf8 t := by
  rw [String.lt_iff_toList_lt] at h
  rw [utf8_eq_flatMap, utf8_eq_flatMap]
  generalize s.toList = left at h
  generalize t.toList = right at h
  induction left generalizing right with
  | nil =>
      cases right with
      | nil => exact absurd h (List.lt_irrefl [])
      | cons d right =>
          rw [List.flatMap_nil, List.flatMap_cons]
          have hne : String.utf8EncodeChar d ≠ [] := String.utf8EncodeChar_ne_nil
          obtain ⟨byte, bytes, hd⟩ := List.exists_cons_of_ne_nil hne
          rw [hd]
          exact List.nil_lt_cons _ _
  | cons c left ih =>
      cases right with
      | nil => exact absurd h (List.not_lt_nil _)
      | cons d right =>
          rw [List.flatMap_cons, List.flatMap_cons]
          rcases List.cons_lt_cons_iff.mp h with hlt | ⟨rfl, hrest⟩
          · exact utf8EncodeChar_append_lt hlt _ _
          · exact List.append_left_lt (ih _ hrest)

/-- **Texts are ordered as their bytes are.** -/
theorem utf8_lt_iff {s t : String} : utf8 s < utf8 t ↔ s < t := by
  constructor
  · intro h
    rcases lt_trichotomy s t with hlt | rfl | hgt
    · exact hlt
    · exact absurd h (List.lt_irrefl _)
    · exact absurd h (List.lt_asymm (utf8_lt_of_lt hgt))
  · exact utf8_lt_of_lt

end CommandGrammar.Text
