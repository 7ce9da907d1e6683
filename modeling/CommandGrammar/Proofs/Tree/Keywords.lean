import CommandGrammar.Proofs.Reader.Context
import CommandGrammar.Proofs.Tree.FirstFault

/-!
# Which keywords can be typed

A keyword whose name is not made of characters of a word is matched by no word of any text, and
comparing without regard to case does not help: it changes no other character into one of a word. Any
other keyword is matched by its own name wherever that stands as a word.
-/

namespace CommandGrammar

theorem Reader.isWordChar_of_isAlpha {c : Char} (h : c.isAlpha = true) : isWordChar c = true := by
  simp only [isWordChar, Char.isAlphanum, h, Bool.true_or]

theorem Reader.isWordChar_toLower (c : Char) : isWordChar c.toLower = isWordChar c := by
  by_cases hupper : c.val ≥ 'A'.val ∧ c.val ≤ 'Z'.val
  · have hval : c.toLower.val = c.val + 32 := congrArg Char.val (dif_pos hupper)
    have hlower : c.toLower.val ≥ 'a'.val ∧ c.toLower.val ≤ 'z'.val := by
      simp only [hval, ge_iff_le, UInt32.le_iff_toNat_le, UInt32.toNat_add, Char.reduceVal,
        UInt32.reduceToNat] at hupper ⊢
      omega
    have hisUpper : c.isUpper = true := decide_eq_true hupper
    have hisLower : c.toLower.isLower = true :=
      Bool.and_eq_true_iff.mpr ⟨decide_eq_true hlower.1, decide_eq_true hlower.2⟩
    rw [isWordChar_of_isAlpha (Bool.or_eq_true_iff.mpr (.inl hisUpper)),
      isWordChar_of_isAlpha (Bool.or_eq_true_iff.mpr (.inr hisLower))]
  · exact congrArg isWordChar (dif_neg hupper)

theorem Reader.word_ofChars_between (left : List Char) {w right : List Char}
    (hword : ∀ c ∈ w, isWordChar c = true) (hright : Text.Stops isWordChar right) :
    ((ofChars w).between left right).word.1 = w
      ∧ ((ofChars w).between left right).word.2.cursor = Text.byteLength (left ++ w) := by
  have hall : w.takeWhile isWordChar = w := List.takeWhile_eq_self_iff.mpr hword
  rw [(ofChars w).word_between left hright, cursor_between, Text.byteLength_append]
  simp [word, ofChars, hall, cursor, advance]

namespace Node

variable {Source Value : Type} {n : Node Source Value}

theorem acceptsLiteral_name (hkind : n.isLiteral = true) : n.acceptsLiteral n.name = true := by
  unfold isLiteral at hkind
  unfold acceptsLiteral
  cases h : n.header.kind with
  | literal caseSensitive => cases caseSensitive <;> simp
  | argument parser => simp [h, NodeKind.isLiteral] at hkind

theorem isWordChar_of_acceptsLiteral {token : String} (haccepts : n.acceptsLiteral token = true)
    (htoken : ∀ c ∈ token.toList, Reader.isWordChar c = true) :
    ∀ c ∈ n.name.toList, Reader.isWordChar c = true := by
  unfold acceptsLiteral at haccepts
  intro c hc
  split at haccepts
  · rw [eq_of_beq haccepts] at hc
    exact htoken c hc
  -- In lower case the two texts have the same characters, and case does not decide what a word has.
  · have hmem : c.toLower ∈ token.toList.map Char.toLower := by
      rw [← eq_of_beq haccepts]
      exact List.mem_map_of_mem hc
    obtain ⟨d, hd, hdc⟩ := List.mem_map.mp hmem
    calc Reader.isWordChar c = Reader.isWordChar c.toLower := (Reader.isWordChar_toLower c).symm
      _ = Reader.isWordChar d.toLower := by rw [hdc]
      _ = Reader.isWordChar d := Reader.isWordChar_toLower d
      _ = true := htoken d hd
  · cases haccepts

/-- At some place of some text there is a word that is accepted as the keyword. -/
def CanBeTyped (n : Node Source Value) : Prop :=
  ∃ text position r, (Reader.ofChars text).moveTo position = .ok r
    ∧ n.acceptsLiteral (String.ofList r.word.1) = true

theorem canBeTyped_iff (hkind : n.isLiteral = true) : n.CanBeTyped ↔ n.Spellable := by
  constructor
  · rintro ⟨text, position, r, -, haccepts⟩ -
    apply isWordChar_of_acceptsLiteral haccepts
    intro c hc
    rw [String.toList_ofList] at hc
    exact List.mem_takeWhile_imp hc
  · intro hspell
    have hend : Text.Stops Reader.isWordChar [] := fun c hc => by cases hc
    obtain ⟨hword, -⟩ := Reader.word_ofChars_between [] (hspell hkind) hend
    refine ⟨_, _, _, Reader.moveTo_between [] n.name.toList [], ?_⟩
    rw [hword, String.ofList_toList]
    exact acceptsLiteral_name hkind

/-- **A keyword can be typed exactly if its name is made of characters of a word.** So validation
refuses the keywords that no input reaches. Where the name of another one stands behind any text and
does not go on, it is the word that is read there, and it is accepted. -/
theorem keyword_canBeTyped_iff (hkind : n.isLiteral = true) :
    (n.name.toList.all Reader.isWordChar = true ↔ n.CanBeTyped)
      ∧ (¬ n.NameBlank → ∀ above,
        ownFault? above n = some (.unreadableLiteral (above ++ [n.name])) ↔ ¬ n.CanBeTyped)
      ∧ (n.name.toList.all Reader.isWordChar = true → ∀ left right : List Char,
        (∀ c ∈ right.head?, Reader.isWordChar c = false) →
        ∃ r, (Reader.ofChars (left ++ n.name.toList ++ right)).moveTo (Text.byteLength left) = .ok r
          ∧ String.ofList r.word.1 = n.name
          ∧ r.word.2.cursor = Text.byteLength (left ++ n.name.toList)
          ∧ n.acceptsLiteral (String.ofList r.word.1) = true) := by
  refine ⟨?_, ?_, ?_⟩
  · rw [canBeTyped_iff hkind, Spellable, List.all_eq_true]
    exact ⟨fun hall _ => hall, fun hspell => hspell hkind⟩
  · intro hnamed above
    rw [canBeTyped_iff hkind, ownFault?_eq_some_iff]
    constructor
    · intro hfault
      cases hfault with
      | unreadableLiteral _ hspell => exact hspell
    · intro hspell
      exact .unreadableLiteral hnamed hspell
  · intro hall left right hright
    obtain ⟨hword, hcursor⟩ :=
      Reader.word_ofChars_between left (List.all_eq_true.mp hall) hright
    refine ⟨_, Reader.moveTo_between left n.name.toList right, ?_, hcursor, ?_⟩
    · rw [hword, String.ofList_toList]
    · rw [hword, String.ofList_toList]
      exact acceptsLiteral_name hkind

/-- A keyword in any case is read behind other text; one with a space in its name never is. -/
theorem keyword_canBeTyped_iff_twoKeywords :
    (∃ r, (Reader.ofString "é Time!").moveTo 3 = .ok r
        ∧ (⟨.literal "Time" false, []⟩ : Node Unit ArgumentValue).acceptsLiteral
          (String.ofList r.word.1) = true)
      ∧ ¬ (⟨.literal "set time" false, []⟩ : Node Unit ArgumentValue).CanBeTyped := by
  have hplain := keyword_canBeTyped_iff (n := (⟨.literal "Time" false, []⟩ : Node Unit ArgumentValue)) rfl
  have hspaced :=
    keyword_canBeTyped_iff (n := (⟨.literal "set time" false, []⟩ : Node Unit ArgumentValue)) rfl
  constructor
  · have hmark : ∀ c ∈ ['!'].head?, Reader.isWordChar c = false := fun c hc => by cases hc; rfl
    obtain ⟨r, hr, -, -, haccepts⟩ := hplain.2.2 (by decide) ['é', ' '] ['!'] hmark
    exact ⟨r, hr, haccepts⟩
  · intro htyped
    have hall := hspaced.1.mpr htyped
    revert hall
    decide

end Node

end CommandGrammar
