import CommandGrammar.Argument.Kind
import CommandGrammar.Proofs.Reader.Numerals

/-!
# Tokens are taken whole

A typed read either fails and leaves the reader where it was, or takes a token: at least one
character, and only characters of a word.
-/

namespace CommandGrammar

/-! ### Bytes of a word -/

theorem Reader.utf8Size_of_isWordChar {c : Char} (h : isWordChar c = true) : c.utf8Size = 1 := by
  have hascii : ∀ last : Char, last.val ≤ 127 → c.val ≤ last.val → c.utf8Size = 1 :=
    fun last hlast hle => Char.utf8Size_eq_one_iff.mpr (UInt32.le_trans hle hlast)
  simp only [isWordChar, Char.isAlphanum, Bool.or_eq_true, beq_iff_eq] at h
  rcases h with ((((hletter | hdigit) | rfl) | rfl) | rfl) | rfl
  · rcases Bool.or_eq_true_iff.mp hletter with hupper | hlower
    · have hrange : c.val ≥ 'A'.val ∧ c.val ≤ 'Z'.val := of_decide_eq_true hupper
      exact hascii 'Z' (by decide) hrange.2
    · exact hascii 'z' (by decide) (of_decide_eq_true (Bool.and_eq_true_iff.mp hlower).2)
  · exact hascii '9' (by decide) (of_decide_eq_true (Bool.and_eq_true_iff.mp hdigit).2)
  all_goals rfl

theorem Text.byteLength_of_isWordChar {text : List Char}
    (h : ∀ c ∈ text, Reader.isWordChar c = true) : byteLength text = text.length := by
  induction text with
  | nil => rfl
  | cons c text ih =>
      obtain ⟨hc, htext⟩ := List.forall_mem_cons.mp h
      rw [byteLength_cons, Reader.utf8Size_of_isWordChar hc, ih htext, List.length_cons, Nat.add_comm]

/-! ### Outcomes -/

/-- The results of a read that takes a whole token of the rest or nothing. -/
inductive AllOrNothing {α : Type} (r : Reader) : ReadResult α → Prop where
  | nothing (cause : SyntaxError.Cause) : AllOrNothing r (.error ⟨cause, r⟩, r)
  | all (value : α) {token : List Char} (hnonempty : token ≠ []) (htaken : token <+: r.after)
      (hword : ∀ c ∈ token, Reader.isWordChar c = true) :
      AllOrNothing r (.ok value, r.advance token.length)

namespace AllOrNothing

variable {α β : Type} {r : Reader}

theorem text_eq {result : ReadResult α} (h : AllOrNothing r result) : result.2.text = r.text := by
  cases h with
  | nothing => rfl
  | all => exact Reader.text_advance r _

theorem map {result : ReadResult α} (f : α → β) (h : AllOrNothing r result) :
    AllOrNothing r (result.map f) := by
  cases h with
  | nothing cause => exact .nothing cause
  | all value hnonempty htaken hword => exact .all (f value) hnonempty htaken hword

/-- The word at the cursor is a token unless it is empty. -/
theorem of_word (r : Reader) (value : α) (h : r.word.1 ≠ []) :
    AllOrNothing r (.ok value, r.word.2) :=
  .all value h (List.takeWhile_prefix Reader.isWordChar) fun _ hc => List.mem_takeWhile_imp hc

end AllOrNothing

namespace Reader

theorem number_allOrNothing (α : Type) [Numeric α] [Numeral.LawfulNumeric α] (r : Reader) :
    AllOrNothing r (r.number α) := by
  have hscan := (Numeral.wordScan_numeral α).isScan
  rw [number, Numeral.ofText?_eq]
  by_cases hdigit : (r.after.drop (Numeral.minus r.after).length).head?.any Char.isDigit = true
  · have hnonempty : Numeral.followedBy Numeral.minus (Numeric.body α) r.after ≠ [] := by
      rw [Numeral.LawfulNumeric.body_eq]
      exact List.append_ne_nil_of_right_ne_nil _ (Numeral.bodyOf_ne_nil hdigit)
    rw [if_pos hdigit]
    dsimp only
    split
    · exact .all _ hnonempty (hscan.isPrefix r.after) fun _ hc => hscan.isWordChar hc
    · exact .nothing _
  · rw [if_neg hdigit]
    exact .nothing _

theorem bool_allOrNothing (r : Reader) : AllOrNothing r r.bool := by
  unfold bool
  dsimp only
  split
  · rename_i htrue
    exact .of_word r true (by rw [htrue]; exact List.cons_ne_nil _ _)
  · split
    · rename_i hfalse
      exact .of_word r false (by rw [hfalse]; exact List.cons_ne_nil _ _)
    · exact .nothing _

/-- Behind an empty word the reader has not moved. -/
theorem nonEmptyWord_allOrNothing (r : Reader) : AllOrNothing r r.nonEmptyWord := by
  unfold nonEmptyWord
  dsimp only
  split
  · rename_i hempty
    have hstay : r.word.2 = r := by
      change r.advance r.word.1.length = r
      rw [hempty, List.length_nil, advance_zero]
    rw [hstay]
    exact .nothing _
  · rename_i hword
    exact .of_word r _ hword

end Reader

theorem Range.read_allOrNothing {α : Type} [Numeric α] [Numeral.LawfulNumeric α] (range : Range α)
    (r : Reader) : AllOrNothing r (range.read r) := by
  have hnumber := r.number_allOrNothing α
  unfold read
  generalize r.number α = result at hnumber
  cases hnumber with
  | nothing cause => exact .nothing cause
  | all value hnonempty htaken hword =>
      dsimp only
      split
      · exact .nothing _
      · exact .all value hnonempty htaken hword

theorem ArgumentType.read_allOrNothing (type : ArgumentType) (r : Reader) :
    AllOrNothing r (type.read r) := by
  cases type with
  | integer bounds | long bounds | float bounds | double bounds =>
      exact (bounds.toRange.read_allOrNothing r).map _
  | bool => exact r.bool_allOrNothing.map _
  | word => exact r.nonEmptyWord_allOrNothing.map _

end CommandGrammar
