import CommandGrammar.Proofs.Reader.Agreement
import CommandGrammar.Proofs.Reader.Context
import CommandGrammar.Reader.Words

/-!
# Words and the gaps between them

Spaces and characters of words are different characters. So a loop that skips spaces and reads a
word by turns hands over from the one to the other at every end of a gap or of a word, and finds the
words that were put together with gaps between them. Each of its rounds but the last takes a
character.
-/

namespace CommandGrammar

/-! ### Rounds -/

namespace ByteReader

/-- The loop for at most so many rounds, with nothing if they are not enough. It ends with the first
round that finds no word. -/
def wordsWithin : Nat → ByteReader → Except Fault (Option (List (List Char) × ByteReader))
  | 0, _ => .ok none
  | rounds + 1, b => do
    let s ← b.skipSpaces
    let (w, s) ← s.word
    if w = [] then return some ([], s)
    else
      let more ← wordsWithin rounds s
      return more.map fun (words, last) => (w :: words, last)

end ByteReader

namespace Reader

variable {r : Reader}

theorem word_of_eq_nil (h : r.word.1 = []) : r.word = ([], r) := by
  have hrun : r.after.takeWhile isWordChar = [] := h
  rw [word, hrun, List.length_nil, advance_zero]

theorem words_of_word_eq_nil (h : r.skipSpaces.word.1 = []) : r.words = ([], r.skipSpaces) := by
  rw [words, dif_pos h]

theorem words_of_word_ne_nil (h : r.skipSpaces.word.1 ≠ []) :
    r.words
      = (r.skipSpaces.word.1 :: r.skipSpaces.word.2.words.1, r.skipSpaces.word.2.words.2) := by
  rw [words, dif_neg h]

theorem skipSpaces_bytes (r : Reader) : r.bytes.skipSpaces = .ok r.skipSpaces.bytes :=
  r.skipWhile_bytes isSpace

/-- The loop needs a round for each word and one more. -/
theorem wordsWithin_bytes (rounds : Nat) (r : Reader) :
    r.bytes.wordsWithin rounds
      = .ok (if r.words.1.length < rounds then some (r.words.1, r.words.2.bytes) else none) := by
  induction rounds generalizing r with
  | zero => rfl
  | succ rounds ih =>
      rw [ByteReader.wordsWithin, skipSpaces_bytes, ok_bind, word_bytes, ok_bind]
      by_cases h : r.skipSpaces.word.1 = []
      · rw [words_of_word_eq_nil h, word_of_eq_nil h]
        rfl
      · rw [words_of_word_ne_nil h]
        simp only [if_neg h, ih, ok_bind, List.length_cons, Nat.succ_lt_succ_iff]
        split <;> rfl

/-- Each word has a character of its own. -/
theorem length_words_le (r : Reader) : r.words.1.length ≤ r.after.length := by
  induction r using words.induct with
  | case1 r h =>
      rw [words_of_word_eq_nil h]
      exact Nat.zero_le _
  | case2 r h ih =>
      have hskip := length_after_skipSpaces_le r
      have hword := length_after_word_lt h
      rw [words_of_word_ne_nil h, List.length_cons]
      omega

/-! ### One gap and one word -/

section

variable (before : List Char) {gap w rest : List Char}

theorem advance_length (before left right : List Char) :
    (⟨before, left ++ right⟩ : Reader).advance left.length = ⟨left.reverse ++ before, right⟩ := by
  rw [advance, List.take_left, List.drop_left]

theorem skipSpaces_append (hgap : ∀ c ∈ gap, isSpace c = true) (hrest : Text.Stops isSpace rest) :
    (⟨before, gap ++ rest⟩ : Reader).skipSpaces = ⟨gap.reverse ++ before, rest⟩ := by
  have hrun : (gap ++ rest).takeWhile isSpace = gap := by
    rw [List.takeWhile_append_of_pos hgap, hrest.takeWhile_eq_nil, List.append_nil]
  rw [skipSpaces, hrun, advance_length]

theorem word_append (hw : ∀ c ∈ w, isWordChar c = true) (hrest : Text.Stops isWordChar rest) :
    (⟨before, w ++ rest⟩ : Reader).word = (w, ⟨w.reverse ++ before, rest⟩) := by
  have hrun : (w ++ rest).takeWhile isWordChar = w := by
    rw [List.takeWhile_append_of_pos hw, hrest.takeWhile_eq_nil, List.append_nil]
  rw [word]
  simp only [hrun, advance_length]

end

/-- The rest is a gap and what the gap stops at. -/
theorem exists_skipSpaces_eq (r : Reader) : ∃ gap rest, r.after = gap ++ rest
    ∧ r.skipSpaces = ⟨gap.reverse ++ r.before, rest⟩
    ∧ (∀ c ∈ gap, isSpace c = true) ∧ Text.Stops isSpace rest := by
  obtain ⟨before, after⟩ := r
  have hgap : ∀ c ∈ after.takeWhile isSpace, isSpace c = true :=
    List.all_eq_true.mp List.all_takeWhile
  have hrest := Text.stops_dropWhile isSpace after
  have hskip := skipSpaces_append before hgap hrest
  have hsplit : after.takeWhile isSpace ++ after.dropWhile isSpace = after :=
    List.takeWhile_append_dropWhile
  rw [hsplit] at hskip
  exact ⟨_, _, hsplit.symm, hskip, hgap, hrest⟩

theorem exists_word_eq (r : Reader) : ∃ rest, r.after = r.word.1 ++ rest
    ∧ r.word.2 = ⟨r.word.1.reverse ++ r.before, rest⟩
    ∧ (∀ c ∈ r.word.1, isWordChar c = true) ∧ Text.Stops isWordChar rest := by
  obtain ⟨before, after⟩ := r
  have hword : ∀ c ∈ after.takeWhile isWordChar, isWordChar c = true :=
    List.all_eq_true.mp List.all_takeWhile
  have hrest := Text.stops_dropWhile isWordChar after
  have hread := word_append before hword hrest
  have hsplit : after.takeWhile isWordChar ++ after.dropWhile isWordChar = after :=
    List.takeWhile_append_dropWhile
  rw [hsplit] at hread
  exact ⟨_, hsplit.symm, congrArg Prod.snd hread, hword, hrest⟩

/-! ### Where the words end -/

/-- The loop takes spaces and characters of words, and ends where there is neither. -/
theorem exists_words_eq (r : Reader) : ∃ left right, r.after = left ++ right
    ∧ r.words.2 = ⟨left.reverse ++ r.before, right⟩
    ∧ (∀ c ∈ left, isSpace c = true ∨ isWordChar c = true)
    ∧ Text.Stops isSpace right ∧ Text.Stops isWordChar right := by
  induction r using words.induct with
  | case1 r h =>
      obtain ⟨gap, rest, hafter, hskip, hgap, hrest⟩ := exists_skipSpaces_eq r
      rw [words_of_word_eq_nil h]
      refine ⟨gap, rest, hafter, hskip, fun c hc => .inl (hgap c hc), hrest, ?_⟩
      rw [hskip] at h
      exact Text.stops_of_takeWhile_eq_nil h
  | case2 r h ih =>
      obtain ⟨gap, rest, hafter, hskip, hgap, -⟩ := exists_skipSpaces_eq r
      obtain ⟨rest', hafter', hplace, hword, -⟩ := exists_word_eq r.skipSpaces
      obtain ⟨left, right, hsplit, hend, hleft, hright⟩ := ih
      have hrest : rest = r.skipSpaces.word.1 ++ rest' := by
        rw [← hafter', hskip]
      have hbefore : r.skipSpaces.before = gap.reverse ++ r.before := by
        rw [hskip]
      have hbehind : rest' = left ++ right := by
        rw [← hsplit, hplace]
      rw [words_of_word_ne_nil h]
      refine ⟨gap ++ (r.skipSpaces.word.1 ++ left), right, ?_, ?_, ?_, hright⟩
      · rw [hafter, hrest, hbehind, List.append_assoc, List.append_assoc]
      · rw [hend, hplace, hbefore]
        simp only [List.reverse_append, List.append_assoc]
      · intro c hc
        rcases List.mem_append.mp hc with hc | hc
        · exact .inl (hgap c hc)
        · rcases List.mem_append.mp hc with hc | hc
          · exact .inr (hword c hc)
          · exact hleft c hc

end Reader

/-! ### Words put together -/

/-- A word and the gap in front of it. -/
structure GappedWord where
  gap : List Char
  word : List Char

namespace GappedWord

def spell (ws : List GappedWord) : List Char := ws.flatMap fun w => w.gap ++ w.word

theorem spell_cons (w : GappedWord) (ws : List GappedWord) :
    spell (w :: ws) = w.gap ++ (w.word ++ spell ws) := by
  rw [spell, List.flatMap_cons, List.append_assoc, spell]

/-- The words are words, the gaps are of white space, and none but the first is empty. -/
structure Separated (ws : List GappedWord) : Prop where
  words : ∀ w ∈ ws, w.word ≠ [] ∧ ∀ c ∈ w.word, Reader.isWordChar c = true
  gaps : ∀ w ∈ ws, ∀ c ∈ w.gap, c ∈ [' ', '\t', '\n', '\r']
  between : ∀ w ∈ ws.tail, w.gap ≠ []

theorem Separated.tail {w : GappedWord} {ws : List GappedWord} (h : Separated (w :: ws)) :
    Separated ws where
  words v hv := h.words v (.tail w hv)
  gaps v hv := h.gaps v (.tail w hv)
  between v hv := h.between v (List.mem_of_mem_tail hv)

end GappedWord

namespace Reader

variable {ws : List GappedWord} {trail : List Char}

theorem isSpace_iff {c : Char} : isSpace c = true ↔ c ∈ [' ', '\t', '\n', '\r'] := by
  simp [isSpace, or_assoc]

theorem isSpace_of_isWordChar {c : Char} (h : isWordChar c = true) : isSpace c = false := by
  refine Bool.eq_false_iff.mpr fun hspace => ?_
  rw [isWordChar_of_isSpace hspace] at h
  cases h

theorem stops_isWordChar_append {gap : List Char} (hgap : ∀ c ∈ gap, isSpace c = true)
    (hne : gap ≠ []) (rest : List Char) : Text.Stops isWordChar (gap ++ rest) := by
  obtain ⟨c, gap, rfl⟩ := List.exists_cons_of_ne_nil hne
  exact Text.stops_cons (isWordChar_of_isSpace (hgap c List.mem_cons_self)) _

/-- A word ends where the next gap starts, or the text behind the last word. -/
theorem stops_spell (hws : GappedWord.Separated ws) (hgaps : ∀ w ∈ ws, w.gap ≠ [])
    (htrail : ∀ c ∈ trail, isSpace c = true) :
    Text.Stops isWordChar (GappedWord.spell ws ++ trail) := by
  cases ws with
  | nil =>
      cases trail with
      | nil => exact Text.stops_nil
      | cons c trail => exact stops_isWordChar_append htrail (List.cons_ne_nil c trail) []
  | cons w ws =>
      have hgap : ∀ c ∈ w.gap, isSpace c = true := fun c hc =>
        isSpace_iff.mpr (hws.gaps w List.mem_cons_self c hc)
      rw [GappedWord.spell_cons, List.append_assoc]
      exact stops_isWordChar_append hgap (hgaps w List.mem_cons_self) _

theorem words_spell (hws : GappedWord.Separated ws) (htrail : ∀ c ∈ trail, isSpace c = true)
    (before : List Char) :
    (⟨before, GappedWord.spell ws ++ trail⟩ : Reader).words
      = (ws.map GappedWord.word, ⟨(GappedWord.spell ws ++ trail).reverse ++ before, []⟩) := by
  induction ws generalizing before with
  | nil =>
      have hskip := skipSpaces_append before htrail Text.stops_nil
      rw [List.append_nil] at hskip
      have hnone : (⟨before, trail⟩ : Reader).skipSpaces.word.1 = [] := by rw [hskip]; rfl
      exact (words_of_word_eq_nil hnone).trans (congrArg (Prod.mk []) hskip)
  | cons w ws ih =>
      obtain ⟨hne, hword⟩ := hws.words w List.mem_cons_self
      have hgap : ∀ c ∈ w.gap, isSpace c = true := fun c hc =>
        isSpace_iff.mpr (hws.gaps w List.mem_cons_self c hc)
      have hbehindGap : Text.Stops isSpace (w.word ++ (GappedWord.spell ws ++ trail)) := by
        obtain ⟨c, word, hcons⟩ := List.exists_cons_of_ne_nil hne
        rw [hcons]
        exact Text.stops_cons (isSpace_of_isWordChar (hword c (hcons ▸ List.mem_cons_self))) _
      have hbehindWord := stops_spell hws.tail hws.between htrail
      have hread : (⟨before, GappedWord.spell (w :: ws) ++ trail⟩ : Reader).skipSpaces.word
          = (w.word,
            ⟨w.word.reverse ++ (w.gap.reverse ++ before), GappedWord.spell ws ++ trail⟩) := by
        rw [GappedWord.spell_cons, List.append_assoc, List.append_assoc,
          skipSpaces_append before hgap hbehindGap]
        exact word_append _ hword hbehindWord
      rw [words_of_word_ne_nil (by rw [hread]; exact hne), hread, ih hws.tail]
      simp only [GappedWord.spell_cons, List.reverse_append, List.append_assoc, List.map_cons]

/-- **Words are found as they were put together.** Words with white space between them, and with or
without some in front and behind, are all found in order, and the cursor ends behind the text. On
any text the loop ends, with a round for each word and one more, at the first character that is
neither white space nor part of a word. -/
theorem words_undo_spelling :
    (∀ (ws : List GappedWord) (trail : List Char), GappedWord.Separated ws →
      (∀ c ∈ trail, c ∈ [' ', '\t', '\n', '\r']) →
        (ofChars (GappedWord.spell ws ++ trail)).words.1 = ws.map GappedWord.word
        ∧ (ofChars (GappedWord.spell ws ++ trail)).words.2.cursor
          = Text.byteLength (GappedWord.spell ws ++ trail))
    ∧ ∀ text : List Char,
      (∀ rounds, ByteReader.wordsWithin rounds ⟨text, 0⟩
        = .ok (if (ofChars text).words.1.length < rounds
          then some ((ofChars text).words.1, (ofChars text).words.2.bytes) else none))
      ∧ (ofChars text).words.1.length ≤ text.length
      ∧ ∃ left right, text = left ++ right ∧ (ofChars text).words.2 = ⟨left.reverse, right⟩
        ∧ (∀ c ∈ left, isSpace c = true ∨ isWordChar c = true)
        ∧ ∀ c ∈ right.head?, isSpace c = false ∧ isWordChar c = false := by
  constructor
  · intro ws trail hws htrail
    have hread := words_spell hws (fun c hc => isSpace_iff.mpr (htrail c hc)) []
    rw [ofChars, hread, cursor, List.append_nil, Text.byteLength_reverse]
    exact ⟨rfl, rfl⟩
  · intro text
    have hrounds := fun rounds => wordsWithin_bytes rounds (ofChars text)
    refine ⟨hrounds, length_words_le (ofChars text), ?_⟩
    obtain ⟨left, right, hsplit, hend, hleft, hspace, hword⟩ := exists_words_eq (ofChars text)
    refine ⟨left, right, hsplit, ?_, hleft, fun c hc => ⟨hspace c hc, hword c hc⟩⟩
    rw [hend, ofChars, List.append_nil]

def giveTwelve : List GappedWord := [⟨[], "give".toList⟩, ⟨['\r', '\n', ' '], "-12".toList⟩]

theorem separated_giveTwelve : GappedWord.Separated giveTwelve where
  words := by
    refine List.forall_mem_cons.mpr ⟨?_, List.forall_mem_singleton.mpr ?_⟩
    · exact ⟨by decide, List.all_eq_true.mp (by decide)⟩
    · exact ⟨by decide, List.all_eq_true.mp (by decide)⟩
  gaps := by
    refine List.forall_mem_cons.mpr ⟨List.forall_mem_nil _, List.forall_mem_singleton.mpr ?_⟩
    simp
  between := by decide

/-- Two words are found in three rounds, and not in two. -/
theorem words_undo_spelling_giveTwelve :
    GappedWord.spell giveTwelve ++ ['\t'] = "give\r\n -12\t".toList
      ∧ ByteReader.wordsWithin 2 ⟨GappedWord.spell giveTwelve ++ ['\t'], 0⟩ = .ok none
      ∧ ByteReader.wordsWithin 3 ⟨GappedWord.spell giveTwelve ++ ['\t'], 0⟩
        = .ok (some (["give".toList, "-12".toList],
          ⟨GappedWord.spell giveTwelve ++ ['\t'], 11⟩)) := by
  obtain ⟨hwords, hcursor⟩ :=
    words_undo_spelling.1 giveTwelve ['\t'] separated_giveTwelve (by simp)
  obtain ⟨hrounds, -, left, right, hsplit, hend, -⟩ :=
    words_undo_spelling.2 (GappedWord.spell giveTwelve ++ ['\t'])
  have htext : (ofChars (GappedWord.spell giveTwelve ++ ['\t'])).words.2.text
      = GappedWord.spell giveTwelve ++ ['\t'] := by
    rw [hend, text, consumed, remaining, List.reverse_reverse, ← hsplit]
  refine ⟨by decide, ?_, ?_⟩
  · rw [hrounds, hwords]
    rfl
  · rw [hrounds, bytes, hwords, htext, hcursor]
    rfl

end Reader

end CommandGrammar
