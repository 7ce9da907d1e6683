import CommandGrammar.Reader.Basic

/-!
# Words of a text

Spaces and words are read by turns until there is no word.
-/

namespace CommandGrammar.Reader

theorem length_after_skipSpaces_le (r : Reader) : r.skipSpaces.after.length ≤ r.after.length := by
  simp [skipSpaces, advance]

theorem length_after_word_lt {r : Reader} (h : r.word.1 ≠ []) :
    r.word.2.after.length < r.after.length := by
  have hpos : 0 < (r.after.takeWhile isWordChar).length := List.length_pos_iff.mpr h
  have hle := (List.takeWhile_prefix isWordChar (l := r.after)).length_le
  simp only [word, advance, List.length_drop]
  omega

/-- The words from the cursor on, and the reader behind them. -/
def words (r : Reader) : List (List Char) × Reader :=
  if _h : r.skipSpaces.word.1 = [] then ([], r.skipSpaces)
  else
    let rest := words r.skipSpaces.word.2
    (r.skipSpaces.word.1 :: rest.1, rest.2)
termination_by r.after.length
decreasing_by
  have := length_after_skipSpaces_le r
  have := length_after_word_lt _h
  omega

end CommandGrammar.Reader
