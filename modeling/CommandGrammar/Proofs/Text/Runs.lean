import Mathlib.Data.List.TakeWhile

/-!
# Runs of characters

The run of characters that pass a test ends where one fails it. What stands behind that place does
not change the run.
-/

namespace CommandGrammar.Text

/-- The text has ended, or its first character fails the test. -/
def Stops (p : Char → Bool) (text : List Char) : Prop := ∀ c ∈ text.head?, p c = false

variable {p q : Char → Bool} {rest : List Char}

theorem stops_nil : Stops p [] := by
  intro c hc
  cases hc

theorem stops_cons {c : Char} (hc : p c = false) (text : List Char) : Stops p (c :: text) := by
  intro d hd
  exact Option.some.inj hd ▸ hc

theorem stops_dropWhile (p : Char → Bool) (text : List Char) : Stops p (text.dropWhile p) := by
  intro c hc
  have hnot := List.head?_dropWhile_not p text
  rw [Option.mem_def.mp hc] at hnot
  exact hnot

theorem stops_of_takeWhile_eq_nil (h : rest.takeWhile p = []) : Stops p rest := by
  have hsplit : rest.takeWhile p ++ rest.dropWhile p = rest := List.takeWhile_append_dropWhile
  rw [h, List.nil_append] at hsplit
  rw [← hsplit]
  exact stops_dropWhile p rest

theorem Stops.mono (h : Stops p rest) (hqp : ∀ c, q c = true → p c = true) : Stops q rest := by
  intro c hc
  refine Bool.eq_false_iff.mpr fun hq => ?_
  have hp := hqp c hq
  rw [h c hc] at hp
  cases hp

theorem Stops.takeWhile_eq_nil (h : Stops p rest) : rest.takeWhile p = [] := by
  cases rest with
  | nil => rfl
  | cons c rest => exact List.takeWhile_cons_of_neg (by simp [h c rfl])

theorem Stops.dropWhile_eq_self (h : Stops p rest) : rest.dropWhile p = rest := by
  cases rest with
  | nil => rfl
  | cons c rest => exact List.dropWhile_cons_of_neg (by simp [h c rfl])

theorem Stops.takeWhile_append (h : Stops p rest) (text : List Char) :
    (text ++ rest).takeWhile p = text.takeWhile p := by
  rw [List.takeWhile_append, h.takeWhile_eq_nil, List.append_nil]
  split
  · rename_i hall
    exact ((List.takeWhile_prefix p).eq_of_length hall).symm
  · rfl

theorem Stops.dropWhile_append (h : Stops p rest) (text : List Char) :
    (text ++ rest).dropWhile p = text.dropWhile p ++ rest := by
  rw [List.dropWhile_append]
  split
  · rename_i hall
    rw [h.dropWhile_eq_self, List.isEmpty_iff.mp hall, List.nil_append]
  · rfl

theorem Stops.any_head?_append (h : Stops p rest) (text : List Char) :
    (text ++ rest).head?.any p = text.head?.any p := by
  cases text with
  | nil =>
      cases rest with
      | nil => rfl
      | cons c rest => exact h c rfl
  | cons c text => rfl

end CommandGrammar.Text
