import CommandGrammar.Proofs.Text.Runs
import CommandGrammar.Text.Blank

/-!
# What trimming leaves

Blanks that stand around a text without blanks at its ends can be cut off in one way only. That text
is what trimming leaves, so to trim it once more changes nothing.
-/

namespace CommandGrammar.Text

/-- No blank stands at either end. -/
structure Trimmed (text : List Char) : Prop where
  first : ∀ c ∈ text.head?, isBlank c = false
  last : ∀ c ∈ text.getLast?, isBlank c = false

/-- Nothing but blanks stands around the core, and none of them belongs to it. -/
def TrimsTo (text core : List Char) : Prop :=
  Trimmed core ∧ ∃ left right, text = left ++ core ++ right
    ∧ (∀ c ∈ left, isBlank c = true) ∧ ∀ c ∈ right, isBlank c = true

variable {text core : List Char}

theorem Trimmed.stops_reverse (h : Trimmed core) : Stops isBlank core.reverse := by
  intro c hc
  rw [List.head?_reverse] at hc
  exact h.last c hc

theorem trimRight_append (text : List Char) :
    ∃ right, text = trimRight text ++ right ∧ ∀ c ∈ right, isBlank c = true := by
  refine ⟨(text.reverse.takeWhile isBlank).reverse, ?_, ?_⟩
  · rw [trimRight, ← List.reverse_append, List.takeWhile_append_dropWhile, List.reverse_reverse]
  · intro c hc
    exact List.all_eq_true.mp List.all_takeWhile c (List.mem_reverse.mp hc)

theorem trimsTo_trim (text : List Char) : TrimsTo text (trim text) := by
  obtain ⟨right, hright, hblank⟩ := trimRight_append (text.dropWhile isBlank)
  have hstart : ∀ c ∈ text.takeWhile isBlank, isBlank c = true :=
    List.all_eq_true.mp List.all_takeWhile
  refine ⟨⟨?_, ?_⟩, text.takeWhile isBlank, right, ?_, hstart, hblank⟩
  · -- the first character is the one at which the blanks in front end
    intro c hc
    apply stops_dropWhile isBlank text c
    rw [trim] at hc
    rw [hright, List.head?_append, Option.mem_def.mp hc]
    rfl
  · intro c hc
    apply stops_dropWhile isBlank (text.dropWhile isBlank).reverse c
    rwa [trim, trimRight, List.getLast?_reverse] at hc
  · rw [trim, List.append_assoc, ← hright, List.takeWhile_append_dropWhile]

theorem TrimsTo.trim_eq (h : TrimsTo text core) : trim text = core := by
  obtain ⟨htrimmed, left, right, rfl, hleft, hright⟩ := h
  cases core with
  | nil =>
      rw [trim_eq_nil_iff, List.append_nil]
      exact List.forall_mem_append.mpr ⟨hleft, hright⟩
  | cons c core =>
      have hfront : Stops isBlank (c :: core ++ right) := stops_cons (htrimmed.first c rfl) _
      have hback : ∀ c ∈ right.reverse, isBlank c = true := fun c hc =>
        hright c (List.mem_reverse.mp hc)
      rw [trim, List.append_assoc, List.dropWhile_append_of_pos hleft, hfront.dropWhile_eq_self,
        trimRight, List.reverse_append, List.dropWhile_append_of_pos hback,
        htrimmed.stops_reverse.dropWhile_eq_self, List.reverse_reverse]

/-- Trimming leaves the one text that can be left. -/
theorem trim_eq_iff : trim text = core ↔ TrimsTo text core := by
  constructor
  · rintro rfl
    exact trimsTo_trim text
  · exact TrimsTo.trim_eq

theorem Trimmed.trim_eq_self (h : Trimmed text) : trim text = text :=
  trim_eq_iff.mpr ⟨h, [], [], by rw [List.nil_append, List.append_nil],
    List.forall_mem_nil _, List.forall_mem_nil _⟩

end CommandGrammar.Text
