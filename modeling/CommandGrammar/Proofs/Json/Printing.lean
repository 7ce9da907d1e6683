import CommandGrammar.Json.Decoding
import CommandGrammar.Proofs.Json.Grammar

/-!
# Reading back data

Written on one line or on many, data is read back as one and the same tree of values. Integers have
to fit in 64 bits for this, and floating-point numbers have to be written as numbers.
-/

namespace CommandGrammar.Data

open Json

mutual

/-- What the text of the data is read as. -/
def reading : Data → Reading
  | bool value => .bool value
  | integer value => .number (.ok (Numeral.ofInt value))
  | single value => (read (singleLayout.render value)).1
  | double value => (read (doubleLayout.render value)).1
  | text value => .string (.ok value)
  | list items => .array (readingItems items) none
  | record fields => .object (readingFields fields) none

def readingItems : List Data → List Reading
  | [] => []
  | item :: items => item.reading :: readingItems items

def readingFields : List (String × Data) → List (Except Fault String × Reading)
  | [] => []
  | (name, value) :: fields => (.ok name, value.reading) :: readingFields fields

end

mutual

/-- Every number in the data is written as one that can be read. -/
def Readable : Data → Prop
  | bool _ => True
  | integer value => -(twoTo 63 : Int) ≤ value ∧ value ≤ greatestNatural
  | single value => ∃ n, read (singleLayout.render value) = (.number n, none)
  | double value => ∃ n, read (doubleLayout.render value) = (.number n, none)
  | text _ => True
  | list items => ReadableItems items
  | record fields => ReadableFields fields

def ReadableItems : List Data → Prop
  | [] => True
  | item :: items => item.Readable ∧ ReadableItems items

def ReadableFields : List (String × Data) → Prop
  | [] => True
  | (_, value) :: fields => value.Readable ∧ ReadableFields fields

end

mutual

/-- How deep lists and records stand in one another. -/
def nesting : Data → Nat
  | bool _ => 0
  | integer _ => 0
  | single _ => 0
  | double _ => 0
  | text _ => 0
  | list items => nestingItems items + 1
  | record fields => nestingFields fields + 1

def nestingItems : List Data → Nat
  | [] => 0
  | item :: items => max item.nesting (nestingItems items)

def nestingFields : List (String × Data) → Nat
  | [] => 0
  | (_, value) :: fields => max value.nesting (nestingFields fields)

end

/-! ### Fields of a record -/

section Fields

variable {α : Type} {name : String} {field : String × Data} {fields : List (String × Data)}

theorem readableFields_iff : ReadableFields fields ↔ ∀ field ∈ fields, field.2.Readable := by
  induction fields with
  | nil => simp [ReadableFields]
  | cons first fields ih => rw [ReadableFields, ih, List.forall_mem_cons]

theorem nestingFields_le_iff {depth : Nat} :
    nestingFields fields ≤ depth ↔ ∀ field ∈ fields, field.2.nesting ≤ depth := by
  induction fields with
  | nil => simp [nestingFields]
  | cons first fields ih => rw [nestingFields, Nat.max_le, ih, List.forall_mem_cons]

theorem nestingFields_append (more : List (String × Data)) :
    nestingFields (fields ++ more) = max (nestingFields fields) (nestingFields more) := by
  induction fields with
  | nil => rw [List.nil_append, nestingFields, Nat.zero_max]
  | cons first fields ih => rw [List.cons_append, nestingFields, nestingFields, ih, Nat.max_assoc]

theorem mem_optional_iff {encode : α → Data} {value : Option α} :
    field ∈ optional name encode value ↔ ∃ x, value = some x ∧ field = (name, encode x) := by
  cases value <;> simp [optional]

theorem mem_nonEmpty_iff {items : List Data} :
    field ∈ nonEmpty name items ↔ items ≠ [] ∧ field = (name, list items) := by
  cases items <;> simp [nonEmpty]

end Fields

theorem reads_of_exists_number {text : List Char} (h : ∃ n, read text = (.number n, none)) :
    Reads text (read text).1 := by
  obtain ⟨n, hn⟩ := h
  rw [hn]
  exact reads_of_read_eq_number hn

/-! ### On one line -/

mutual

theorem reads_compact : ∀ d : Data, d.Readable → Reads d.compact d.reading
  | bool value, _ => by
    rw [reading]
    exact reads_bool value
  | integer value, h => by
    rw [Readable] at h
    rw [compact, reading]
    exact reads_ofInt h.1 h.2
  | single value, h => by
    rw [Readable] at h
    rw [compact, reading]
    exact reads_of_exists_number h
  | double value, h => by
    rw [Readable] at h
    rw [compact, reading]
    exact reads_of_exists_number h
  | text value, _ => by
    rw [compact, reading]
    exact reads_quote value
  | list [], _ => by
    rw [compact, reading, readingItems]
    exact reads_emptyArray
  | list (item :: items), h => by
    rw [Readable, ReadableItems] at h
    rw [compact, reading, readingItems]
    exact reads_array blank_nil (reads_compact item h.1) (readsItems_compact items h.2)
  | record [], _ => by
    rw [compact, reading, readingFields]
    exact reads_emptyObject
  | record ((name, value) :: fields), h => by
    rw [Readable, ReadableFields] at h
    rw [compact, reading, readingFields]
    have hobject := reads_object name blank_nil blank_nil (reads_compact value h.1)
      (readsMembers_compact fields h.2)
    simpa only [List.append_assoc, List.cons_append, List.nil_append] using hobject

theorem readsItems_compact :
    ∀ items : List Data, ReadableItems items → ReadsItems (compactItems items) (readingItems items)
  | [], _ => by
    rw [compactItems, readingItems]
    exact readsItems_close blank_nil
  | item :: items, h => by
    rw [ReadableItems] at h
    rw [compactItems, readingItems]
    exact readsItems_next blank_nil (reads_compact item h.1) (readsItems_compact items h.2)

theorem readsMembers_compact :
    ∀ fields : List (String × Data), ReadableFields fields →
      ReadsMembers (compactFields fields) (readingFields fields)
  | [], _ => by
    rw [compactFields, readingFields]
    exact readsMembers_close blank_nil
  | (name, value) :: fields, h => by
    rw [ReadableFields] at h
    rw [compactFields, readingFields]
    have hmembers := readsMembers_next name blank_nil blank_nil (reads_compact value h.1)
      (readsMembers_compact fields h.2)
    simpa only [List.append_assoc, List.cons_append, List.nil_append] using hmembers

end

/-! ### On many lines -/

theorem blank_newLine (depth : Nat) : Blank (newLine depth) := by
  intro c hc
  rcases List.mem_cons.mp hc with rfl | hc
  · rfl
  · rw [List.eq_of_mem_replicate hc]
    rfl

theorem blank_space : Blank [' '] := by
  intro c hc
  rw [List.mem_singleton.mp hc]
  rfl

mutual

theorem reads_prettyAt (depth : Nat) : ∀ d : Data, d.Readable → Reads (d.prettyAt depth) d.reading
  | bool value, h => by
    rw [prettyAt]
    exact reads_compact (bool value) h
  | integer value, h => by
    rw [prettyAt]
    exact reads_compact (integer value) h
  | single value, h => by
    rw [prettyAt]
    exact reads_compact (single value) h
  | double value, h => by
    rw [prettyAt]
    exact reads_compact (double value) h
  | text value, h => by
    rw [prettyAt]
    exact reads_compact (text value) h
  | list [], _ => by
    rw [prettyAt, reading, readingItems]
    exact reads_emptyArray
  | list (item :: items), h => by
    rw [Readable, ReadableItems] at h
    rw [prettyAt, reading, readingItems]
    have hitem := reads_prettyAt (depth + 1) item h.1
    exact reads_array (blank_newLine (depth + 1)) hitem (readsItems_prettyItems depth items h.2)
  | record [], _ => by
    rw [prettyAt, reading, readingFields]
    exact reads_emptyObject
  | record ((name, value) :: fields), h => by
    rw [Readable, ReadableFields] at h
    rw [prettyAt, reading, readingFields]
    have hobject := reads_object name (blank_newLine (depth + 1)) blank_space
      (reads_prettyAt (depth + 1) value h.1) (readsMembers_prettyFields depth fields h.2)
    simpa only [List.append_assoc, List.cons_append, List.nil_append] using hobject

theorem readsItems_prettyItems (depth : Nat) :
    ∀ items : List Data, ReadableItems items →
      ReadsItems (prettyItems depth items) (readingItems items)
  | [], _ => by
    rw [prettyItems, readingItems]
    exact readsItems_close (blank_newLine depth)
  | item :: items, h => by
    rw [ReadableItems] at h
    rw [prettyItems, readingItems]
    have hitem := reads_prettyAt (depth + 1) item h.1
    exact readsItems_next (blank_newLine (depth + 1)) hitem (readsItems_prettyItems depth items h.2)

theorem readsMembers_prettyFields (depth : Nat) :
    ∀ fields : List (String × Data), ReadableFields fields →
      ReadsMembers (prettyFields depth fields) (readingFields fields)
  | [], _ => by
    rw [prettyFields, readingFields]
    exact readsMembers_close (blank_newLine depth)
  | (name, value) :: fields, h => by
    rw [ReadableFields] at h
    rw [prettyFields, readingFields]
    have hmembers := readsMembers_next name (blank_newLine (depth + 1)) blank_space
      (reads_prettyAt (depth + 1) value h.1) (readsMembers_prettyFields depth fields h.2)
    simpa only [List.append_assoc, List.cons_append, List.nil_append] using hmembers

end

/-- For the lines of a record it is enough that those of its first value can be read. -/
theorem reads_record (depth : Nat) (name : String) {value : Data} {fields : List (String × Data)}
    (hvalue : Reads (value.prettyAt (depth + 1)) value.reading) (hfields : ReadableFields fields) :
    Reads ((record ((name, value) :: fields)).prettyAt depth)
      (record ((name, value) :: fields)).reading := by
  rw [prettyAt, reading, readingFields]
  have hobject := reads_object name (blank_newLine (depth + 1)) blank_space hvalue
    (readsMembers_prettyFields depth fields hfields)
  simpa only [List.append_assoc, List.cons_append, List.nil_append] using hobject

/-- **Reading back.** Either text of readable data is read as the data, with nothing behind it. -/
theorem read_compact_and_pretty {d : Data} (h : d.Readable) :
    read d.compact = (d.reading, none) ∧ read d.pretty = (d.reading, none) :=
  ⟨read_of_reads (reads_compact d h), read_of_reads (reads_prettyAt 0 d h)⟩

/-- Either text is decoded as the reading of the data is. -/
theorem decode_compact_and_pretty {α : Type} {d : Data} (h : d.Readable)
    (decodeValue : Reading → Except Error α) :
    decode decodeValue d.compact = decodeValue d.reading
      ∧ decode decodeValue d.pretty = decodeValue d.reading := by
  obtain ⟨hcompact, hpretty⟩ := read_compact_and_pretty h
  have hdecode : ∀ text, read text = (d.reading, none) →
      decode decodeValue text = decodeValue d.reading := by
    intro text htext
    rw [decode, htext]
    cases hvalue : decodeValue d.reading <;> simp only [hvalue] <;> rfl
  exact ⟨hdecode _ hcompact, hdecode _ hpretty⟩

end CommandGrammar.Data
