import CommandGrammar.Proofs.Json.Printing

/-!
# How deep a text is nested

Lists and objects of a text stand in one another as deep as those of the data that was written, line
feeds at the end or not.
-/

namespace CommandGrammar

namespace Json.Reading

mutual

/-- How deep lists and objects stand in one another. -/
def nesting : Reading → Nat
  | null => 0
  | bool _ => 0
  | number _ => 0
  | string _ => 0
  | array items _ => nestingItems items + 1
  | object members _ => nestingMembers members + 1
  | broken _ => 0

def nestingItems : List Reading → Nat
  | [] => 0
  | item :: items => max item.nesting (nestingItems items)

def nestingMembers : List (Except Fault String × Reading) → Nat
  | [] => 0
  | (_, value) :: members => max value.nesting (nestingMembers members)

end

end Json.Reading

namespace Data

open Json

mutual

theorem nesting_reading : ∀ d : Data, d.Readable → d.reading.nesting = d.nesting
  | bool value, _ => by rw [reading, Reading.nesting, nesting]
  | integer value, _ => by rw [reading, Reading.nesting, nesting]
  | single value, h => by
    rw [Readable] at h
    obtain ⟨n, hn⟩ := h
    rw [reading, hn, Reading.nesting, nesting]
  | double value, h => by
    rw [Readable] at h
    obtain ⟨n, hn⟩ := h
    rw [reading, hn, Reading.nesting, nesting]
  | text value, _ => by rw [reading, Reading.nesting, nesting]
  | list items, h => by
    rw [Readable] at h
    rw [reading, Reading.nesting, nesting, nestingItems_readingItems items h]
  | record fields, h => by
    rw [Readable] at h
    rw [reading, Reading.nesting, nesting, nestingMembers_readingFields fields h]

theorem nestingItems_readingItems : ∀ items : List Data, ReadableItems items →
    Reading.nestingItems (readingItems items) = nestingItems items
  | [], _ => by rw [readingItems, Reading.nestingItems, nestingItems]
  | item :: items, h => by
    rw [ReadableItems] at h
    rw [readingItems, Reading.nestingItems, nestingItems, nesting_reading item h.1,
      nestingItems_readingItems items h.2]

theorem nestingMembers_readingFields : ∀ fields : List (String × Data), ReadableFields fields →
    Reading.nestingMembers (readingFields fields) = nestingFields fields
  | [], _ => by rw [readingFields, Reading.nestingMembers, nestingFields]
  | (name, value) :: fields, h => by
    rw [ReadableFields] at h
    rw [readingFields, Reading.nestingMembers, nestingFields, nesting_reading value h.1,
      nestingMembers_readingFields fields h.2]

end

theorem blank_lineFeed : Blank ['\n'] := blank_newLine 0

/-- The lines of readable data are read as the data. -/
theorem read_pretty_lineFeed {d : Data} (h : d.Readable) :
    read (d.pretty ++ ['\n']) = (d.reading, none) :=
  read_of_reads ((reads_prettyAt 0 d h).append_blank blank_lineFeed)

end Data

end CommandGrammar
