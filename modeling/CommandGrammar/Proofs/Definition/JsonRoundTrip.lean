import CommandGrammar.Definition.Data
import CommandGrammar.Definition.Json
import CommandGrammar.Proofs.Definition.Compiled
import CommandGrammar.Proofs.Json.Arguments

/-!
# Definitions read back

A definition written as JSON is read back as it was. A field that is left out has its usual value, so
leaving it out loses nothing. The fields that are written are taken one by one, and each of them
changes its own place among those read so far.
-/

namespace CommandGrammar

open Json

namespace NodeDefinition

/-- The floating-point bounds of the definition and of all below it survive one by one. -/
def BoundsSurvive (d : NodeDefinition) : Prop :=
  ∀ e : NodeDefinition, e.Within d → ∀ type, e.argument = some type → type.BoundsSurvive

theorem BoundsSurvive.of_mem {c d : NodeDefinition} (h : d.BoundsSurvive) (hc : c ∈ d.children) :
    c.BoundsSurvive :=
  fun e he => h e (.inChild hc he)

/-- What is read of a definition: the fields that have another than their usual value. -/
def writtenFields (d : NodeDefinition) : Fields where
  name := some d.name
  argument := d.argument.map some
  caseSensitive := if d.caseSensitive then none else some false
  requires := d.requires.map some
  executes := d.executes.map some
  children := if d.children.isEmpty then none else some d.children

theorem finish?_writtenFields (d : NodeDefinition) : d.writtenFields.finish? = some d := by
  obtain ⟨name, argument, caseSensitive, requires, executes, children⟩ := d
  have hcase : (if caseSensitive then none else some false).getD true = caseSensitive := by
    cases caseSensitive <;> rfl
  have hchildren : (if children.isEmpty then none else some children).getD [] = children := by
    cases children <;> rfl
  simp only [writtenFields, Fields.finish?, Option.map_some, join_map_some, hcase, hchildren]

/-! ### One field of a record -/

/-- With the fields `f` read before it, the field is left out, or what is written of it makes them `g`. -/
inductive Writes (depth : Nat) (f : Fields) (key : String) (field : Field) :
    List (String × Data) → Fields → Prop where
  | leftOut : Writes depth f key field [] f
  | written {value : Data} {g : Fields} (hset : setField depth f field value.reading = .ok g) :
      Writes depth f key field [(key, value)] g

section Writes

variable {depth : Nat} {f g : Fields} {key : String} {field : Field} {fields : List (String × Data)}
  {n : Option String} {a : Option (Option ArgumentType)} {c : Option Bool}
  {r : Option (Option String)} {e : Option (Option (Signed 32))}

theorem Writes.ofMembers_append (h : Writes depth f key field fields g)
    (hkey : Field.all.lookup key = some field) (hnew : f.has field = false)
    (more : List (String × Data)) :
    ofMembers depth f (Data.readingFields (fields ++ more))
      = ofMembers depth g (Data.readingFields more) := by
  cases h with
  | leftOut => rfl
  | written hset =>
      rw [List.singleton_append, Data.readingFields, ofMembers, ofText]
      simp only [ok_bind, hkey, hnew, Bool.false_eq_true, if_false, hset]

theorem writes_name (name : String) :
    Writes depth {} "name" .name [("name", .text name)] { name := some name } := by
  refine .written ?_
  rw [Data.reading, setField]
  rfl

theorem optional_of_ne_null {α : Type} {decode : Reading → Except Json.Error α} {r : Reading}
    (hr : r ≠ .null) : r.optional decode = (decode r).map some := by
  cases r with
  | null => exact absurd rfl hr
  | _ => rfl

/-- A field for which there may be no value, and that is set to what it is read as. -/
theorem writes_optional {α : Type} (decode : Reading → Except Json.Error α)
    (set : Option (Option α) → Fields) {encode : α → Data} {value : Option α}
    (hset : ∀ r x, r.optional decode = .ok x → setField depth (set none) field r = .ok (set (some x)))
    (hencode : ∀ x, value = some x → (encode x).reading ≠ .null ∧ decode (encode x).reading = .ok x) :
    Writes depth (set none) key field (Data.optional key encode value) (set (value.map some)) := by
  cases value with
  | none => exact .leftOut
  | some x =>
      obtain ⟨hnull, hdecode⟩ := hencode x rfl
      refine .written (hset _ (some x) ?_)
      rw [optional_of_ne_null hnull, hdecode]
      rfl

theorem writes_argument {argument : Option ArgumentType}
    (hbounds : ∀ type, argument = some type → type.BoundsSurvive)
    (hdepth : ∀ type, argument = some type → type.toData.nesting ≤ depth) :
    Writes depth ⟨n, none, none, none, none, none⟩ "argument" .argument
      (Data.optional "argument" ArgumentType.toData argument)
      ⟨n, argument.map some, none, none, none, none⟩ := by
  refine writes_optional (Reading.argumentType depth) (fun a => ⟨n, a, none, none, none, none⟩)
    (fun value x hx => ?_) fun type htype => ?_
  · rw [setField, hx]
    rfl
  · have hnest := hdepth type htype
    obtain ⟨fields, hrecord⟩ : ∃ fields, type.toData = .record fields := ⟨_, rfl⟩
    obtain ⟨k, rfl⟩ : ∃ k, depth = k + 1 := by
      rw [hrecord, Data.nesting] at hnest
      exact ⟨depth - 1, by omega⟩
    refine ⟨?_, ArgumentType.argumentType_reading (hbounds type htype) k⟩
    rw [hrecord, Data.reading]
    intro hnull
    cases hnull

theorem writes_caseSensitive (caseSensitive : Bool) :
    Writes depth ⟨n, a, none, none, none, none⟩ "case_sensitive" .caseSensitive
      (if caseSensitive then [] else [("case_sensitive", .bool false)])
      ⟨n, a, if caseSensitive then none else some false, none, none, none⟩ := by
  cases caseSensitive with
  | true => exact .leftOut
  | false =>
      refine .written ?_
      rw [Data.reading, setField]
      rfl

theorem writes_requires (requires : Option String) :
    Writes depth ⟨n, a, c, none, none, none⟩ "requires" .requires
      (Data.optional "requires" .text requires) ⟨n, a, c, requires.map some, none, none⟩ := by
  refine writes_optional Reading.text (fun r => ⟨n, a, c, r, none, none⟩) (fun value x hx => ?_)
    fun text _ => ?_
  · rw [setField, hx]
    rfl
  · rw [Data.reading]
    exact ⟨nofun, rfl⟩

theorem writes_executes (executes : Option (Signed 32)) :
    Writes depth ⟨n, a, c, r, none, none⟩ "executes" .executes
      (Data.optional "executes" (fun code => .integer code.val) executes)
      ⟨n, a, c, r, executes.map some, none⟩ := by
  refine writes_optional Reading.integer (fun e => ⟨n, a, c, r, e, none⟩) (fun value x hx => ?_)
    fun code _ => ?_
  · rw [setField, hx]
    rfl
  · rw [Data.reading]
    refine ⟨nofun, ?_⟩
    rw [Reading.integer, ofText]
    simp only [ok_bind, Numeral.toSigned_ofInt, ofShape]

theorem writes_children {children : List NodeDefinition}
    (hread : children ≠ [] → ∃ k, depth = k + 1
      ∧ ofReadings k (Data.readingItems (toDataAll children)) = .ok children) :
    Writes depth ⟨n, a, c, r, e, none⟩ "children" .children
      (Data.nonEmpty "children" (toDataAll children))
      ⟨n, a, c, r, e, if children.isEmpty then none else some children⟩ := by
  cases children with
  | nil => exact .leftOut
  | cons child children =>
      obtain ⟨k, rfl, hreadings⟩ := hread (List.cons_ne_nil child children)
      refine .written ?_
      rw [Data.reading, setField, enter]
      simp only [ok_bind, hreadings]
      rfl

theorem exists_toData_eq_record (d : NodeDefinition) : ∃ fields, d.toData = .record fields := by
  obtain ⟨name, argument, caseSensitive, requires, executes, children⟩ := d
  rw [toData]
  exact ⟨_, rfl⟩

/-- What is read of the record of a definition, once its children are read back. -/
theorem ofMembers_writtenFields {d : NodeDefinition} (hrecord : d.toData = .record fields)
    (hnest : Data.nestingFields fields ≤ depth)
    (hbounds : ∀ type, d.argument = some type → type.BoundsSurvive)
    (hread : ∀ k, Data.nestingItems (toDataAll d.children) ≤ k →
      ofReadings k (Data.readingItems (toDataAll d.children)) = .ok d.children) :
    ofMembers depth {} (Data.readingFields fields) = .ok d.writtenFields := by
  obtain ⟨name, argument, caseSensitive, requires, executes, children⟩ := d
  dsimp only at hbounds hread
  rw [toData] at hrecord
  obtain rfl := Data.record.inj hrecord
  have hfields := Data.nestingFields_le_iff.mp hnest
  have hargument : ∀ type, argument = some type → type.toData.nesting ≤ depth := by
    intro type htype
    exact hfields ("argument", type.toData) (by simp [Data.optional, htype])
  have hchildren : children ≠ [] → ∃ k, depth = k + 1
      ∧ ofReadings k (Data.readingItems (toDataAll children)) = .ok children := by
    intro hne
    have hmem : toDataAll children ≠ [] := by
      cases children with
      | nil => exact absurd rfl hne
      | cons child children => exact List.cons_ne_nil _ _
    have hle := hfields ("children", .list (toDataAll children)) (by simp [Data.mem_nonEmpty_iff, hmem])
    rw [Data.nesting] at hle
    exact ⟨depth - 1, by omega, hread (depth - 1) (by omega)⟩
  simp only [List.append_assoc, List.cons_append]
  rw [← List.singleton_append, ← List.append_nil (Data.nonEmpty _ _),
    (writes_name name).ofMembers_append rfl rfl,
    (writes_argument hbounds hargument).ofMembers_append rfl rfl,
    (writes_caseSensitive caseSensitive).ofMembers_append rfl rfl,
    (writes_requires requires).ofMembers_append rfl rfl,
    (writes_executes executes).ofMembers_append rfl rfl,
    (writes_children hchildren).ofMembers_append rfl rfl]
  rfl

end Writes

/-! ### Definitions -/

mutual

-- By recursion on the definition: the limit falls by one for the record and by one for the list of
-- children, as the nesting does.
theorem ofReading_reading : ∀ (d : NodeDefinition) (depth : Nat), d.BoundsSurvive →
    d.toData.nesting ≤ depth → ofReading depth d.toData.reading = .ok d
  | ⟨name, argument, caseSensitive, requires, executes, children⟩, depth, hbounds, hnest => by
    obtain ⟨fields, hrecord⟩ := exists_toData_eq_record
      ⟨name, argument, caseSensitive, requires, executes, children⟩
    rw [hrecord, Data.nesting] at hnest
    obtain ⟨depth, rfl⟩ : ∃ k, depth = k + 1 := ⟨depth - 1, by omega⟩
    have hmembers := ofMembers_writtenFields hrecord (Nat.le_of_succ_le_succ hnest)
      (hbounds _ .self)
      fun k hk => ofReadings_readingItems children k (fun c hc => hbounds.of_mem hc) hk
    rw [hrecord, Data.reading, ofReading, enter]
    simp only [ok_bind, hmembers, Break.used?, finish?_writtenFields, required]

theorem ofReadings_readingItems : ∀ (ds : List NodeDefinition) (depth : Nat),
    (∀ d ∈ ds, d.BoundsSurvive) → Data.nestingItems (toDataAll ds) ≤ depth →
    ofReadings depth (Data.readingItems (toDataAll ds)) = .ok ds
  | [], _, _, _ => rfl
  | d :: ds, depth, hbounds, hnest => by
    rw [toDataAll, Data.nestingItems, Nat.max_le] at hnest
    rw [toDataAll, Data.readingItems, ofReadings,
      ofReading_reading d depth (hbounds d List.mem_cons_self) hnest.1,
      ofReadings_readingItems ds depth (fun e he => hbounds e (.tail _ he)) hnest.2]
    rfl

end

/-! ### Readable definitions -/

mutual

theorem readable_toData : ∀ d : NodeDefinition, d.BoundsSurvive → d.toData.Readable
  | ⟨name, argument, caseSensitive, requires, executes, children⟩, hbounds => by
    rw [toData, Data.Readable, Data.readableFields_iff]
    intro field hfield
    simp only [List.mem_append, List.mem_cons, Data.mem_optional_iff, Data.mem_nonEmpty_iff] at hfield
    rcases hfield with (((((rfl | ⟨type, htype, rfl⟩) | hcase) | ⟨text, -, rfl⟩) | ⟨code, -, rfl⟩)
      | ⟨-, rfl⟩)
    · simp only [Data.Readable]
    · exact ArgumentType.readable_toData (hbounds _ .self type htype)
    · split at hcase
      · cases hcase
      · obtain rfl := List.mem_singleton.mp hcase
        simp only [Data.Readable]
    · simp only [Data.Readable]
    · exact ArgumentType.readable_signed (by decide) code
    · rw [Data.Readable]
      exact readableItems_toDataAll children fun c hc => hbounds.of_mem hc

theorem readableItems_toDataAll : ∀ ds : List NodeDefinition, (∀ d ∈ ds, d.BoundsSurvive) →
    Data.ReadableItems (toDataAll ds)
  | [], _ => by rw [toDataAll, Data.ReadableItems]; trivial
  | d :: ds, hbounds => by
    rw [toDataAll, Data.ReadableItems]
    exact ⟨readable_toData d (hbounds d List.mem_cons_self),
      readableItems_toDataAll ds fun e he => hbounds e (.tail _ he)⟩

end

end NodeDefinition

namespace TreeDefinition

/-- Each floating-point bound in the file survives being written and read by itself. -/
def BoundsSurvive (d : TreeDefinition) : Prop := ∀ root ∈ d.roots, root.BoundsSurvive

theorem readable_toData {d : TreeDefinition} (hbounds : d.BoundsSurvive) : d.toData.Readable := by
  have hroots := NodeDefinition.readableItems_toDataAll d.roots hbounds
  simp only [toData, Data.Readable, Data.ReadableFields, hroots, and_self]

theorem ofReading_reading {d : TreeDefinition} {depth : Nat} (hbounds : d.BoundsSurvive)
    (hnest : d.toData.nesting ≤ depth) : ofReading depth d.toData.reading = .ok d := by
  simp only [toData, Data.nesting, Data.nestingFields] at hnest
  obtain ⟨k, rfl⟩ : ∃ k, depth = k + 2 := ⟨depth - 2, by omega⟩
  have hroots : rootsOfReading (k + 1) (Data.list (NodeDefinition.toDataAll d.roots)).reading
      = .ok d.roots := by
    rw [Data.reading, rootsOfReading, enter]
    simp only [ok_bind,
      NodeDefinition.ofReadings_readingItems d.roots k hbounds (by omega)]
    rfl
  have hmembers : ofMembers (k + 1) none none (Data.readingFields [("version", .text d.version),
      ("roots", .list (NodeDefinition.toDataAll d.roots))]) = .ok (some d.version, some d.roots) := by
    simp only [Data.readingFields, ofMembers, ofText, ok_bind, hroots]
    rw [Data.reading]
    rfl
  rw [toData, Data.reading, ofReading, enter]
  simp only [ok_bind, hmembers]
  rfl

/-- **Round trip.** A definition that is not nested too deep for the reader is read back as it was
from its text on one line and from its text on many, given that its floating-point bounds are each
read back from theirs. -/
theorem ofJson_compact_and_pretty (d : TreeDefinition) (hnest : d.toData.nesting ≤ depthLimit)
    (hbounds : d.BoundsSurvive) :
    ofJson (String.ofList d.toData.compact) = .ok d
      ∧ ofJson (String.ofList d.toData.pretty) = .ok d := by
  obtain ⟨hcompact, hpretty⟩ :=
    Data.decode_compact_and_pretty (readable_toData hbounds) (ofReading depthLimit)
  rw [ofJson, ofJson, String.toList_ofList, String.toList_ofList, hcompact, hpretty]
  exact ⟨ofReading_reading hbounds hnest, ofReading_reading hbounds hnest⟩

/-- A keyword above a number that is bounded by a half. -/
def ratioTree : TreeDefinition :=
  .ofRoots [⟨"set \"ratio\"\n", none, false, some "é", none,
    [⟨"ratio", some (.float ⟨some ⟨false, 1056964608⟩, none⟩), true, none,
      some (Signed.lowest 32), []⟩]⟩]

theorem boundsSurvive_ratioTree : ratioTree.BoundsSurvive := by
  have hvalue : NumeralText.value ⟨false, ['0'], ['5'], none⟩
      = .ok (.float ⟨false, 4602678819172646912⟩) := by decide +kernel
  have hscan : scanNumeral false "0.5".toList = .ok (⟨false, ['0'], ['5'], none⟩, []) := rfl
  have htext : singleLayout.render (⟨false, 1056964608⟩ : Binary .single) = "0.5".toList := by
    decide +kernel
  have hread : read (singleLayout.render (⟨false, 1056964608⟩ : Binary .single))
      = (.number (.ok (.float ⟨false, 4602678819172646912⟩)), none) := by
    rw [htext, ← hvalue]
    exact read_of_reads (reads_of_scanNumeral hscan blank_nil)
  have hsurvives : (⟨false, 1056964608⟩ : Binary .single).Survives singleLayout :=
    ⟨by decide, _, hread, by decide +kernel⟩
  intro root hroot e he type htype
  obtain rfl := List.mem_singleton.mp hroot
  cases he with
  | self => cases htype
  | inChild hchild he =>
      obtain rfl := List.mem_singleton.mp hchild
      cases he with
      | self =>
          cases htype
          rintro x (hx | hx)
          · cases hx
            exact hsurvives
          · cases hx
      | inChild hmem _ => cases hmem

theorem ofJson_compact_and_pretty_ratioTree :
    ratioTree.toData.nesting ≤ depthLimit ∧ ratioTree.BoundsSurvive
      ∧ ofJson (String.ofList ratioTree.toData.compact) = .ok ratioTree
      ∧ ofJson (String.ofList ratioTree.toData.pretty) = .ok ratioTree := by
  have hnest : ratioTree.toData.nesting ≤ depthLimit := by decide
  exact ⟨hnest, boundsSurvive_ratioTree,
    ofJson_compact_and_pretty ratioTree hnest boundsSurvive_ratioTree⟩

end TreeDefinition

end CommandGrammar
