import CommandGrammar.Proofs.Json.Printing
import CommandGrammar.Tree.SnapshotJson

/-!
# Snapshots read back

A snapshot written as JSON is read back as it was, whether it comes from a tree or not: children
keep their order, a keyword may have a type of values, and an argument may have none. Nothing but the
limit on nesting can come in between.
-/

namespace CommandGrammar

open Json

namespace Snapshot

/-! ### What is written -/

/-- The fields that are written before the children. -/
def headerFields (h : SnapshotHeader) : List (String × Data) :=
  [("name", .text h.name), ("kind", .text h.kind.name)]
    ++ Data.optional "case_sensitive" .bool h.caseSensitive
    ++ Data.optional "value_type" .text h.valueType
    ++ [("executable", .bool h.executable), ("restricted", .bool h.restricted)]

theorem toData_eq (h : SnapshotHeader) (children : List Snapshot) :
    toData ⟨h, children⟩
      = .record (headerFields h ++ Data.nonEmpty "children" (toDataAll children)) := by
  rw [toData]
  rfl

theorem plain_of_mem_headerFields {h : SnapshotHeader} {field : String × Data}
    (hfield : field ∈ headerFields h) : field.2.Readable ∧ field.2.nesting = 0 := by
  simp only [headerFields, List.mem_append, List.mem_cons, List.not_mem_nil, or_false,
    Data.mem_optional_iff] at hfield
  rcases hfield with (((rfl | rfl) | ⟨x, -, rfl⟩) | ⟨x, -, rfl⟩) | (rfl | rfl)
  all_goals simp only [Data.Readable, Data.nesting, and_self]

theorem nestingFields_headerFields (h : SnapshotHeader) :
    Data.nestingFields (headerFields h) = 0 := by
  rw [← Nat.le_zero, Data.nestingFields_le_iff]
  intro field hfield
  exact (plain_of_mem_headerFields hfield).2.le

theorem nesting_toData_of_nil (h : SnapshotHeader) : (toData ⟨h, []⟩).nesting = 1 := by
  rw [toData_eq, Data.nesting, Data.nestingFields_append, nestingFields_headerFields]
  rfl

theorem nesting_toData_of_cons (h : SnapshotHeader) (c : Snapshot) (cs : List Snapshot) :
    (toData ⟨h, c :: cs⟩).nesting = Data.nestingItems (toDataAll (c :: cs)) + 2 := by
  rw [toData_eq, Data.nesting, Data.nestingFields_append, nestingFields_headerFields, Nat.zero_max,
    toDataAll]
  simp only [Data.nonEmpty, List.isEmpty_cons, Bool.false_eq_true, if_false, Data.nestingFields,
    Data.nesting, Nat.max_zero]

mutual

theorem readable_toData : ∀ s : Snapshot, s.toData.Readable
  | ⟨h, children⟩ => by
    rw [toData_eq, Data.Readable, Data.readableFields_iff]
    intro field hfield
    rcases List.mem_append.mp hfield with hheader | hchildren
    · exact (plain_of_mem_headerFields hheader).1
    · obtain ⟨-, rfl⟩ := Data.mem_nonEmpty_iff.mp hchildren
      rw [Data.Readable]
      exact readableItems_toDataAll children

theorem readableItems_toDataAll : ∀ ss : List Snapshot, Data.ReadableItems (toDataAll ss)
  | [] => by rw [toDataAll, Data.ReadableItems]; trivial
  | s :: ss => by
    rw [toDataAll, Data.ReadableItems]
    exact ⟨readable_toData s, readableItems_toDataAll ss⟩

end

/-! ### Groups of fields -/

/-- Reading the written fields makes `g` of `f`, whatever is written behind them. -/
def Turns (depth : Nat) (f : Fields) (fields : List (String × Data)) (g : Fields) : Prop :=
  ∀ more, ofMembers depth f (Data.readingFields (fields ++ more))
    = ofMembers depth g (Data.readingFields more)

section Turns

variable {depth : Nat} {f g h : Fields} {fields : List (String × Data)}

theorem Turns.nil : Turns depth f [] f := fun _ => rfl

theorem ofMembers_cons {key : String} {field : Field} {value : Data} {more : List (String × Data)}
    (hkey : Field.all.lookup key = some field) (hnew : f.has field = false) :
    ofMembers depth f (Data.readingFields ((key, value) :: more))
      = setField depth f field value.reading >>= fun g =>
        ofMembers depth g (Data.readingFields more) := by
  rw [Data.readingFields, ofMembers, ofText]
  simp only [ok_bind, hkey, hnew, Bool.false_eq_true, if_false]

theorem Turns.cons {key : String} {field : Field} {value : Data}
    (hkey : Field.all.lookup key = some field) (hnew : f.has field = false)
    (hset : setField depth f field value.reading = .ok g) (hrest : Turns depth g fields h) :
    Turns depth f ((key, value) :: fields) h := by
  intro more
  rw [List.cons_append, ofMembers_cons hkey hnew, hset, ok_bind, hrest]

theorem Turns.append {more : List (String × Data)} (hfirst : Turns depth f fields g)
    (hrest : Turns depth g more h) : Turns depth f (fields ++ more) h := by
  intro others
  rw [List.append_assoc, hfirst, hrest]

/-- A field that is left out without a value is read if there is one. -/
theorem turns_optional {α : Type} {key : String} {encode : α → Data} (field : Field)
    (hkey : Field.all.lookup key = some field) (set : Option (Option α) → Fields)
    (hnew : (set none).has field = false)
    (hset : ∀ x, setField depth (set none) field (encode x).reading = .ok (set (some (some x))))
    (value : Option α) :
    Turns depth (set none) (Data.optional key encode value) (set (value.map some)) := by
  cases value with
  | none => exact .nil
  | some x => exact .cons hkey hnew (hset x) .nil

end Turns

section Groups

variable {depth : Nat} {n : Option String} {k : Option SnapshotKind} {c : Option (Option Bool)}
  {v : Option (Option String)}

theorem ofReading_kind (kind : SnapshotKind) :
    SnapshotKind.ofReading depth (Data.text kind.name).reading = .ok kind := by
  rw [Data.reading]
  cases kind <;> rfl

theorem turns_name_kind (name : String) (kind : SnapshotKind) :
    Turns depth {} [("name", .text name), ("kind", .text kind.name)]
      { name := some name, kind := some kind } := by
  refine .cons rfl rfl (g := { name := some name }) ?_ (.cons rfl rfl ?_ .nil)
  · rw [Data.reading, setField]
    rfl
  · rw [setField, ofReading_kind]
    rfl

theorem turns_caseSensitive (caseSensitive : Option Bool) :
    Turns depth ⟨n, k, none, none, none, none, none⟩
      (Data.optional "case_sensitive" .bool caseSensitive)
      ⟨n, k, caseSensitive.map some, none, none, none, none⟩ := by
  refine turns_optional .caseSensitive rfl (fun c => ⟨n, k, c, none, none, none, none⟩) rfl ?_ _
  intro x
  rw [Data.reading, setField]
  rfl

theorem turns_valueType (valueType : Option String) :
    Turns depth ⟨n, k, c, none, none, none, none⟩ (Data.optional "value_type" .text valueType)
      ⟨n, k, c, valueType.map some, none, none, none⟩ := by
  refine turns_optional .valueType rfl (fun v => ⟨n, k, c, v, none, none, none⟩) rfl ?_ _
  intro x
  rw [Data.reading, setField]
  rfl

theorem turns_executable_restricted (executable restricted : Bool) :
    Turns depth ⟨n, k, c, v, none, none, none⟩
      [("executable", .bool executable), ("restricted", .bool restricted)]
      ⟨n, k, c, v, some executable, some restricted, none⟩ := by
  refine .cons rfl rfl (g := ⟨n, k, c, v, some executable, none, none⟩) ?_ (.cons rfl rfl ?_ .nil)
  all_goals
    rw [Data.reading, setField]
    rfl

/-- What is read of a snapshot before its children. -/
def headerRead (h : SnapshotHeader) : Fields where
  name := some h.name
  kind := some h.kind
  caseSensitive := h.caseSensitive.map some
  valueType := h.valueType.map some
  executable := some h.executable
  restricted := some h.restricted

theorem turns_headerFields (h : SnapshotHeader) :
    Turns depth {} (headerFields h) (headerRead h) :=
  (((turns_name_kind h.name h.kind).append (turns_caseSensitive h.caseSensitive)).append
    (turns_valueType h.valueType)).append (turns_executable_restricted h.executable h.restricted)

theorem finish_headerRead (h : SnapshotHeader) {children : Option (List Snapshot)} :
    ({ headerRead h with children := children } : Fields).finish
      = .ok ⟨h, children.getD []⟩ := by
  simp only [headerRead, Fields.finish, required, ok_bind, join_map_some]
  rfl

theorem ofReading_toData (h : SnapshotHeader) (children : List Snapshot) :
    ofReading (depth + 1) (toData ⟨h, children⟩).reading
      = ofMembers depth (headerRead h)
        (Data.readingFields (Data.nonEmpty "children" (toDataAll children))) >>= Fields.finish := by
  rw [toData_eq, Data.reading, ofReading, enter, ok_bind, turns_headerFields h]
  rfl

theorem ofReading_toData_of_nil (h : SnapshotHeader) :
    ofReading (depth + 1) (toData ⟨h, []⟩).reading = .ok ⟨h, []⟩ := by
  rw [ofReading_toData, toDataAll]
  exact finish_headerRead h

theorem ofReading_toData_of_cons (h : SnapshotHeader) (c : Snapshot) (cs : List Snapshot) :
    ofReading (depth + 1) (toData ⟨h, c :: cs⟩).reading
      = enter depth >>= fun below =>
        (ofReadings below (Data.readingItems (toDataAll (c :: cs)))).map fun children =>
          ⟨h, children⟩ := by
  have hwritten : Data.nonEmpty "children" (toDataAll (c :: cs))
      = [("children", .list (toDataAll (c :: cs)))] := by
    rw [toDataAll]
    rfl
  rw [ofReading_toData, hwritten, ofMembers_cons rfl rfl, Data.reading, setField]
  cases enter depth with
  | error fault => rfl
  | ok below =>
      rw [ok_bind, ok_bind]
      cases ofReadings below (Data.readingItems (toDataAll (c :: cs))) with
      | error fault => rfl
      | ok children => exact finish_headerRead h

end Groups

/-! ### Snapshots -/

/-- The value, unless it is nested deeper than the limit. -/
def within {α : Type} (limit nesting : Nat) (value : α) : Except Json.Error α :=
  if nesting ≤ limit then .ok value else .error (.text .malformed)

section Within

variable {α β : Type} {limit nesting : Nat} {value : α}

theorem within_of_le (h : nesting ≤ limit) : within limit nesting value = .ok value :=
  if_pos h

theorem within_of_lt (h : limit < nesting) :
    within limit nesting value = .error (.text .malformed) :=
  if_neg (Nat.not_le.mpr h)

theorem within_eq_ok_iff : within limit nesting value = .ok value ↔ nesting ≤ limit := by
  unfold within
  split_ifs with h <;> simp [h]

theorem within_add (k : Nat) :
    within (limit + k) (nesting + k) value = within limit nesting value := by
  unfold within
  simp only [Nat.add_le_add_iff_right]

theorem map_within (f : α → β) :
    (within limit nesting value).map f = within limit nesting (f value) := by
  unfold within
  split_ifs <;> rfl

theorem bind_within {values : List α} {nesting' : Nat} :
    (within limit nesting value >>= fun x => (x :: ·) <$> within limit nesting' values)
      = within limit (max nesting nesting') (value :: values) := by
  by_cases h : nesting ≤ limit
  · by_cases h' : nesting' ≤ limit
    · rw [within_of_le h, within_of_le h', within_of_le (Nat.max_le.mpr ⟨h, h'⟩)]
      rfl
    · have hmax : limit < max nesting nesting' := by omega
      rw [within_of_le h, within_of_lt (Nat.not_le.mp h'), within_of_lt hmax]
      rfl
  · have hmax : limit < max nesting nesting' := by omega
    rw [within_of_lt (Nat.not_le.mp h), within_of_lt hmax]
    rfl

end Within

mutual

-- By recursion on the snapshot: the limit falls by one for the object and by one for the list of
-- children, as the nesting does.
theorem ofReading_reading : ∀ (s : Snapshot) (limit : Nat),
    ofReading limit s.toData.reading = within limit s.toData.nesting s
  | ⟨h, children⟩, 0 => by
    rw [toData_eq, Data.nesting, within_of_lt (Nat.succ_pos _), Data.reading, ofReading]
    rfl
  | ⟨h, []⟩, limit + 1 => by
    rw [ofReading_toData_of_nil, nesting_toData_of_nil, within_of_le (Nat.le_add_left 1 limit)]
  | ⟨h, c :: cs⟩, 1 => by
    rw [ofReading_toData_of_cons, nesting_toData_of_cons, within_of_lt (Nat.le_add_left 2 _)]
    rfl
  | ⟨h, c :: cs⟩, limit + 2 => by
    rw [ofReading_toData_of_cons, nesting_toData_of_cons, within_add, enter, ok_bind,
      ofReadings_readingItems (c :: cs) limit, map_within]

theorem ofReadings_readingItems : ∀ (ss : List Snapshot) (limit : Nat),
    ofReadings limit (Data.readingItems (toDataAll ss))
      = within limit (Data.nestingItems (toDataAll ss)) ss
  | [], limit => by
    rw [toDataAll, Data.readingItems, Data.nestingItems, ofReadings, within_of_le (Nat.zero_le _)]
  | s :: ss, limit => by
    rw [toDataAll, Data.readingItems, Data.nestingItems, ofReadings, ofReading_reading s limit,
      ofReadings_readingItems ss limit]
    exact bind_within

end

/-- **Snapshots round trip.** Whatever a snapshot holds, its text on one line and its text on many
are read back as the snapshot as long as it is not nested too deep for the reader, and only then. -/
theorem ofJson_written_iff (s : Snapshot) :
    (ofJson (String.ofList s.toData.compact) = .ok s ↔ s.toData.nesting ≤ depthLimit)
      ∧ (ofJson (String.ofList s.toData.pretty) = .ok s ↔ s.toData.nesting ≤ depthLimit) := by
  obtain ⟨hcompact, hpretty⟩ :=
    Data.decode_compact_and_pretty s.readable_toData (ofReading depthLimit)
  rw [ofJson, ofJson, String.toList_ofList, String.toList_ofList, hcompact, hpretty,
    ofReading_reading s depthLimit]
  exact ⟨within_eq_ok_iff, within_eq_ok_iff⟩

end Snapshot

end CommandGrammar
