import CommandGrammar.Argument.Data
import CommandGrammar.Json.Decoding
import CommandGrammar.Proofs.Json.Printing

/-!
# Reading back argument types

An integer is always read back from its text. Of a floating-point number this is an assumption here:
the digits that are written are enough to tell it from all others, but what is read from them is
rounded more than once.
-/

namespace CommandGrammar

open Json

namespace Numeral

theorem toSigned_ofInt {bits : Nat} (expected : String) (v : Signed bits) :
    (ofInt v.val).toSigned bits expected = .ok v := by
  cases hv : v.val with
  | ofNat n =>
      have hfits : Signed.ofInt? bits n = some v := Signed.ofInt?_eq_some_iff.mpr hv
      simp only [ofInt, toSigned, hfits]
  | negSucc n =>
      have hfits : Signed.ofInt? bits (-(n + 1 : Nat)) = some v := Signed.ofInt?_eq_some_iff.mpr hv
      simp only [ofInt, toSigned, hfits]

theorem toBinary_zero (f : BinaryFormat) (negative : Bool) :
    (float ⟨negative, 0⟩).toBinary f = ⟨negative, 0⟩ := by
  have hrank : ∀ den, f.rankOfRatio 0 den = 0 := fun den => by rw [BinaryFormat.rankOfRatio, if_pos rfl]
  have hfinite : (⟨negative, 0⟩ : Binary .double).isFinite = true := by cases negative <;> decide
  have hratio : (BinaryFormat.double.ratioOfRank 0).1 = 0 := by decide
  rw [toBinary, Binary.convert, Binary.isNaN_of_isFinite hfinite, hfinite]
  simp only [Bool.false_eq_true, if_false, if_true, Binary.ofRatio, hratio, hrank]

end Numeral

namespace Binary

variable {f : BinaryFormat}

/-- The number is finite, and its text by itself is read as a number equal to it. -/
def Survives (layout : Layout) (x : Binary f) : Prop :=
  x.isFinite = true
    ∧ ∃ n, read (layout.render x) = (.number (.ok n), none) ∧ (n.toBinary f).same x = true

theorem Survives.exists_number {layout : Layout} {x : Binary f} (h : x.Survives layout) :
    ∃ n, read (layout.render x) = (.number n, none) := by
  obtain ⟨-, n, hread, -⟩ := h
  exact ⟨.ok n, hread⟩

theorem eq_of_key_eq {x y : Binary f} (hkey : x.key = y.key) (hrank : y.rank ≠ 0) : x = y := by
  obtain ⟨negative, rank⟩ := x
  obtain ⟨negative', rank'⟩ := y
  simp only [key] at hkey hrank
  cases negative <;> cases negative' <;> simp only [Binary.mk.injEq] <;> grind

theorem read_zero (negative : Bool) :
    read ((if negative then ['-'] else []) ++ "0.0".toList)
      = (.number (.ok (.float ⟨negative, 0⟩)), none) := by
  have hvalue : NumeralText.value ⟨negative, ['0'], ['0'], none⟩ = .ok (.float ⟨negative, 0⟩) := by
    cases negative <;> decide +kernel
  have hscan : scanNumeral negative "0.0".toList = .ok (⟨negative, ['0'], ['0'], none⟩, []) := rfl
  rw [← hvalue]
  exact read_of_reads (reads_of_scanNumeral hscan blank_nil)

/-- A number that survives is read back as it was, zeros with their signs. -/
theorem Survives.exists_toBinary_eq {layout : Layout} {x : Binary f} (h : x.Survives layout)
    (hmark : layout.wholeMark = ".0".toList) :
    ∃ n, read (layout.render x) = (.number (.ok n), none) ∧ n.toBinary f = x := by
  obtain ⟨hfinite, n, hread, hsame⟩ := h
  by_cases hrank : x.rank = 0
  · -- both zeros are equal to what is read, so which of them it is has to be computed
    obtain ⟨negative, rank⟩ := x
    obtain rfl : rank = 0 := hrank
    refine ⟨.float ⟨negative, 0⟩, ?_, Numeral.toBinary_zero f negative⟩
    have htext : layout.render (⟨negative, 0⟩ : Binary f)
        = (if negative then ['-'] else []) ++ "0.0".toList := by
      rw [Layout.render, isNaN_of_isFinite hfinite, hfinite, Layout.magnitude, if_pos rfl, hmark]
      rfl
    rw [htext]
    exact read_zero negative
  · -- other numbers than zero are told apart by their keys
    simp only [same, Bool.and_eq_true, decide_eq_true_eq] at hsame
    exact ⟨n, hread, eq_of_key_eq hsame.2 hrank⟩

end Binary

/-! ### Bounds -/

section Bounds

variable {α : Type} {decode : Numeral → Except ShapeFault α} {n : Numeral} {x : α}

/-- The bounds give the number. -/
def Bounds.Has (bounds : Bounds α) (x : α) : Prop := bounds.min = some x ∨ bounds.max = some x

/-- The bound is written as a number that decodes to it. -/
def ReadsBound (encode : α → Data) (decode : Numeral → Except ShapeFault α) (x : α) : Prop :=
  ∃ n, (encode x).reading = .number (.ok n) ∧ decode n = .ok x

theorem tagged_number {depth : Nat} {tag : Option ArgumentTag} {key : String} (hkey : key ≠ "kind")
    (n : Numeral) (entries : List (Content × Content))
    (members : List (Except Fault String × Reading)) :
    Reading.tagged depth tag entries ((.ok key, .number (.ok n)) :: members)
      = Reading.tagged depth tag ((.text key, .number n) :: entries) members := by
  rw [Reading.tagged, ofText]
  simp only [ok_bind, if_neg hkey]
  rfl

theorem boundsOfEntries_min (hdecode : decode n = .ok x) (expected : String)
    (max : Option (Option α)) (entries : List (Content × Content)) :
    ArgumentType.boundsOfEntries (ArgumentType.boundOfContent decode expected) none max
        ((.text "min", .number n) :: entries)
      = ArgumentType.boundsOfEntries (ArgumentType.boundOfContent decode expected) (some (some x)) max
          entries := by
  rw [ArgumentType.boundsOfEntries, ArgumentType.boundOfContent, hdecode]
  rfl

theorem boundsOfEntries_max (hdecode : decode n = .ok x) (expected : String)
    (min : Option (Option α)) (entries : List (Content × Content)) :
    ArgumentType.boundsOfEntries (ArgumentType.boundOfContent decode expected) min none
        ((.text "max", .number n) :: entries)
      = ArgumentType.boundsOfEntries (ArgumentType.boundOfContent decode expected) min (some (some x))
          entries := by
  rw [ArgumentType.boundsOfEntries, ArgumentType.boundOfContent, hdecode]
  rfl

theorem exists_entries {bounds : Bounds α} {encode : α → Data} (expected : String)
    (h : ∀ x, bounds.Has x → ReadsBound encode decode x) (depth : Nat) (tag : Option ArgumentTag) :
    ∃ entries, Reading.tagged depth tag [] (Data.readingFields (bounds.toFields encode))
        = .ok (tag, entries)
      ∧ ArgumentType.boundsOfContent decode expected (.map entries) = .ok bounds := by
  obtain ⟨min, max⟩ := bounds
  cases min with
  | none =>
      cases max with
      | none => exact ⟨[], rfl, rfl⟩
      | some y =>
          obtain ⟨m, hm, hy⟩ := h y (.inr rfl)
          refine ⟨[(.text "max", .number m)], ?_, boundsOfEntries_max hy expected none []⟩
          simp only [Bounds.toFields, Data.optional, List.nil_append, Data.readingFields, hm]
          exact tagged_number (by decide) m [] []
  | some x =>
      obtain ⟨n, hn, hx⟩ := h x (.inl rfl)
      cases max with
      | none =>
          refine ⟨[(.text "min", .number n)], ?_, boundsOfEntries_min hx expected none []⟩
          simp only [Bounds.toFields, Data.optional, List.append_nil, Data.readingFields, hn]
          exact tagged_number (by decide) n [] []
      | some y =>
          obtain ⟨m, hm, hy⟩ := h y (.inr rfl)
          refine ⟨[(.text "min", .number n), (.text "max", .number m)], ?_, ?_⟩
          · simp only [Bounds.toFields, Data.optional, List.cons_append, List.nil_append,
              Data.readingFields, hn, hm]
            rw [tagged_number (by decide), tagged_number (by decide)]
            rfl
          · exact (boundsOfEntries_min hx expected none _).trans (boundsOfEntries_max hy expected _ [])

end Bounds

namespace ArgumentType

/-- The floating-point bounds survive being written and read one by one. -/
def BoundsSurvive : ArgumentType → Prop
  | float bounds => ∀ x, bounds.Has x → x.Survives singleLayout
  | double bounds => ∀ x, bounds.Has x → x.Survives doubleLayout
  | _ => True

theorem readsBound_signed {bits : Nat} (expected : String) (v : Signed bits) :
    ReadsBound (fun v : Signed bits => .integer v.val) (Numeral.toSigned bits expected) v := by
  refine ⟨Numeral.ofInt v.val, ?_, Numeral.toSigned_ofInt expected v⟩
  rw [Data.reading]

theorem readsBound_of_survives {f : BinaryFormat} {layout : Layout} {encode : Binary f → Data}
    {x : Binary f} (hencode : (encode x).reading = (Json.read (layout.render x)).1)
    (hmark : layout.wholeMark = ".0".toList) (h : x.Survives layout) :
    ReadsBound encode (.ok ∘ Numeral.toBinary f) x := by
  obtain ⟨n, hread, hn⟩ := h.exists_toBinary_eq hmark
  refine ⟨n, ?_, congrArg Except.ok hn⟩
  rw [hencode, hread]

theorem argumentType_object {depth : Nat} {name : String} {tag : ArgumentTag}
    {members : List (Except Fault String × Reading)} {entries : List (Content × Content)}
    (hname : ArgumentTag.ofName name = .ok tag)
    (hmembers : Reading.tagged depth (some tag) [] members = .ok (some tag, entries)) :
    Reading.argumentType (depth + 1) (.object ((.ok "kind", .string (.ok name)) :: members) none)
      = ofShape (ofContent tag (.map entries)) := by
  have htagged : Reading.tagged depth none [] ((.ok "kind", .string (.ok name)) :: members)
      = .ok (some tag, entries) := by
    rw [Reading.tagged]
    simp only [ofText, ok_bind, if_pos, Reading.name, hname, ofShape, hmembers]
    rfl
  rw [Reading.argumentType, enter]
  simp only [ok_bind, htagged]
  rfl

theorem argumentType_bounded {α : Type} {bounds : Bounds α} {encode : α → Data}
    {decode : Numeral → Except ShapeFault α} {expected name : String} {tag : ArgumentTag}
    {build : Bounds α → ArgumentType} (hname : ArgumentTag.ofName name = .ok tag)
    (htag : ∀ content, ofContent tag content = (boundsOfContent decode expected content).map build)
    (h : ∀ x, bounds.Has x → ReadsBound encode decode x) (depth : Nat) :
    Reading.argumentType (depth + 1)
        (Data.record (("kind", .text name) :: bounds.toFields encode)).reading
      = .ok (build bounds) := by
  obtain ⟨entries, htagged, hbounds⟩ := exists_entries expected h depth (some tag)
  rw [Data.reading, Data.readingFields, Data.reading, argumentType_object hname htagged, htag, hbounds]
  rfl

theorem argumentType_unbounded {name : String} {tag : ArgumentTag} {type : ArgumentType}
    (hname : ArgumentTag.ofName name = .ok tag) (htag : ofContent tag (.map []) = .ok type)
    (depth : Nat) :
    Reading.argumentType (depth + 1) (Data.record [("kind", .text name)]).reading = .ok type := by
  have hmembers : Reading.tagged depth (some tag) [] [] = .ok (some tag, []) := rfl
  rw [Data.reading, Data.readingFields, Data.readingFields, Data.reading,
    argumentType_object hname hmembers, htag]
  rfl

/-- An argument type is read back from its record. -/
theorem argumentType_reading {type : ArgumentType} (h : type.BoundsSurvive) (depth : Nat) :
    Reading.argumentType (depth + 1) type.toData.reading = .ok type := by
  cases type with
  | integer bounds =>
      exact argumentType_bounded rfl (fun _ => rfl) (fun v _ => readsBound_signed "i32" v) depth
  | long bounds =>
      exact argumentType_bounded rfl (fun _ => rfl) (fun v _ => readsBound_signed "i64" v) depth
  | float bounds =>
      refine argumentType_bounded rfl (fun _ => rfl) (fun x hx => ?_) depth
      exact readsBound_of_survives (by rw [Data.reading]) rfl (h x hx)
  | double bounds =>
      refine argumentType_bounded rfl (fun _ => rfl) (fun x hx => ?_) depth
      exact readsBound_of_survives (by rw [Data.reading]) rfl (h x hx)
  | bool => exact argumentType_unbounded rfl rfl depth
  | word => exact argumentType_unbounded rfl rfl depth

theorem readable_signed {bits : Nat} (hbits : signedBound bits ≤ twoTo 63) (v : Signed bits) :
    (Data.integer v.val).Readable := by
  have hnatural : twoTo 63 ≤ greatestNatural := by decide
  have hlower := v.lower
  have hupper := v.upper
  rw [Data.Readable]
  omega

theorem readable_bounded {α : Type} {bounds : Bounds α} {encode : α → Data} {name : String}
    (h : ∀ x, bounds.Has x → (encode x).Readable) :
    (Data.record (("kind", .text name) :: bounds.toFields encode)).Readable := by
  rw [Data.Readable, Data.ReadableFields, Data.readableFields_iff]
  refine ⟨by rw [Data.Readable]; trivial, fun field hfield => ?_⟩
  rcases List.mem_append.mp hfield with hmin | hmax
  · obtain ⟨x, hx, rfl⟩ := Data.mem_optional_iff.mp hmin
    exact h x (.inl hx)
  · obtain ⟨x, hx, rfl⟩ := Data.mem_optional_iff.mp hmax
    exact h x (.inr hx)

theorem readable_toData {type : ArgumentType} (h : type.BoundsSurvive) : type.toData.Readable := by
  cases type with
  | integer bounds => exact readable_bounded fun v _ => readable_signed (by decide) v
  | long bounds => exact readable_bounded fun v _ => readable_signed (by decide) v
  | float bounds =>
      refine readable_bounded fun x hx => ?_
      rw [Data.Readable]
      exact (h x hx).exists_number
  | double bounds =>
      refine readable_bounded fun x hx => ?_
      rw [Data.Readable]
      exact (h x hx).exists_number
  | bool =>
      simp only [toData, Data.Readable, Data.ReadableFields, and_self]
  | word =>
      simp only [toData, Data.Readable, Data.ReadableFields, and_self]

end ArgumentType

end CommandGrammar
