import CommandGrammar.Proofs.Reader.Integers
import CommandGrammar.Proofs.Reader.Unbounded

/-!
# Reads of integers between bounds

An integer that is read is taken if it lies between the bounds. If it does not, the read is refused
where it started, for the lower bound first. A bound that an argument type leaves out is the furthest
integer that there is.
-/

namespace CommandGrammar

/-- Integers are printed as what they are. -/
class PrintedSigned (bits : Nat) [Numeric (Signed bits)] : Prop where
  toString_eq : ∀ v : Signed bits, @toString _ Numeric.toToString v = toString v.val

instance : PrintedSigned 32 := ⟨fun v => Digits.ofInt_eq_toString v.val⟩

instance : PrintedSigned 64 := ⟨fun v => Digits.ofInt_eq_toString v.val⟩

/-- What the reads for a family of bounds come to: each takes what the plain read gives if that lies
between its own bounds, and makes a value of it. -/
structure BoundedReads {β α : Type} {bits : Nat} [Numeric (Signed bits)]
    (read : β → Reader → ReadResult α) (value : Signed bits → α) (lower upper : β → Int)
    (r : Reader) : Prop where
  ok_iff {b : β} {a : α} {s : Reader} : read b r = (.ok a, s)
    ↔ ∃ v, r.number (Signed bits) = (.ok v, s) ∧ lower b ≤ v.val ∧ v.val ≤ upper b ∧ value v = a
  error {b : β} {e : SyntaxError} {s : Reader} : r.number (Signed bits) = (.error e, s) →
    read b r = (.error e, s)
  tooLow {b : β} {v : Signed bits} {s : Reader} : r.number (Signed bits) = (.ok v, s) →
    v.val < lower b →
    read b r = (.error ⟨.tooLow (toString v.val) (toString (lower b)), r⟩, r)
  tooHigh {b : β} {v : Signed bits} {s : Reader} : r.number (Signed bits) = (.ok v, s) →
    lower b ≤ v.val → upper b < v.val →
    read b r = (.error ⟨.tooHigh (toString v.val) (toString (upper b)), r⟩, r)
  inverted {b : β} : upper b < lower b → ∀ a s, read b r ≠ (.ok a, s)
  wider {b b' : β} {a : α} {s : Reader} : lower b' ≤ lower b → upper b ≤ upper b' →
    read b r = (.ok a, s) → read b' r = (.ok a, s)

/-! ### Ranges -/

namespace Range

theorem read_of_error {α : Type} [Numeric α] {range : Range α} {r s : Reader} {e : SyntaxError}
    (h : r.number α = (.error e, s)) : range.read r = (.error e, s) := by
  rw [read, h]

theorem read_eq_ok_iff {α : Type} [Numeric α] {range : Range α} {r s : Reader} {value : α} :
    range.read r = (.ok value, s)
      ↔ r.number α = (.ok value, s) ∧ range.violation? value = none := by
  rw [read]
  generalize r.number α = result
  obtain ⟨outcome, s'⟩ := result
  cases outcome with
  | error e => simp
  | ok found =>
      cases hviolation : range.violation? found with
      | none =>
          simp only [hviolation]
          constructor
          · intro heq
            cases heq
            exact ⟨rfl, hviolation⟩
          · exact And.left
      | some cause =>
          simp only [hviolation]
          constructor
          · intro heq
            cases heq
          · rintro ⟨heq, hnone⟩
            cases heq
            rw [hviolation] at hnone
            cases hnone

variable {bits : Nat} [Numeric (Signed bits)] [LawfulSigned bits] [PrintedSigned bits]
  {range : Range (Signed bits)} {r s : Reader} {v : Signed bits}

theorem violation?_signed (range : Range (Signed bits)) (v : Signed bits) :
    range.violation? v
      = if v.val < range.min.val then some (.tooLow (toString v.val) (toString range.min.val))
        else if range.max.val < v.val then
          some (.tooHigh (toString v.val) (toString range.max.val))
        else none := by
  simp only [violation?, LawfulSigned.lt_eq, PrintedSigned.toString_eq, decide_eq_true_eq]

theorem violation?_signed_eq_none_iff :
    range.violation? v = none ↔ range.min.val ≤ v.val ∧ v.val ≤ range.max.val := by
  rw [violation?_signed]
  by_cases hlow : v.val < range.min.val
  · simp [hlow]
  by_cases hhigh : range.max.val < v.val
  · simp [hlow, hhigh]
  · simp [hlow, hhigh, Int.not_lt.mp hlow, Int.not_lt.mp hhigh]

theorem boundedReads (r : Reader) :
    BoundedReads Range.read id (fun range : Range (Signed bits) => range.min.val)
      (fun range => range.max.val) r where
  ok_iff {range v s} := by
    rw [read_eq_ok_iff, violation?_signed_eq_none_iff]
    simp
  error hread := read_of_error hread
  tooLow {range v s} hread hlow := by
    have hvalue : (r.number (Signed bits)).1 = .ok v := by rw [hread]
    apply read_of_violation? hvalue
    rw [violation?_signed, if_pos hlow]
  tooHigh {range v s} hread hmin hhigh := by
    have hvalue : (r.number (Signed bits)).1 = .ok v := by rw [hread]
    apply read_of_violation? hvalue
    rw [violation?_signed, if_neg (Int.not_lt.mpr hmin), if_pos hhigh]
  inverted {range} hinverted v s hread := by
    obtain ⟨-, hfits⟩ := read_eq_ok_iff.mp hread
    obtain ⟨hmin, hmax⟩ := violation?_signed_eq_none_iff.mp hfits
    omega
  wider {range range' v s} hlower hupper hread := by
    obtain ⟨hnumber, hfits⟩ := read_eq_ok_iff.mp hread
    obtain ⟨hmin, hmax⟩ := violation?_signed_eq_none_iff.mp hfits
    apply read_eq_ok_iff.mpr
    exact ⟨hnumber, violation?_signed_eq_none_iff.mpr ⟨hlower.trans hmin, hmax.trans hupper⟩⟩

end Range

/-! ### Argument types -/

theorem ReadResult.map_eq_iff_exists {α α' : Type} {f : α → α'} {result : ReadResult α} {a' : α'}
    {s : Reader} : result.map f = (.ok a', s) ↔ ∃ a, result = (.ok a, s) ∧ f a = a' := by
  obtain ⟨outcome, s'⟩ := result
  cases outcome with
  | error e => simp [map, Except.map]
  | ok found => simp [map, Except.map, and_comm]

/-- The same reads for bounds given in another way, and with other values. -/
theorem BoundedReads.map {β β' α α' : Type} {bits : Nat} [Numeric (Signed bits)]
    {read : β → Reader → ReadResult α} {value : Signed bits → α} {lower upper : β → Int}
    {r : Reader} (h : BoundedReads read value lower upper r) (f : α → α') (g : β' → β) :
    BoundedReads (fun b r => (read (g b) r).map f) (f ∘ value) (lower ∘ g) (upper ∘ g) r where
  ok_iff {b a s} := by
    rw [ReadResult.map_eq_iff_exists]
    constructor
    · rintro ⟨a, hread, rfl⟩
      obtain ⟨v, hnumber, hlower, hupper, rfl⟩ := h.ok_iff.mp hread
      exact ⟨v, hnumber, hlower, hupper, rfl⟩
    · rintro ⟨v, hnumber, hlower, hupper, rfl⟩
      exact ⟨value v, h.ok_iff.mpr ⟨v, hnumber, hlower, hupper, rfl⟩, rfl⟩
  error hread := by
    rw [h.error hread]
    rfl
  tooLow hread hlow := by
    rw [h.tooLow hread hlow]
    rfl
  tooHigh hread hlower hhigh := by
    rw [h.tooHigh hread hlower hhigh]
    rfl
  inverted hinverted a s hread := by
    obtain ⟨a, hinner, -⟩ := ReadResult.map_eq_iff_exists.mp hread
    exact h.inverted hinverted a s hinner
  wider hlower hupper hread := by
    obtain ⟨a, hinner, rfl⟩ := ReadResult.map_eq_iff_exists.mp hread
    exact ReadResult.map_eq_iff_exists.mpr ⟨a, h.wider hlower hupper hinner, rfl⟩

namespace Bounds

variable {bits : Nat}

/-- The lower bound; a missing one is the least integer of the width. -/
def least (bounds : Bounds (Signed bits)) : Int :=
  (bounds.min.map Signed.val).getD (-2 ^ (bits - 1))

/-- The upper bound; a missing one is the greatest integer of the width. -/
def greatest (bounds : Bounds (Signed bits)) : Int :=
  (bounds.max.map Signed.val).getD (2 ^ (bits - 1) - 1)

variable [Numeric (Signed bits)] [LawfulSigned bits]

theorem toRange_min_val (bounds : Bounds (Signed bits)) :
    bounds.toRange.min.val = bounds.least := by
  rw [toRange, least, LawfulSigned.lowest_eq, ← natCast_signedBound]
  cases bounds.min <;> rfl

theorem toRange_max_val (bounds : Bounds (Signed bits)) :
    bounds.toRange.max.val = bounds.greatest := by
  rw [toRange, greatest, LawfulSigned.highest_eq, ← natCast_signedBound]
  cases bounds.max <;> rfl

theorem boundedReads [PrintedSigned bits] {α : Type} (f : Signed bits → α) (r : Reader) :
    BoundedReads (fun bounds r => (bounds.toRange.read r).map f) f least greatest r := by
  have hleast : (fun range : Range (Signed bits) => range.min.val) ∘ toRange = least :=
    funext toRange_min_val
  have hgreatest : (fun range : Range (Signed bits) => range.max.val) ∘ toRange = greatest :=
    funext toRange_max_val
  rw [← hleast, ← hgreatest]
  exact (Range.boundedReads r).map f toRange

end Bounds

/-- **Reads between bounds are exact.** For integers of 32 and of 64 bits, with a range and with the
bounds of an argument type: what is read is taken if and only if it lies between the bounds, and a
read that is refused tells the number and the bound that it misses. -/
theorem bounded_integers_exact (r : Reader) :
    BoundedReads Range.read id (fun range : Range (Signed 32) => range.min.val)
        (fun range => range.max.val) r
      ∧ BoundedReads Range.read id (fun range : Range (Signed 64) => range.min.val)
        (fun range => range.max.val) r
      ∧ BoundedReads (fun bounds => (ArgumentType.integer bounds).read) ArgumentValue.integer
        Bounds.least Bounds.greatest r
      ∧ BoundedReads (fun bounds => (ArgumentType.long bounds).read) ArgumentValue.long
        Bounds.least Bounds.greatest r :=
  ⟨Range.boundedReads r, Range.boundedReads r, Bounds.boundedReads ArgumentValue.integer r,
    Bounds.boundedReads ArgumentValue.long r⟩

/-- Between five and three there is nothing; without a lower bound, `-7` is below ten. -/
theorem bounded_integers_exact_invertedAndOpen :
    (⟨⟨5, by decide, by decide⟩, ⟨3, by decide, by decide⟩⟩ : Range (Signed 32)).read
        (.ofString "4") = (.error ⟨.tooLow "4" "5", .ofString "4"⟩, .ofString "4")
      ∧ (ArgumentType.long ⟨none, some ⟨10, by decide, by decide⟩⟩).read (.ofString "-7 ")
        = (.ok (.long ⟨-7, by decide, by decide⟩), (Reader.ofString "-7 ").advance 2) := by
  constructor
  · obtain ⟨hrange, -⟩ := bounded_integers_exact (.ofString "4")
    have hread : (Reader.ofString "4").number (Signed 32)
        = (.ok ⟨4, by decide, by decide⟩, (Reader.ofString "4").advance 1) := rfl
    exact hrange.tooLow hread (by decide)
  · obtain ⟨-, -, -, hlong⟩ := bounded_integers_exact (.ofString "-7 ")
    exact hlong.ok_iff.mpr ⟨⟨-7, by decide, by decide⟩, rfl, by decide, by decide, rfl⟩

end CommandGrammar
