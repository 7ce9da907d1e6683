import CommandGrammar.CommandLine.Run
import CommandGrammar.Proofs.Reader.Unbounded
import CommandGrammar.Proofs.Reader.Words
import Mathlib.Order.Basic

/-!
# Plain reads and arguments

The command line reads values by their kind, the nodes of a tree by an argument type. Without bounds
the two read the same, but for infinities and empty words, which are no arguments.
-/

namespace CommandGrammar

/-- The two reads come to the same, but where the plain one gives an infinity, the argument is
refused and the reader stays where it was. -/
structure AgreeUnlessInfinite (f : BinaryFormat) (build : Binary f → ArgumentValue) (r : Reader)
    (plain argument : ReadResult ArgumentValue) : Prop where
  agree : (∀ negative, plain.1 ≠ .ok (build (.infinity f negative))) → plain = argument
  tooHigh : plain.1 = .ok (build (.infinity f false)) → argument
    = (.error ⟨.tooHigh (toString (Binary.infinity f false)) (toString (Binary.highest f)), r⟩, r)
  tooLow : plain.1 = .ok (build (.infinity f true)) → argument
    = (.error ⟨.tooLow (toString (Binary.infinity f true)) (toString (Binary.lowest f)), r⟩, r)

theorem ReadResult.map_eq_ok_iff {α β : Type} {g : α → β} (hg : Function.Injective g)
    {result : ReadResult α} {value : α} :
    (result.map g).1 = .ok (g value) ↔ result.1 = .ok value := by
  obtain ⟨outcome, s⟩ := result
  cases outcome with
  | error e => simp [map, Except.map]
  | ok other => simp [map, Except.map, hg.eq_iff]

theorem agreeUnlessInfinite_full {f : BinaryFormat} [Numeric (Binary f)] [LawfulBinary f]
    {build : Binary f → ArgumentValue} (hbuild : Function.Injective build) (r : Reader) :
    AgreeUnlessInfinite f build r ((r.number (Binary f)).map build)
      (((Range.full (Binary f)).read r).map build) := by
  have hrefused : ∀ negative,
      ((r.number (Binary f)).map build).1 = .ok (build (.infinity f negative)) →
        ((Range.full (Binary f)).read r).map build = (.error ⟨Binary.beyond f negative, r⟩, r) := by
    intro negative hread
    rw [Binary.read_full_of_infinity ((ReadResult.map_eq_ok_iff hbuild).mp hread)]
    rfl
  refine ⟨?_, hrefused false, hrefused true⟩
  intro hfinite
  rw [Binary.read_full]
  intro negative hread
  exact hfinite negative ((ReadResult.map_eq_ok_iff hbuild).mpr hread)

/-! ### Words -/

namespace CommandLine

theorem string_read_of_ne_nil {r : Reader} (h : r.word.1 ≠ []) :
    LexKind.string.read r = ArgumentType.word.read r := by
  rw [LexKind.read, ArgumentType.read, Reader.nonEmptyWord]
  dsimp only
  rw [if_neg h]
  rfl

theorem string_read_of_eq_nil {r : Reader} (h : r.word.1 = []) :
    LexKind.string.read r = (.ok (.word ""), r)
      ∧ ArgumentType.word.read r = (.error ⟨.expectedWord, r⟩, r) := by
  rw [LexKind.read, ArgumentType.read, Reader.nonEmptyWord, Reader.word_of_eq_nil h]
  exact ⟨rfl, rfl⟩

/-- **Plain reads are argument reads.** Wherever the cursor stands, integers and truth values are
read alike, values, errors and cursors. Floating-point numbers are too, but an infinity is too high
or too low for an argument. So are words, but an empty one is no argument. -/
theorem read_agrees_with_argument (r : Reader) :
    LexKind.int.read r = (ArgumentType.integer .none).read r
      ∧ LexKind.long.read r = (ArgumentType.long .none).read r
      ∧ LexKind.bool.read r = ArgumentType.bool.read r
      ∧ AgreeUnlessInfinite .single .float r (LexKind.float.read r)
        ((ArgumentType.float .none).read r)
      ∧ AgreeUnlessInfinite .double .double r (LexKind.double.read r)
        ((ArgumentType.double .none).read r)
      ∧ (r.word.1 ≠ [] → LexKind.string.read r = ArgumentType.word.read r)
      ∧ (r.word.1 = [] → LexKind.string.read r = (.ok (.word ""), r)
        ∧ ArgumentType.word.read r = (.error ⟨.expectedWord, r⟩, r)) := by
  refine ⟨?_, ?_, rfl, ?_, ?_, string_read_of_ne_nil, string_read_of_eq_nil⟩
  · rw [LexKind.read, ArgumentType.read, Bounds.toRange_none, Signed.read_full]
  · rw [LexKind.read, ArgumentType.read, Bounds.toRange_none, Signed.read_full]
  · exact agreeUnlessInfinite_full (fun x y h => ArgumentValue.float.inj h) r
  · exact agreeUnlessInfinite_full (fun x y h => ArgumentValue.double.inj h) r

/-- In single precision `1e39` is an infinity and `-1e39` the other one, in double precision it is
neither. At a space there is no word. -/
theorem read_agrees_with_argument_atEdges :
    (∃ found greatest, (ArgumentType.float .none).read (.ofString "1e39 x")
        = (.error ⟨.tooHigh found greatest, .ofString "1e39 x"⟩, .ofString "1e39 x"))
      ∧ (∃ found least, (ArgumentType.float .none).read (.ofString "-1e39")
        = (.error ⟨.tooLow found least, .ofString "-1e39"⟩, .ofString "-1e39"))
      ∧ LexKind.double.read (.ofString "1e39 x")
        = (ArgumentType.double .none).read (.ofString "1e39 x")
      ∧ LexKind.string.read (.ofString "1e39 x") = ArgumentType.word.read (.ofString "1e39 x")
      ∧ LexKind.string.read (.ofString " x") = (.ok (.word ""), .ofString " x")
      ∧ ArgumentType.word.read (.ofString " x")
        = (.error ⟨.expectedWord, .ofString " x"⟩, .ofString " x") := by
  obtain ⟨-, -, -, hfloat, hdouble, hword, -⟩ := read_agrees_with_argument (.ofString "1e39 x")
  obtain ⟨-, -, -, hnegative, -, -, -⟩ := read_agrees_with_argument (.ofString "-1e39")
  obtain ⟨-, -, -, -, -, -, hempty⟩ := read_agrees_with_argument (.ofString " x")
  refine ⟨⟨_, _, hfloat.tooHigh ?_⟩, ⟨_, _, hnegative.tooLow ?_⟩, hdouble.agree ?_, hword ?_,
    hempty rfl⟩
  · decide +kernel
  · decide +kernel
  · decide +kernel
  · decide

end CommandLine

end CommandGrammar
