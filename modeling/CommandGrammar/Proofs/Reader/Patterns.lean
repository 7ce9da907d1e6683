import CommandGrammar.Proofs.Number.Digits
import CommandGrammar.Proofs.Reader.Numerals
import Mathlib.Computability.RegularExpressions

/-!
# Patterns of numerals

The numerals of a kind of number are the matches of a regular expression. What a scan takes is the
longest match at the start of a text: it is a match, and a prefix of the text that is a match too can
only stop where the scan goes on.
-/

namespace CommandGrammar

abbrev Pattern := RegularExpression Char

namespace Pattern

def oneOf (cs : List Char) : Pattern := (cs.map .char).sum

def optional (p : Pattern) : Pattern := 1 + p

def plus (p : Pattern) : Pattern := p * p.star

def digit : Pattern := oneOf ['0', '1', '2', '3', '4', '5', '6', '7', '8', '9']

/-- `-?` -/
def minusSign : Pattern := optional (.char '-')

/-- `[+-]?` -/
def plusOrMinus : Pattern := optional (oneOf ['+', '-'])

/-- `(\.[0-9]*)?` -/
def fractionPart : Pattern := optional (.char '.' * digit.star)

/-- `([eE][+-]?[0-9]*)?` -/
def powerPart : Pattern := optional (oneOf ['e', 'E'] * (plusOrMinus * digit.star))

/-- `-?[0-9]` -/
def opening : Pattern := minusSign * digit

/-- `-?[0-9]+` -/
def integer : Pattern := minusSign * plus digit

/-- `-?[0-9]+(\.[0-9]*)?([eE][+-]?[0-9]*)?` -/
def decimal : Pattern := minusSign * (plus digit * fractionPart * powerPart)

def ofKind : NumberKind → Pattern
  | .int | .long => integer
  | .float | .double => decimal

/-- Some prefix of the text matches. -/
def Opens (p : Pattern) (text : List Char) : Prop := ∃ token, token <+: text ∧ token ∈ p.matches'

/-- Of the prefixes of the text that match, the token is the longest. -/
structure IsLongestMatch (p : Pattern) (text token : List Char) : Prop where
  isPrefix : token <+: text
  isMatch : token ∈ p.matches'
  longest {other : List Char} : other <+: text → other ∈ p.matches' → other.length ≤ token.length

theorem IsLongestMatch.eq {p : Pattern} {text left right : List Char}
    (hleft : IsLongestMatch p text left) (hright : IsLongestMatch p text right) : left = right := by
  have hle := hright.longest hleft.isPrefix hleft.isMatch
  have hge := hleft.longest hright.isPrefix hright.isMatch
  exact (List.prefix_of_prefix_length_le hleft.isPrefix hright.isPrefix hle).eq_of_length
    (Nat.le_antisymm hle hge)

/-! ### Classes of characters -/

/-- The matches are the single characters that pass the test. -/
def IsClass (p : Pattern) (test : Char → Bool) : Prop :=
  ∀ token, token ∈ p.matches' ↔ ∃ c, test c = true ∧ token = [c]

theorem isClass_char (c : Char) : IsClass (.char c) (· == c) := by
  intro token
  rw [RegularExpression.matches'_char]
  constructor
  · intro h
    exact ⟨c, BEq.rfl, h⟩
  · rintro ⟨d, hd, rfl⟩
    rw [eq_of_beq hd]
    rfl

theorem isClass_oneOf (cs : List Char) : IsClass (oneOf cs) cs.contains := by
  intro token
  induction cs with
  | nil => simp [oneOf, RegularExpression.matches']
  | cons c cs ih =>
      have hcons : token ∈ (oneOf (c :: cs)).matches'
          ↔ token = [c] ∨ token ∈ (oneOf cs).matches' := Iff.rfl
      rw [hcons, ih]
      simp only [List.contains_cons, Bool.or_eq_true, beq_iff_eq]
      constructor
      · rintro (rfl | ⟨d, hd, rfl⟩)
        · exact ⟨c, .inl rfl, rfl⟩
        · exact ⟨d, .inr hd, rfl⟩
      · rintro ⟨d, rfl | hd, rfl⟩
        · exact .inl rfl
        · exact .inr ⟨d, hd, rfl⟩

theorem isClass_oneOf_pair (a b : Char) : IsClass (oneOf [a, b]) fun c => c == a || c == b := by
  have htest : [a, b].contains = fun c => c == a || c == b := by
    funext c
    simp only [List.contains_cons, List.contains_nil, Bool.or_false]
  rw [← htest]
  exact isClass_oneOf [a, b]

/-- The characters that count as digits are the ten that are listed. -/
theorem isClass_digit : IsClass digit Char.isDigit := by
  have hten : ['0', '1', '2', '3', '4', '5', '6', '7', '8', '9'] = (List.range 10).map Digits.digit := by
    decide
  have hlisted : ((List.range 10).map Digits.digit).contains = Char.isDigit := by
    funext c
    apply Bool.eq_iff_iff.mpr
    rw [List.contains_iff_mem, List.mem_map]
    constructor
    · rintro ⟨d, hd, rfl⟩
      exact Digits.isDigit_digit (List.mem_range.mp hd)
    · intro hc
      exact ⟨Digits.weight c, List.mem_range.mpr (Digits.weight_lt_ten hc), Digits.digit_weight hc⟩
  rw [digit, hten, ← hlisted]
  exact isClass_oneOf _

variable {p : Pattern} {test : Char → Bool} {token : List Char}

theorem mem_star_iff (hp : IsClass p test) :
    token ∈ p.star.matches' ↔ ∀ c ∈ token, test c = true := by
  rw [RegularExpression.matches'_star, Language.mem_kstar]
  constructor
  · rintro ⟨parts, rfl, hparts⟩ c hc
    obtain ⟨part, hpart, hc⟩ := List.mem_flatten.mp hc
    obtain ⟨d, hd, rfl⟩ := (hp part).mp (hparts part hpart)
    rwa [List.mem_singleton.mp hc]
  · intro h
    refine ⟨token.map fun c => [c], (List.flatMap_singleton' token).symm, fun part hpart => ?_⟩
    obtain ⟨c, hc, rfl⟩ := List.mem_map.mp hpart
    exact (hp [c]).mpr ⟨c, h c hc, rfl⟩

theorem mem_class_mul_iff (hp : IsClass p test) {L : Language Char} :
    token ∈ p.matches' * L ↔ ∃ c rest, test c = true ∧ rest ∈ L ∧ token = c :: rest := by
  rw [Language.mem_mul]
  constructor
  · rintro ⟨single, hsingle, rest, hrest, rfl⟩
    obtain ⟨c, hc, rfl⟩ := (hp single).mp hsingle
    exact ⟨c, rest, hc, hrest, rfl⟩
  · rintro ⟨c, rest, hc, hrest, rfl⟩
    exact ⟨[c], (hp [c]).mpr ⟨c, hc, rfl⟩, rest, hrest, rfl⟩

theorem mem_plus_iff (hp : IsClass p test) :
    token ∈ (plus p).matches' ↔ token ≠ [] ∧ ∀ c ∈ token, test c = true := by
  rw [plus, RegularExpression.matches'_mul, mem_class_mul_iff hp]
  constructor
  · rintro ⟨c, rest, hc, hrest, rfl⟩
    rw [mem_star_iff hp] at hrest
    exact ⟨List.cons_ne_nil _ _, List.forall_mem_cons.mpr ⟨hc, hrest⟩⟩
  · rintro ⟨hnonempty, hall⟩
    obtain ⟨c, rest, rfl⟩ := List.exists_cons_of_ne_nil hnonempty
    obtain ⟨hc, hrest⟩ := List.forall_mem_cons.mp hall
    exact ⟨c, rest, hc, (mem_star_iff hp).mpr hrest, rfl⟩

theorem mem_optional_iff : token ∈ (optional p).matches' ↔ token = [] ∨ token ∈ p.matches' :=
  Iff.rfl

end Pattern

end CommandGrammar
