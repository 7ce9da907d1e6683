import CommandGrammar.Reader.Typed
import Mathlib.Data.List.TakeWhile

/-!
# Numerals at the start of a text

A numeral is found by scans. Each takes a first part of the text that it is given, and nothing but
characters of a word. Both properties pass from the parts of a scan to the whole.
-/

namespace CommandGrammar.Numeral

/-- What is taken is a first part of the text and made of characters of a word. -/
structure IsScan (scan : List Char → List Char) : Prop where
  isPrefix (text : List Char) : scan text <+: text
  isWordChar {text : List Char} {c : Char} : c ∈ scan text → Reader.isWordChar c = true

/-- A scan, and a second one of what the first one leaves. -/
def followedBy (first second : List Char → List Char) (text : List Char) : List Char :=
  first text ++ second (text.drop (first text).length)

/-- A character that passes a test, and a scan of what is behind it. -/
def startingWith (p : Char → Bool) (scan : List Char → List Char) : List Char → List Char
  | c :: text => if p c then c :: scan text else []
  | [] => []

/-! ### Numerals in terms of scans -/

theorem minus_eq : minus = startingWith (· == '-') fun _ => [] := by
  funext text
  cases text with
  | nil => rfl
  | cons c text =>
      by_cases hminus : c = '-'
      · rw [hminus]
        rfl
      · simp [minus, startingWith, hminus]

theorem sign_eq : sign = startingWith (fun c => c == '+' || c == '-') fun _ => [] := by
  funext text
  cases text with
  | nil => rfl
  | cons c text =>
      by_cases hplus : c = '+'
      · rw [hplus]
        rfl
      by_cases hminus : c = '-'
      · rw [hminus]
        rfl
      · simp [sign, startingWith, hplus, hminus]

theorem fraction_eq : fraction = startingWith (· == '.') digits := by
  funext text
  cases text with
  | nil => rfl
  | cons c text =>
      by_cases hdot : c = '.'
      · rw [hdot]
        rfl
      · simp [fraction, startingWith, hdot]

theorem power_eq :
    power = startingWith (fun c => c == 'e' || c == 'E') (followedBy sign digits) := by
  funext text
  cases text <;> rfl

theorem decimal_eq : decimal = followedBy (followedBy digits fraction) power := by
  funext text
  simp only [decimal, followedBy, List.length_append]

/-! ### What scans take -/

theorem isScan_nil : IsScan fun _ => [] where
  isPrefix _ := List.nil_prefix
  isWordChar hc := absurd hc List.not_mem_nil

theorem IsScan.followedBy {first second : List Char → List Char} (hfirst : IsScan first)
    (hsecond : IsScan second) : IsScan (followedBy first second) where
  isPrefix text := by
    obtain ⟨rest, hrest⟩ := hsecond.isPrefix (text.drop (first text).length)
    refine ⟨rest, ?_⟩
    rw [Numeral.followedBy, List.append_assoc, hrest]
    exact List.prefix_iff_eq_append.mp (hfirst.isPrefix text)
  isWordChar hc := (List.mem_append.mp hc).elim hfirst.isWordChar hsecond.isWordChar

theorem IsScan.startingWith {p : Char → Bool} {scan : List Char → List Char}
    (hp : ∀ c, p c = true → Reader.isWordChar c = true) (hscan : IsScan scan) :
    IsScan (startingWith p scan) where
  isPrefix text := by
    cases text with
    | nil => exact List.nil_prefix
    | cons c text =>
        rw [Numeral.startingWith]
        split
        · exact (List.prefix_cons_inj c).mpr (hscan.isPrefix text)
        · exact List.nil_prefix
  isWordChar {text d} hd := by
    cases text with
    | nil => exact absurd hd List.not_mem_nil
    | cons c text =>
        rw [Numeral.startingWith] at hd
        split at hd
        · rename_i hpc
          rcases List.mem_cons.mp hd with rfl | hd
          · exact hp d hpc
          · exact hscan.isWordChar hd
        · exact absurd hd List.not_mem_nil

/-- Scans that are put together of tests which only characters of a word pass. -/
inductive WordScan : (List Char → List Char) → Prop where
  | nothing : WordScan fun _ => []
  | run {p : Char → Bool} (hp : ∀ c, p c = true → Reader.isWordChar c = true) :
      WordScan fun text => text.takeWhile p
  | startingWith {p : Char → Bool} {scan : List Char → List Char}
      (hp : ∀ c, p c = true → Reader.isWordChar c = true) (hscan : WordScan scan) :
      WordScan (startingWith p scan)
  | followedBy {first second : List Char → List Char} (hfirst : WordScan first)
      (hsecond : WordScan second) : WordScan (followedBy first second)

theorem WordScan.isScan {scan : List Char → List Char} (h : WordScan scan) : IsScan scan := by
  induction h with
  | nothing => exact isScan_nil
  | run hp =>
      refine ⟨fun text => List.takeWhile_prefix _, fun {text c} hc => ?_⟩
      exact hp c (List.mem_takeWhile_imp hc)
  | startingWith hp _ ih => exact ih.startingWith hp
  | followedBy _ _ ihfirst ihsecond => exact ihfirst.followedBy ihsecond

theorem isWordChar_of_isDigit (c : Char) (h : c.isDigit = true) : Reader.isWordChar c = true := by
  simp [Reader.isWordChar, Char.isAlphanum, h]

theorem wordScan_digits : WordScan digits := .run isWordChar_of_isDigit

theorem wordScan_minus : WordScan minus := by
  rw [minus_eq]
  refine .startingWith (fun c hc => ?_) .nothing
  rw [eq_of_beq hc]
  rfl

theorem wordScan_sign : WordScan sign := by
  rw [sign_eq]
  refine .startingWith (fun c hc => ?_) .nothing
  rcases Bool.or_eq_true_iff.mp hc with hc | hc <;> rw [eq_of_beq hc] <;> rfl

theorem wordScan_fraction : WordScan fraction := by
  rw [fraction_eq]
  refine .startingWith (fun c hc => ?_) wordScan_digits
  rw [eq_of_beq hc]
  rfl

theorem wordScan_power : WordScan power := by
  rw [power_eq]
  refine .startingWith (fun c hc => ?_) (wordScan_sign.followedBy wordScan_digits)
  rcases Bool.or_eq_true_iff.mp hc with hc | hc <;> rw [eq_of_beq hc] <;> rfl

theorem wordScan_decimal : WordScan decimal := by
  rw [decimal_eq]
  exact (wordScan_digits.followedBy wordScan_fraction).followedBy wordScan_power

/-! ### The kinds of number -/

/-- The numeral behind the sign. -/
def bodyOf : NumberKind → List Char → List Char
  | .int | .long => digits
  | .float | .double => decimal

/-- A type of numbers whose numerals are those of its kind. -/
class LawfulNumeric (α : Type) [Numeric α] : Prop where
  body_eq : Numeric.body α = bodyOf (Numeric.kind α)

instance : LawfulNumeric (Signed 32) := ⟨rfl⟩

instance : LawfulNumeric (Signed 64) := ⟨rfl⟩

instance : LawfulNumeric (Binary .single) := ⟨rfl⟩

instance : LawfulNumeric (Binary .double) := ⟨rfl⟩

theorem wordScan_bodyOf (kind : NumberKind) : WordScan (bodyOf kind) := by
  cases kind with
  | int | long => exact wordScan_digits
  | float | double => exact wordScan_decimal

/-- The sign and the body of a numeral. -/
theorem wordScan_numeral (α : Type) [Numeric α] [LawfulNumeric α] :
    WordScan (followedBy minus (Numeric.body α)) := by
  rw [LawfulNumeric.body_eq]
  exact wordScan_minus.followedBy (wordScan_bodyOf (Numeric.kind α))

/-- A numeral is its sign and its body, and starts behind the sign with a digit. -/
theorem ofText?_eq {body : List Char → List Char} (text : List Char) :
    ofText? body text
      = if (text.drop (minus text).length).head?.any Char.isDigit
        then some (followedBy minus body text) else none := by
  unfold ofText?
  cases hrest : text.drop (minus text).length with
  | nil => simp [hrest]
  | cons c rest =>
      simp only [hrest, List.head?_cons, Option.any_some, followedBy]

/-- A body that starts with a digit is not empty. -/
theorem bodyOf_ne_nil {kind : NumberKind} {text : List Char}
    (hdigit : text.head?.any Char.isDigit = true) : bodyOf kind text ≠ [] := by
  cases text with
  | nil => cases hdigit
  | cons c text =>
      have hdigits : digits (c :: text) = c :: digits text := List.takeWhile_cons_of_pos hdigit
      cases kind with
      | int | long => simp [bodyOf, hdigits]
      | float | double => simp [bodyOf, decimal, hdigits]

end CommandGrammar.Numeral
