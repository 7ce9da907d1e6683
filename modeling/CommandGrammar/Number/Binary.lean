import CommandGrammar.Number.Decimal
import CommandGrammar.Number.Power

/-!
# Binary floating-point numbers

The magnitudes of a format are numbered in increasing order: zero has rank 0, the smallest positive
number rank 1, and so on up to infinity. A number is a sign and a rank, its bit pattern is the two
written side by side, and numbers compare as their ranks do. Rounding goes to the nearest number, a
tie to the even rank.
-/

namespace CommandGrammar

/-- A format with `precision` binary digits and `exponentBits` bits of exponent. -/
structure BinaryFormat where
  precision : Nat
  exponentBits : Nat
deriving DecidableEq, Repr

namespace BinaryFormat

def single : BinaryFormat := ⟨24, 8⟩

def double : BinaryFormat := ⟨53, 11⟩

variable (f : BinaryFormat)

/-- The number of magnitudes that share an exponent. -/
def binade : Nat := twoTo (f.precision - 1)

/-- The exponent of the smallest positive number. -/
def leastExponent : Int := 3 - twoTo (f.exponentBits - 1) - f.precision

def infinityRank : Nat := (twoTo f.exponentBits - 1) * f.binade

/-- The magnitude with rank `rank` is `significand * 2 ^ exponent`. -/
def significand (rank : Nat) : Nat :=
  if rank < f.binade then rank else f.binade + rank % f.binade

def exponent (rank : Nat) : Int := f.leastExponent + (rank / f.binade - 1 : Nat)

/-- The whole number nearest to a ratio; a tie goes to the even one. -/
def roundRatio (num den : Nat) : Nat :=
  let q := num / den
  let twice := 2 * (num % den)
  if twice < den then q else if den < twice then q + 1 else q + q % 2

/-- The exponent of the leading binary digit of a positive ratio. -/
def leadingExponent (num den : Nat) : Int :=
  let guess : Int := num.log2 - den.log2
  if den * twoTo guess.toNat ≤ num * twoTo (-guess).toNat then guess else guess - 1

/-- The rank of the magnitude nearest to `num / den`. -/
def rankOfRatio (num den : Nat) : Nat :=
  if num = 0 then 0
  else
    let step := (leadingExponent num den - (f.precision - 1) - f.leastExponent).toNat
    let exponent := f.leastExponent + step
    let q := roundRatio (num * twoTo (-exponent).toNat) (den * twoTo exponent.toNat)
    min (step * f.binade + q) f.infinityRank

/-- A finite magnitude as a ratio. -/
def ratioOfRank (rank : Nat) : Nat × Nat :=
  let exponent := f.exponent rank
  (f.significand rank * twoTo exponent.toNat, twoTo (-exponent).toNat)

end BinaryFormat

/-- A number of a binary format; a rank above infinity is not a number. -/
structure Binary (f : BinaryFormat) where
  negative : Bool
  rank : Nat
deriving DecidableEq, Repr, Inhabited

namespace Binary

variable {f g : BinaryFormat}

def infinity (f : BinaryFormat) (negative : Bool) : Binary f := ⟨negative, f.infinityRank⟩

def nan (f : BinaryFormat) : Binary f := ⟨false, f.infinityRank + f.binade / 2⟩

def highest (f : BinaryFormat) : Binary f := ⟨false, f.infinityRank - 1⟩

def lowest (f : BinaryFormat) : Binary f := ⟨true, f.infinityRank - 1⟩

def isNaN (x : Binary f) : Bool := f.infinityRank < x.rank

def isFinite (x : Binary f) : Bool := x.rank < f.infinityRank

def isZero (x : Binary f) : Bool := x.rank == 0

/-- The bit pattern, the sign in front. -/
def bits (x : Binary f) : Nat :=
  x.rank + if x.negative then twoTo (f.precision + f.exponentBits - 1) else 0

/-- Numbers are ordered as these integers; both zeros have the same one. -/
def key (x : Binary f) : Int := if x.negative then -(x.rank : Int) else x.rank

/-- The numeric order; nothing is below or above what is not a number. -/
def lt (x y : Binary f) : Bool := !x.isNaN && !y.isNaN && decide (x.key < y.key)

/-- Numeric equality: zeros are equal, and what is not a number equals nothing. -/
def same (x y : Binary f) : Bool := !x.isNaN && !y.isNaN && decide (x.key = y.key)

/-- The number nearest to a ratio with a sign. -/
def ofRatio (f : BinaryFormat) (negative : Bool) (num den : Nat) : Binary f :=
  ⟨negative, f.rankOfRatio num den⟩

def ofInt (f : BinaryFormat) (n : Int) : Binary f := ofRatio f (decide (n < 0)) n.natAbs 1

/-- The number nearest to a decimal. Beyond the four hundredth decimal place, on either side of the
point, every format here has only infinity and zero. -/
def ofDecimal (f : BinaryFormat) (d : Decimal) : Binary f :=
  let places := d.exponent + (Digits.ofNat d.significand).length
  if d.significand = 0 ∨ places < -400 then ⟨d.negative, 0⟩
  else if 400 < places then infinity f d.negative
  else ofRatio f d.negative (d.significand * tenTo d.exponent.toNat) (tenTo (-d.exponent).toNat)

def ofNumeral? (f : BinaryFormat) (text : List Char) : Option (Binary f) :=
  (Decimal.ofChars? text).map (ofDecimal f)

def convert (g : BinaryFormat) (x : Binary f) : Binary g :=
  if x.isNaN then nan g
  else if x.isFinite then
    ofRatio g x.negative (f.ratioOfRank x.rank).1 (f.ratioOfRank x.rank).2
  else infinity g x.negative

/-- The rounded product of two finite numbers. -/
def mul (x y : Binary f) : Binary f :=
  let (a, b) := f.ratioOfRank x.rank
  let (c, d) := f.ratioOfRank y.rank
  ofRatio f (x.negative != y.negative) (a * c) (b * d)

/-- The rounded quotient of two finite numbers, the second not zero. -/
def div (x y : Binary f) : Binary f :=
  let (a, b) := f.ratioOfRank x.rank
  let (c, d) := f.ratioOfRank y.rank
  ofRatio f (x.negative != y.negative) (a * d) (b * c)

theorem isNaN_of_isFinite {x : Binary f} (h : x.isFinite = true) : x.isNaN = false := by
  simp only [isFinite, isNaN, decide_eq_true_eq, decide_eq_false_iff_not] at h ⊢
  omega

theorem rankOfRatio_le (f : BinaryFormat) (num den : Nat) : f.rankOfRatio num den ≤ f.infinityRank := by
  unfold BinaryFormat.rankOfRatio
  split
  · exact Nat.zero_le _
  · exact Nat.min_le_right _ _

end Binary

end CommandGrammar
