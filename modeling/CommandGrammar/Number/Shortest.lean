import CommandGrammar.Number.Binary

/-!
# Shortest decimals

The shortest decimal that rounds to a given binary number, and of several the nearest to it. A
decimal grid of width `10 ^ k` is tried from coarse to fine; on each one only the two grid points
around the number can be the answer.
-/

namespace CommandGrammar

/-- Which of two equally near grid points is taken. -/
inductive Tie where
  | up
  | even
deriving DecidableEq, Repr

/-- The magnitudes that round to one rank, in quarters of its last binary place. -/
structure RoundingInterval where
  lower : Nat
  centre : Nat
  upper : Nat
  /-- Whether the two ends belong to it. -/
  closed : Bool
  /-- The exponent of two of the quarter. -/
  exponent : Int

namespace RoundingInterval

/-- The gap below a power of two is half as wide as the gap above it. -/
def ofRank (f : BinaryFormat) (rank : Nat) : RoundingInterval :=
  let m := f.significand rank
  let narrow := rank % f.binade == 0 && f.binade < rank
  ⟨4 * m - (if narrow then 1 else 2), 4 * m, 4 * m + 2, m % 2 == 0, f.exponent rank - 2⟩

/-- The point `q` of the grid `10 ^ k`, if it lies in the interval, as digits and a power of ten. -/
def gridPoint? (i : RoundingInterval) (scale unit : Nat) (q : Nat) : Bool :=
  let point := q * unit
  if i.closed then decide (i.lower * scale ≤ point ∧ point ≤ i.upper * scale)
  else decide (i.lower * scale < point ∧ point < i.upper * scale)

/-- The grid point nearest to the centre among those in the interval. -/
def onGrid? (i : RoundingInterval) (tie : Tie) (k : Int) : Option Nat :=
  let scale := twoTo i.exponent.toNat * tenTo (-k).toNat
  let unit := twoTo (-i.exponent).toNat * tenTo k.toNat
  let q := i.centre * scale / unit
  let below := 0 < q && i.gridPoint? scale unit q
  let above := i.gridPoint? scale unit (q + 1)
  let fromBelow := i.centre * scale - q * unit
  let toAbove := (q + 1) * unit - i.centre * scale
  if below && above then
    if fromBelow < toAbove then some q
    else if toAbove < fromBelow then some (q + 1)
    else match tie with
      | .up => some (q + 1)
      | .even => some (q + q % 2)
  else if below then some q
  else if above then some (q + 1)
  else none

/-- The first hit on `tries` grids from `10 ^ k` down. -/
def search (i : RoundingInterval) (tie : Tie) : Nat → Int → Option (Nat × Int)
  | 0, _ => none
  | tries + 1, k =>
    match i.onGrid? tie k with
    | some q => some (q, k)
    | none => search i tie tries (k - 1)

end RoundingInterval

/-- The shortest decimal `digits * 10 ^ k` that rounds to a positive finite rank. The coarsest grid
tried is wider than the number, and 17 digits tell any two numbers of 64 bits apart. -/
def shortestDecimal (f : BinaryFormat) (tie : Tie) (rank : Nat) : Nat × Int :=
  let i := RoundingInterval.ofRank f rank
  let leading : Int := i.centre.log2 + i.exponent
  let coarsest := (leading + 1) * 30103 / 100000 + 1
  (i.search tie 24 coarsest).getD (0, 0)

end CommandGrammar
