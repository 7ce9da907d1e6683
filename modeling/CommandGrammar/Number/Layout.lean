import CommandGrammar.Number.Shortest

/-!
# The text of a binary number

A layout says when the shortest digits are written around a point and when with a power of ten, and
how the values without digits are spelled.
-/

namespace CommandGrammar

structure Layout where
  /-- The choice between two shortest decimals that are equally near. -/
  tie : Tie
  /-- The number of digits before the point for which a power of ten is not needed, as least and
  greatest count; a negative count stands for zeros behind the point. -/
  positional : Option (Int × Int)
  /-- What follows a whole number. -/
  wholeMark : List Char
  /-- The letter of the power of ten, with the sign of a positive power. -/
  powerMark : List Char
  negativePowerMark : List Char
  infinity : List Char
  negativeInfinity : List Char
  nan : List Char

namespace Layout

def zeros (n : Nat) : List Char := List.replicate n '0'

/-- Digits with the point behind the first `point` of them. -/
def pointed (layout : Layout) (digits : List Char) (point : Int) : List Char :=
  if point ≤ 0 then '0' :: '.' :: zeros (-point).toNat ++ digits
  else if point < digits.length then
    digits.take point.toNat ++ '.' :: digits.drop point.toNat
  else digits ++ zeros (point - digits.length).toNat ++ layout.wholeMark

/-- One digit, the point, the other digits and a power of ten. -/
def powered (layout : Layout) (digits : List Char) (point : Int) : List Char :=
  let lead := match digits with
    | [] => []
    | [d] => [d]
    | d :: rest => d :: '.' :: rest
  let power := point - 1
  lead ++ (if power < 0 then layout.negativePowerMark else layout.powerMark)
    ++ Digits.ofNat power.natAbs

def magnitude (layout : Layout) (f : BinaryFormat) (rank : Nat) : List Char :=
  if rank = 0 then '0' :: layout.wholeMark
  else
    let (value, k) := shortestDecimal f layout.tie rank
    let digits := Digits.ofNat value
    let point := k + digits.length
    let plain := match layout.positional with
      | none => true
      | some (least, greatest) => decide (least ≤ point ∧ point ≤ greatest)
    if plain then layout.pointed digits point else layout.powered digits point

def render (layout : Layout) {f : BinaryFormat} (x : Binary f) : List Char :=
  if x.isNaN then layout.nan
  else if x.isFinite then
    (if x.negative then ['-'] else []) ++ layout.magnitude f x.rank
  else if x.negative then layout.negativeInfinity else layout.infinity

/-- Digits around a point however long, whole numbers without one. -/
def plain : Layout where
  tie := .up
  positional := none
  wholeMark := []
  powerMark := []
  negativePowerMark := []
  infinity := "inf".toList
  negativeInfinity := "-inf".toList
  nan := "NaN".toList

end Layout

instance {f : BinaryFormat} : ToString (Binary f) := ⟨fun x => String.ofList (Layout.plain.render x)⟩

end CommandGrammar
