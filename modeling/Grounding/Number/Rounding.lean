import Grounding.Number.Binary64

/-!
# Rounding to and from binary64

`ofRatio` is the one place where an exact rational becomes a float: the nearest one, and of two
equally near ones the one with the even significand. Integers become floats through it, and the sum,
difference, product and quotient of two floats are the exact results rounded by it.

In the other direction `floor`, `ceil`, `truncate` and `round` give the whole number near a float as
an exact `Int`.
-/

namespace Grounding.Binary64

/-- The quotient rounded to the nearest whole number, ties to the even one. -/
def roundQuotient (num den : Nat) : Nat :=
  let quotient := num / den
  let twice := 2 * (num % den)
  if twice < den then quotient
  else if den < twice then quotient + 1
  else quotient + quotient % 2

/-- How far the unit of the last place lies above `2 ^ -1074` for `num / den` such units. -/
def lastPlace (num den : Nat) : Nat := (num / den).log2 - 52

/-- The magnitude bits of the float nearest to `num / den` units of `2 ^ -1074`. -/
def roundMagnitude (num den : Nat) : Nat :=
  let place := lastPlace num den
  min (place * hiddenBit + roundQuotient num (den <<< place)) infiniteMagnitude

/-- The float nearest to `num / den` units of `2 ^ -1074`, with the given sign. -/
def ofRatio (negative : Bool) (num den : Nat) : Binary64 :=
  ofParts negative (roundMagnitude num den)

/-- The float nearest to an integer. -/
def ofInt (z : Int) : Binary64 := ofRatio (z < 0) (z.natAbs * unitsPerOne) 1

/-- The sum. A zero sum is negative only if both terms are. -/
def add (x y : Binary64) : Binary64 :=
  if x.isNaN then x
  else if y.isNaN then y
  else if x.isInfinite then
    if y.isInfinite && x.negative != y.negative then invalid else x
  else if y.isInfinite then y
  else
    let sum := x.signedUnits + y.signedUnits
    let negative := if sum = 0 then x.negative && y.negative else sum < 0
    ofRatio negative sum.natAbs 1

/-- The difference. -/
def sub (x y : Binary64) : Binary64 := if y.isNaN && !x.isNaN then y else x.add y.neg

/-- The product; its sign is set if exactly one factor's is. -/
def mul (x y : Binary64) : Binary64 :=
  let negative := x.negative != y.negative
  if x.isNaN then x
  else if y.isNaN then y
  else if x.isInfinite || y.isInfinite then
    if x.isZero || y.isZero then invalid else ofParts negative infiniteMagnitude
  else ofRatio negative (x.units * y.units) unitsPerOne

/-- The quotient; its sign is set if exactly one operand's is. -/
def div (x y : Binary64) : Binary64 :=
  let negative := x.negative != y.negative
  if x.isNaN then x
  else if y.isNaN then y
  else if x.isInfinite then
    if y.isInfinite then invalid else ofParts negative infiniteMagnitude
  else if y.isInfinite then ofParts negative 0
  else if y.isZero then
    if x.isZero then invalid else ofParts negative infiniteMagnitude
  else ofRatio negative (x.units * unitsPerOne) y.units

/-- The whole number of greatest absolute value that does not exceed the float's. -/
def truncate (x : Binary64) : Int := x.signedUnits.tdiv unitsPerOne

/-- The greatest whole number that is not above the float. -/
def floor (x : Binary64) : Int := x.signedUnits.fdiv unitsPerOne

/-- The least whole number that is not below the float. -/
def ceil (x : Binary64) : Int := -(-x.signedUnits).fdiv unitsPerOne

/-- The nearest whole number, a half going away from zero. -/
def round (x : Binary64) : Int :=
  (2 * x.signedUnits + x.signedUnits.sign * unitsPerOne).tdiv (2 * unitsPerOne)

end Grounding.Binary64
