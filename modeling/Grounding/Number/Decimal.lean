import Grounding.Number.Binary64

/-!
# Decimal digits of a float

`shortest` finds the decimal with the fewest digits that still reads back as the same float, and of
those the one nearest to it. The powers of ten are tried from the coarsest down; the first grid with
a point inside the float's rounding interval has the fewest digits, and one of the two neighbours of
the float on that grid is such a point.

The three layouts below write a finite float with these digits: positionally, positionally with a
fraction always shown, and with an exponent where the number is very large or very small.
-/

namespace Grounding

/-- The decimal `digits * 10 ^ exponent`. -/
structure Decimal where
  digits : Nat
  exponent : Int
deriving DecidableEq

namespace Decimal

/-- The positional notation of a decimal, without a point if it is whole. -/
def positional (d : Decimal) : String :=
  let text := toString d.digits
  if 0 ≤ d.exponent then text ++ String.ofList (List.replicate d.exponent.toNat '0')
  else
    let places := d.exponent.natAbs
    let padded := List.replicate (places + 1 - text.length) '0' ++ text.toList
    String.ofList (padded.take (padded.length - places)) ++ "." ++
      String.ofList (padded.drop (padded.length - places))

/-- The notation with one digit before the point and a power of ten after `e`. -/
def scientific (d : Decimal) : String :=
  let text := (toString d.digits).toList
  let power := toString (d.exponent + (text.length - 1 : Nat))
  match text with
  | [] => "e" ++ power
  | [c] => String.ofList [c] ++ "e" ++ power
  | c :: rest => String.ofList [c] ++ "." ++ String.ofList rest ++ "e" ++ power

end Decimal

namespace Binary64

/-- The numbers that round to a positive float lie between `low` and `high`, with the float itself
at `value`, all in units of `2 ^ -1076`. -/
structure RoundingInterval where
  low : Nat
  value : Nat
  high : Nat
  /-- Whether the ends round to the float too. -/
  closed : Bool

/-- Half the way to either neighbour; the lower one is nearer to a power of two. An end rounds to
the float if its significand is even. -/
def roundingInterval (x : Binary64) : RoundingInterval :=
  let step := 1 <<< x.scale
  let value := 4 * x.units
  let below := if x.significand = hiddenBit && 0 < x.scale then step else 2 * step
  ⟨value - below, value, value + 2 * step, x.significand % 2 = 0⟩

namespace RoundingInterval

/-- Whether `point / scaleUp` lies in the interval. -/
def contains (i : RoundingInterval) (scaleUp point : Nat) : Bool :=
  if i.closed then i.low * scaleUp ≤ point && point ≤ i.high * scaleUp
  else i.low * scaleUp < point && point < i.high * scaleUp

/-- The multiple of `10 ^ exponent` in the interval that is nearest to the value, a tie going up. -/
def nearestMultiple? (i : RoundingInterval) (exponent : Int) : Option Nat :=
  let scaleUp := Nat.pow 10 (-exponent).toNat
  let grid := 4 * unitsPerOne * Nat.pow 10 exponent.toNat
  let value := i.value * scaleUp
  let count := value / grid
  let lower := count * grid
  let upper := lower + grid
  match i.contains scaleUp lower, i.contains scaleUp upper with
  | true, true => some (if value - lower < upper - value then count else count + 1)
  | true, false => some count
  | false, true => some (count + 1)
  | false, false => none

/-- Tries `grids` powers of ten from `10 ^ exponent` down. -/
def search (i : RoundingInterval) : (grids : Nat) → (exponent : Int) → Decimal
  | 0, exponent => ⟨0, exponent⟩
  | grids + 1, exponent =>
    match i.nearestMultiple? exponent with
    | some count => ⟨count, exponent⟩
    | none => i.search grids (exponent - 1)

end RoundingInterval

/-- The shortest decimal that reads back as the absolute value of a finite float. Every nonzero
float is below `10 ^ 309` and distinguished from its neighbours by the grid of `10 ^ -341`. -/
def shortest (x : Binary64) : Decimal :=
  if x.isZero then ⟨0, 0⟩ else x.roundingInterval.search 651 309

/-- Writes the sign of a float before the text of its absolute value; infinities and NaNs have
texts of their own. -/
def layout (finite : Binary64 → String) (x : Binary64) : String :=
  if x.isNaN then "NaN"
  else (if x.negative then "-" else "") ++ if x.isInfinite then "inf" else finite x

/-- The shortest digits in positional notation; a whole number has no fraction. -/
def plainText : Binary64 → String := layout fun x => x.shortest.positional

/-- Whole numbers with all their digits and the fraction `.0`, others as in `plainText`. -/
def pointText : Binary64 → String := layout fun x =>
  if x.isWhole then toString (x.units / unitsPerOne) ++ ".0" else x.shortest.positional

/-- The shortest digits, with a fraction always shown; with an exponent from `10 ^ 16` on and below
`10 ^ -4`. -/
def scientificText : Binary64 → String := layout fun x =>
  if x.isZero then "0.0"
  else if Nat.pow 10 16 * unitsPerOne ≤ x.units || x.units * Nat.pow 10 4 < unitsPerOne then
    x.shortest.scientific
  else if x.isWhole then x.shortest.positional ++ ".0"
  else x.shortest.positional

end Binary64

end Grounding
