import Grounding.Arithmetic.Operations
import Grounding.Number.Elementary

/-!
# Powers

The power of two integers with a nonnegative exponent is exact or an overflow. Exponents beyond 32
bits are refused, whatever the base. For a negative exponent `^` insists on an integer result, while
`**` turns to floats.
-/

namespace Grounding.Number

/-- The least exponent that is refused. -/
def exponentBound : Nat := 0x100000000

/-- The product of two integers, if it fits the machine word. -/
def product? (x y : Int64) : Option Int64 := word? (x.toInt * y.toInt)

/-- The product of `acc` and the power of `base` by repeated squaring, where every product is
checked. The base is not squared any more when the exponent is used up. -/
def squaring? (acc base : Int64) (exponent : Nat) : Option Int64 :=
  if exponent = 0 then some acc
  else
    (if exponent % 2 = 1 then product? acc base else some acc).bind fun acc =>
      if exponent = 1 then some acc
      else (product? base base).bind fun square => squaring? acc square (exponent / 2)
termination_by exponent

/-- The power of an integer, if it fits the machine word. -/
def wordPower? (base : Int64) (exponent : Nat) : Option Int64 := squaring? 1 base exponent

/-- The power of two integers with a nonnegative exponent. -/
def naturalPower (name : String) (base exponent : Int64) : Except Error Number :=
  if exponentBound ≤ exponent.toInt then fault (.exponentTooLarge exponent)
  else match wordPower? base exponent.toInt.toNat with
    | some i => .ok (.int i)
    | none => fault (.overflow base name exponent)

/-- The power of two integers with a negative exponent, if it is an integer. -/
def inversePower (name : String) (base exponent : Int64) : Except Error Number :=
  if base.toInt = 1 then .ok (.int 1)
  else if base.toInt = -1 then .ok (.int (if exponent.toInt % 2 = 0 then 1 else -1))
  else if base.toInt = 0 then fault .divisionByZero
  else fault (.negativeExponent base name exponent)

/-- The power of two floats. Zero has no negative powers, and a negative base no fractional ones. -/
def floatPower (name : String) (base exponent : Binary64) : Except Error Number :=
  if base.isZero && exponent.lt .zero then fault .divisionByZero
  else
    let power := base.pow exponent
    if power.isNaN && !base.isNaN && !exponent.isNaN then
      fault (.undefinedPower base name exponent)
    else .ok (.float power)

/-- The power that turns to floats for a negative exponent. -/
def power (name : String) : Number → Number → Except Error Number
  | .int base, .int exponent =>
    if 0 ≤ exponent.toInt then naturalPower name base exponent
    else floatPower name (.ofInt base.toInt) (.ofInt exponent.toInt)
  | a, b => floatPower name a.toBinary64 b.toBinary64

/-- The power that stays integral on integers. -/
def integerPower (name : String) : Number → Number → Except Error Number
  | .int base, .int exponent =>
    if 0 ≤ exponent.toInt then naturalPower name base exponent
    else inversePower name base exponent
  | a, b => floatPower name a.toBinary64 b.toBinary64

end Grounding.Number
