import Grounding.Error

/-!
# Arithmetic operations

Operations on two integers are computed exactly and give an integer or an error: a result outside
the machine word is an overflow, never a wrapped or rounded number. As soon as one operand is a
float, both are read as floats.

Remainders are computed within the machine word, from a checked remainder that exists only where
the quotient fits.
-/

namespace Grounding.Number

/-- An error of arithmetic. -/
def fault (f : ArithmeticFault) : Except Error Number := .error (.arithmetic f)

/-- The exact result of a binary operation, if it fits the machine word. -/
def fitting (name : String) (x y : Int64) (result : Int) : Except Error Number :=
  match word? result with
  | some i => .ok (.int i)
  | none => fault (.overflow x name y)

/-- The exact result of a unary operation, if it fits the machine word. -/
def fittingUnary (name : String) (x : Int64) (result : Int) : Except Error Number :=
  match word? result with
  | some i => .ok (.int i)
  | none => fault (.unaryOverflow name x)

/-- An operation that stays integral on integers. -/
def checked (name : String) (onInts : Int → Int → Int) (onFloats : Binary64 → Binary64 → Binary64) :
    Number → Number → Except Error Number
  | .int x, .int y => fitting name x y (onInts x.toInt y.toInt)
  | a, b => .ok (.float (onFloats a.toBinary64 b.toBinary64))

def add : Number → Number → Except Error Number := checked "+" (· + ·) Binary64.add

def sub : Number → Number → Except Error Number := checked "-" (· - ·) Binary64.sub

def mul : Number → Number → Except Error Number := checked "*" (· * ·) Binary64.mul

/-- The quotient truncated toward zero. There is none by zero, and none outside the machine word. -/
def quotient? (x y : Int64) : Option Int64 :=
  if y.toInt = 0 then none else word? (x.toInt.tdiv y.toInt)

/-- The remainder with the sign of the dividend, wherever there is a quotient. -/
def remainder? (x y : Int64) : Option Int64 :=
  (quotient? x y).bind fun _ => word? (x.toInt.tmod y.toInt)

/-- Division. An exact quotient of two integers is an integer, any other quotient a float. -/
def div (a b : Number) : Except Error Number :=
  if b.toBinary64.isZero then fault .divisionByZero
  else match a, b with
    | .int x, .int y =>
      if remainder? x y = some 0 then
        match quotient? x y with
        | some q => .ok (.int q)
        | none => fault (.overflow x "/" y)
      else .ok (.float ((Binary64.ofInt x.toInt).div (.ofInt y.toInt)))
    | a, b => .ok (.float (a.toBinary64.div b.toBinary64))

/-- An operation of integer division, which takes integers only and no divisor that is zero. -/
def integral (name : String) (op : Int64 → Int64 → Except Error Number) :
    Number → Number → Except Error Number
  | .int x, .int y => if y = 0 then fault .divisionByZero else op x y
  | a, b => .error (.incorrectArgument (.expectsIntegers name a b))

/-- The quotient truncated toward zero. -/
def intDiv : Number → Number → Except Error Number :=
  integral "//" fun x y =>
    match quotient? x y with
    | some q => .ok (.int q)
    | none => fault (.overflow x "//" y)

/-- The remainder with the sign of the dividend. Where the quotient does not fit the machine word
the division has no remainder. -/
def truncatedRemainder (x y : Int64) : Int64 := (remainder? x y).getD 0

/-- The remainder with the sign of the divisor: one with the other sign is off by the divisor. -/
def flooredRemainder (x y : Int64) : Int64 :=
  let r := truncatedRemainder x y
  if r ≠ 0 ∧ ¬ (r < 0 ↔ y < 0) then r + y else r

def mod : Number → Number → Except Error Number :=
  integral "mod" fun x y => .ok (.int (flooredRemainder x y))

def rem : Number → Number → Except Error Number :=
  integral "rem" fun x y => .ok (.int (truncatedRemainder x y))

/-- The smaller number; the first if they compare equal or not at all. -/
def min (a b : Number) : Except Error Number :=
  .ok (if a.compareValue b = some .gt then b else a)

/-- The greater number; the first if they compare equal or not at all. -/
def max (a b : Number) : Except Error Number :=
  .ok (if a.compareValue b = some .lt then b else a)

def neg : Number → Except Error Number
  | .int i => fittingUnary "-" i (-i.toInt)
  | .float x => .ok (.float x.neg)

def abs : Number → Except Error Number
  | .int i => fittingUnary "abs" i i.toInt.natAbs
  | .float x => .ok (.float x.abs)

/-- The sign as a number of the same kind; zero for both zeros. -/
def sign : Number → Except Error Number
  | .int i => .ok (.int (Int64.ofInt i.toInt.sign))
  | .float x =>
    .ok (.float (if x.isNaN then .nan else if x.isZero then .zero
      else .ofParts x.negative Binary64.one.magnitude))

/-- Conversion of a float to a whole number near it; integers stay as they are. -/
def toWhole (near : Binary64 → Int) : Number → Except Error Number
  | .int i => .ok (.int i)
  | .float x =>
    match if x.isFinite then word? (near x) else none with
    | some i => .ok (.int i)
    | none => fault (.notAnInteger x)

end Grounding.Number
