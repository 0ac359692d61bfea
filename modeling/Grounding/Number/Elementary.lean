import Grounding.Number.Binary64

/-!
# Elementary functions on floats

Square roots, exponentials, logarithms, trigonometric functions and powers are taken from the
machine's floats. This module adds what the bits decide: a NaN operand comes back unchanged, and a
result without a value is the `invalid` NaN.
-/

namespace Grounding.Binary64

/-- The machine float with these bits. -/
def toFloat (x : Binary64) : Float := Float.ofBits x.bits

/-- The bits of a machine float; a NaN among them becomes `invalid`. -/
def ofFloat (f : Float) : Binary64 := if f.isNaN then invalid else ⟨f.toBits⟩

/-- Applies a function of the machine to a number; a NaN stays as it is. -/
def mapFloat (f : Float → Float) (x : Binary64) : Binary64 :=
  if x.isNaN then x else ofFloat (f x.toFloat)

def sqrt : Binary64 → Binary64 := mapFloat Float.sqrt

def exp : Binary64 → Binary64 := mapFloat Float.exp

/-- The natural logarithm. -/
def log : Binary64 → Binary64 := mapFloat Float.log

def sin : Binary64 → Binary64 := mapFloat Float.sin

def cos : Binary64 → Binary64 := mapFloat Float.cos

def tan : Binary64 → Binary64 := mapFloat Float.tan

def asin : Binary64 → Binary64 := mapFloat Float.asin

def acos : Binary64 → Binary64 := mapFloat Float.acos

def atan : Binary64 → Binary64 := mapFloat Float.atan

/-- The angle of the point `(x, y)`, with `y` given first. Of two NaNs `x` comes back. -/
def atan2 (y x : Binary64) : Binary64 :=
  if x.isNaN then x else if y.isNaN then y else ofFloat (Float.atan2 y.toFloat x.toFloat)

/-- The power; `x ^ 0` and `1 ^ y` are one even for a NaN. -/
def pow (x y : Binary64) : Binary64 :=
  if y.isZero || x = one then one
  else if x.isNaN then x
  else if y.isNaN then y
  else ofFloat (Float.pow x.toFloat y.toFloat)

end Grounding.Binary64
