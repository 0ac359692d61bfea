import Grounding.Arithmetic.Function
import Grounding.Arithmetic.Power

/-!
# The standard functions

The functions that every session starts with. A float function has a domain; outside of it, and
where a finite argument has no finite value, it is an error.
-/

namespace Grounding

namespace Number

/-- A float function on part of the line, named for its messages. -/
def elementary (name : String) (domain : Binary64 → Bool) (value : Binary64 → Binary64)
    (a : Number) : Except Error Number :=
  let x := a.toBinary64
  if !domain x then fault (.outsideDomain name a)
  else
    let y := value x
    if y.isInfinite && x.isFinite then fault (.floatOverflow name a) else .ok (.float y)

end Number

namespace FunctionTable

open Grounding.ArithmeticFunction Grounding.Number

/-- A standard function of one float argument. -/
def floatFunction (name : String) (domain : Binary64 → Bool) (value : Binary64 → Binary64) :
    ArithmeticFunction :=
  unary name (elementary name domain value)

/-- The floats from `-1` to `1`. -/
def unitInterval (x : Binary64) : Bool := Binary64.one.neg.le x && x.le .one

/-- The standard functions. -/
def standardFunctions : List ArithmeticFunction :=
  [binary "+" add, binary "-" sub, binary "*" mul, binary "/" div,
   binary "//" intDiv, binary "mod" mod, binary "rem" rem,
   binary "**" (power "**"), binary "^" (integerPower "^"),
   binary "min" min, binary "max" max,
   binary "atan2" fun a b => .ok (.float (a.toBinary64.atan2 b.toBinary64)),
   unary "-" neg, unary "+" .ok, unary "abs" abs, unary "sign" sign,
   unary "float" fun a => .ok (.float a.toBinary64),
   floatFunction "sqrt" (Binary64.zero.le ·) Binary64.sqrt,
   floatFunction "exp" (fun _ => true) Binary64.exp,
   floatFunction "log" (Binary64.zero.lt ·) Binary64.log,
   floatFunction "sin" (fun _ => true) Binary64.sin,
   floatFunction "cos" (fun _ => true) Binary64.cos,
   floatFunction "tan" (fun _ => true) Binary64.tan,
   floatFunction "asin" unitInterval Binary64.asin,
   floatFunction "acos" unitInterval Binary64.acos,
   floatFunction "atan" (fun _ => true) Binary64.atan,
   unary "floor" (toWhole Binary64.floor), unary "ceiling" (toWhole Binary64.ceil),
   unary "round" (toWhole Binary64.round), unary "truncate" (toWhole Binary64.truncate),
   unary "integer" (toWhole Binary64.round),
   nullary "pi" (.float ⟨0x400921fb54442d18⟩), nullary "e" (.float ⟨0x4005bf0a8b145769⟩),
   nullary "inf" (.float .infinity), nullary "nan" (.float .nan)]

/-- The table that a session starts with. -/
def standard : FunctionTable := ofList standardFunctions

end FunctionTable

end Grounding
