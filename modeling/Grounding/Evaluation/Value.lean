import Grounding.Formula.Guard
import Grounding.Term.Order
import Grounding.Term.Text

/-!
# Guarded values

An expression can have different values along different branches of a proof. Each of them is kept
with the guard of its branch.
-/

namespace Grounding

/-- What an expression denotes along one branch. -/
inductive Value where
  | number (value : Number)
  /-- Depends on a random variable that is not realized yet. -/
  | symbolic (term : Term)
  /-- The branch has no value. -/
  | undefined
deriving DecidableEq

namespace Value

/-- The value that a term stands for: a number for a constant, else the term itself. -/
def ofTerm : Term → Value
  | .constant n => .number n
  | t => .symbolic t

/-- The term of a value; an undefined one has none. -/
def term? : Value → Option Term
  | .number n => some (.constant n)
  | .symbolic t => some t
  | .undefined => none

def number? : Value → Option Number
  | .number n => some n
  | _ => none

def isUndefined : Value → Bool
  | .undefined => true
  | _ => false

def text : Value → String
  | .number n => n.text
  | .symbolic t => t.text
  | .undefined => "undefined"

end Value

/-- A value together with the guard under which it holds. -/
structure GuardedValue where
  value : Value
  guard : Guard
deriving DecidableEq

/-- A value that holds in any case. -/
def GuardedValue.certain (value : Value) : GuardedValue := ⟨value, .always⟩

end Grounding
