import Grounding.Builtin.Basic

/-!
# Comparisons

Both sides are evaluated, and every pair of their values is decided by itself. A pair of numbers
passes under the guard of the pair or fails under `never`; a pair with an undefined side fails. Any
other pair becomes a condition of the formula, shared by all pairs with the same operands.
-/

namespace Grounding

/-- The relations between two numbers. -/
inductive Comparison where
  | less
  | lessEq
  | greater
  | greaterEq
  | equal
  | notEqual
deriving DecidableEq

namespace Comparison

def all : List Comparison := [.less, .lessEq, .greater, .greaterEq, .equal, .notEqual]

/-- The name of the predicate. -/
def name : Comparison → String
  | .less => "<"
  | .lessEq => "=<"
  | .greater => ">"
  | .greaterEq => ">="
  | .equal => "=:="
  | .notEqual => "=\\="

/-- The functor of the condition on symbolic operands. -/
def symbolicFunctor : Comparison → String
  | .less => "<"
  | .lessEq => "<="
  | .greater => ">"
  | .greaterEq => ">="
  | .equal => "=="
  | .notEqual => "!="

/-- Whether the relation holds between numbers that compare in this way, if they do at all. -/
def admits : Comparison → Option Ordering → Bool
  | .less, o => o = some .lt
  | .lessEq, o => o = some .lt || o = some .eq
  | .greater, o => o = some .gt
  | .greaterEq, o => o = some .gt || o = some .eq
  | .equal, o => o = some .eq
  | .notEqual, o => o ≠ some .eq

/-- Decides the relation. A NaN is unequal to everything and otherwise unrelated. -/
def holds (k : Comparison) (a b : Number) : Bool := k.admits (a.compareValue b)

/-- The guard of a pair of numbers that passed. The comparison may be kept as an atom. -/
def passingGuard (k : Comparison) (settings : Settings) (x y : Number) (pair : Guard) :
    GroundingM Guard := do
  if settings.keepBuiltins then
    let atom := Term.compound k.name [.constant x, .constant y]
    let node ← GroundingM.update (Formula.addAtom atom none .builtin)
    GroundingM.update (Formula.conjoin pair (.node node))
  else return pair

/-- Registers a condition on symbolic operands; the result has the operands as arguments. -/
def conditionResult (functor : String) (operands : List Term) (guard : Guard) :
    GroundingM (List Term × Guard) := do
  let condition := Term.mkSymbolic functor operands
  let node ← GroundingM.update (Formula.addAtom condition (some condition) .condition)
  return (operands, ← GroundingM.update (Formula.conjoin guard (.node node)))

/-- Decides one pair of values of the two sides. -/
def pairResult (k : Comparison) (settings : Settings) (args : List Term) (a b : GuardedValue) :
    GroundingM (List Term × Guard) := do
  let pair ← GroundingM.update (Formula.conjoin a.guard b.guard)
  match a.value, b.value with
  | .number x, .number y =>
    if k.holds x y then return (args, ← k.passingGuard settings x y pair) else return (args, .never)
  | .undefined, _ | _, .undefined => return (args, .never)
  | v, w => conditionResult k.symbolicFunctor ([v, w].filterMap Value.term?) pair

/-- Compares every value of the left side with every value of the right side. -/
def results (k : Comparison) (scope : Scope) (left right : Term) : GroundingM Results := do
  let lefts ← scope.evaluate left
  let rights ← scope.evaluate right
  let _ ← ofExcept (checkProductSize [lefts, rights] scope.settings.maxCombinations)
  (lefts.flatMap fun a => rights.map (a, ·)).mapM fun (a, b) =>
    k.pairResult scope.settings [left, right] a b

/-- The comparison as a predicate on ground terms. -/
def builtin (k : Comparison) : Builtin := .binary k.name "gg" k.results

end Comparison

end Grounding
