import Grounding.Arithmetic.Function
import Grounding.Evaluation.Computation
import Grounding.Evaluation.Product
import Grounding.Evaluation.Resolver
import Grounding.Evaluation.Value
import Grounding.Settings.Document

/-!
# Guarded evaluation

Every subexpression may denote different values along different, mutually exclusive branches of a
proof, so an expression evaluates to a list of guarded values:

* a number, and a symbolic term, has itself as its only value, which always holds;
* a function of the table is applied to every tuple of values of its arguments, under the
  conjunction of their guards; it is computed if all operands are numbers, undefined if one is
  undefined, and left symbolic otherwise;
* for any other term the resolver names the alternatives. An alternative that is a random variable
  has one value for each of its sites, and any other alternative is evaluated in turn.

Evaluation registers conjunctions and fixes descriptors in the formula as it goes; what an
evaluation registered before it failed stays registered. Since the alternatives may lead on without
end, the number of nested steps is bounded by fuel; to run out of it is no error but the lack of an
answer, and more fuel never changes an answer.
-/

namespace Grounding

open GroundingM

/-- What an evaluation runs against, beside the formula. -/
structure Context where
  functions : FunctionTable
  resolve : Resolver
  settings : Settings

/-- A point is its only coordinate, a vector the list of its coordinates. -/
def pointOrVector : List Term → Term
  | [coordinate] => coordinate
  | coordinates => .ofList coordinates

/-- The value of a variable at one of its sites: the number of a point mass, undefined without a
distribution, and else the coordinates of the realization. -/
def realizedValue (v : Term) (site : NodeId) : GroundingM GuardedValue := do
  let f ← get
  let guard := f.body site
  match f.probability? site with
  | none => return ⟨.undefined, guard⟩
  | some distribution =>
    match pointMass? distribution with
    | some n => return ⟨.number n, guard⟩
    | none =>
      let descriptor ← attempt (·.descriptorOf v site)
      return ⟨.symbolic (pointOrVector descriptor.coordinates), guard⟩

/-- The values of a random variable, one for each of its sites under the body of the site. -/
def realizedValues (v : Term) : GroundingM (List GuardedValue) := do
  match (← get).sites? v with
  | some sites => sites.mapM (realizedValue v)
  | none => throw (.undefinedRealization v)

/-- The value of a function on one tuple of operands. -/
def ArithmeticFunction.onValues (function : ArithmeticFunction) (operands : List Value) :
    Except Error Value :=
  if operands.any Value.isUndefined then .ok .undefined
  else match operands.mapM Value.number? with
    | some numbers => (function.apply numbers).map .number
    | none => .ok (.symbolic (.mkSymbolic function.name (operands.filterMap Value.term?)))

/-- Applies a function to one tuple under the conjunction of its guards. -/
def applyToTuple (function : ArithmeticFunction) (tuple : List GuardedValue) :
    GroundingM GuardedValue := do
  let guard ← update (Formula.conjoinAll (tuple.map (·.guard)))
  let value ← ofExcept (function.onValues (tuple.map (·.value)))
  return ⟨value, guard⟩

/-- Applies a function to every tuple of the product of its operands. -/
def applyToOperands (settings : Settings) (function : ArithmeticFunction)
    (operands : List (List GuardedValue)) : GroundingM (List GuardedValue) := do
  let _ ← ofExcept (checkProductSize operands settings.maxCombinations)
  (tuples operands).mapM (applyToTuple function)

/-- The error for a term that neither computes nor names a random variable. A name that the table
knows under another arity is a misspelt call. -/
def notEvaluable (functions : FunctionTable) (t : Term) : Error :=
  match t.functor? with
  | some name =>
    if functions.knowsName name then .unknownFunction name t.args.length
    else .undefinedRealization t
  | none => .undefinedRealization t

/-- The function that a term calls, if it is an atom or a compound term and the table has one of
this name and arity. -/
def FunctionTable.calledBy? (functions : FunctionTable) : Term → Option ArithmeticFunction
  | .atom name => functions.find? name 0
  | .compound name args => functions.find? name args.length
  | _ => none

/-- The values of one alternative of a term: those of its sites if it is a random variable, and
else those of evaluating it. A term that has only itself to offer cannot be evaluated. -/
def alternativeValues (c : Context) (next : Term → GroundingM (List GuardedValue))
    (t alternative : Term) : GroundingM (List GuardedValue) := do
  if (← get).isRandomVariable alternative then realizedValues alternative
  else if alternative = t then throw (notEvaluable c.functions t)
  else next alternative

/-- The values of all alternatives of a term, while those of the terms `resolving` are being
evaluated. A term that is reached again from its own alternatives is an error. -/
def realizationValues (c : Context) (next : List Term → Term → GroundingM (List GuardedValue))
    (resolving : List Term) (t : Term) : GroundingM (List GuardedValue) := do
  if t ∈ resolving then throw (.incorrectArgument (.cyclicRealization t))
  let alternatives ← ofExcept (c.resolve t)
  let values ← alternatives.mapM (alternativeValues c (next (t :: resolving)) t)
  return values.flatten

/-- One step of evaluation; `next` evaluates what the term leads to. -/
def evaluateStep (c : Context) (next : List Term → Term → GroundingM (List GuardedValue))
    (resolving : List Term) (t : Term) : GroundingM (List GuardedValue) :=
  match t with
  | .constant n => return [.certain (.number n)]
  | .var name => throw (.incorrectArgument (.unbound name))
  | .symbolic .. | .density _ | .realized .. | .coordinate .. =>
    return [.certain (.symbolic t)]
  | .atom _ | .compound .. =>
    match c.functions.calledBy? t with
    | some function => do
      applyToOperands c.settings function (← t.args.mapM (next resolving))
    | none => realizationValues c next resolving t

/-- The guarded values of an expression, with a bound on the nesting of the steps. -/
def evaluateWith (c : Context) : (fuel : Nat) → (resolving : List Term) → Term →
    GroundingM (List GuardedValue)
  | 0 => fun _ _ => outOfFuel
  | fuel + 1 => evaluateStep c (evaluateWith c fuel)

/-- The guarded values of an expression. -/
def evaluate (c : Context) (fuel : Nat) : Term → GroundingM (List GuardedValue) :=
  evaluateWith c fuel []

/-- Applies the function of this name to arguments that are evaluated first. -/
def applyFunction (c : Context) (fuel : Nat) (name : String) (args : List Term) :
    GroundingM (List GuardedValue) := do
  match c.functions.find? name args.length with
  | some function => applyToOperands c.settings function (← args.mapM (evaluate c fuel))
  | none => throw (.unknownFunction name args.length)

end Grounding
