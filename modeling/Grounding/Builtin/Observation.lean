import Grounding.Builtin.Comparison

/-!
# Observations

A call `observation(Value, Observed)` observes a realized value: a coordinate, or a list of
coordinates with an expression for each of them. Every value of what is observed gives one
condition.
-/

namespace Grounding.Builtin

/-- The functor of the condition. -/
def observationFunctor : String := "observation"

/-- Only coordinates can be observed. -/
def expectCoordinate : Term → Except Error Unit
  | .coordinate .. => .ok ()
  | t => .error (.incorrectArgument (.expectsRealizedValue t))

/-- One tuple of observed values as a guarded list; undefined if one of them is. -/
def observedTuple (tuple : List GuardedValue) : GroundingM GuardedValue := do
  let guard ← GroundingM.update (Formula.conjoinAll (tuple.map (·.guard)))
  let value := match tuple.mapM (·.value.term?) with
    | some terms => Value.symbolic (.ofList terms)
    | none => .undefined
  return ⟨value, guard⟩

/-- The guarded values of a list of expressions, as lists. -/
def observedVectors (scope : Scope) (items : List Term) : GroundingM (List GuardedValue) := do
  let operands ← items.mapM scope.evaluate
  let _ ← ofExcept (checkProductSize operands scope.settings.maxCombinations)
  (tuples operands).mapM observedTuple

/-- The expressions observed for these coordinates, one for each. -/
def observedItems (coordinates : List Term) (observed : Term) : Except Error (List Term) :=
  match observed.list? with
  | none => .error (.incorrectArgument (.observedExpectsList coordinates.length observed))
  | some items =>
    if items.length = coordinates.length then .ok items
    else .error (.incorrectArgument (.observedLength coordinates.length items.length))

/-- The guarded values of what is observed, whose shape is that of the value. -/
def observedValues (scope : Scope) (value observed : Term) : GroundingM (List GuardedValue) := do
  match value.list? with
  | some coordinates =>
    ofExcept (coordinates.forM expectCoordinate)
    observedVectors scope (← ofExcept (observedItems coordinates observed))
  | none =>
    ofExcept (expectCoordinate value)
    match observed.list? with
    | some items => throw (.incorrectArgument (.observedList items.length))
    | none => scope.evaluate observed

/-- Registers the condition that one observed value gives. -/
def observationResult (value : Term) (observed : Term × Guard) : GroundingM (List Term × Guard) :=
  Comparison.conditionResult observationFunctor [value, observed.1] observed.2

/-- A call `observation(Value, Observed)` holds once for every defined value of what is observed. -/
def observationResults (scope : Scope) (value observed : Term) : GroundingM Results := do
  let values ← observedValues scope value observed
  (values.filterMap fun v => v.value.term?.map (·, v.guard)).mapM (observationResult value)

def observationBuiltin : Builtin := .binary "observation" "gg" observationResults

end Grounding.Builtin
