import Grounding.Builtin.Comparison
import Grounding.Builtin.Observation

/-!
# The standard builtins

Beside comparisons and observations, a session starts with two predicates that give a variable a
value and with three that prepare the query. `is` gives the value of an expression, and `as` the
realized value of a random variable, a point or a vector. `density` asks for the density of a random
variable at each of its sites, and `free` and `free_list` declare variables free, so that they are
integrated out.
-/

namespace Grounding

namespace Builtin

/-- A call `X is Expr` holds once for every value of the expression that is defined. -/
def isResults (scope : Scope) (_ expr : Term) : GroundingM Results := do
  let values ← scope.evaluate expr
  return values.filterMap fun v => v.value.term?.map fun t => ([t, expr], v.guard)

def isBuiltin : Builtin := .binary "is" "*g" isResults

/-- What `as` binds: the list of all coordinates if a list was asked for, and else the first. -/
def boundValue? (vector : Bool) (coordinates : List Term) : Option Term :=
  if vector then some (.ofList coordinates) else coordinates.head?

/-- The result of `as` at one site, where the descriptor is fixed if it is new. -/
def asResult (v : Term) (length : Option Nat) (site : NodeId) :
    GroundingM (Option (List Term × Guard)) := do
  let descriptor ← GroundingM.attempt (·.descriptorWith v site (length.getD 1))
  let guard := (← get).body site
  return (boundValue? length.isSome descriptor.coordinates).map fun t => ([t, v], guard)

/-- A call `as(Value, V)` holds once for every site of the random variable. A list asks for a vector
of its length, anything else for a point. -/
def asResults (_ : Scope) (value v : Term) : GroundingM Results := do
  match (← get).sites? v with
  | none => throw (.undefinedRealization v)
  | some sites =>
    let results ← sites.mapM (asResult v (value.list?.map List.length))
    return results.filterMap id

def asBuiltin : Builtin := .binary "as" "*g" asResults

/-- Registers the density at one site as a query under the body of the site. -/
def densityResult (v : Term) (site : NodeId) : GroundingM (List Term × Guard) := do
  let body := (← get).body site
  let density := Term.density (realizationName v site)
  modify fun f => (f.addName density body .query).addDensity v density
  return ([v], body)

/-- A call `density(V)` holds once for every site of the random variable. -/
def densityResults (_ : Scope) (v : Term) : GroundingM Results := do
  match (← get).sites? v with
  | none => throw (.notARandomVariable v)
  | some sites => sites.mapM (densityResult v)

def densityBuiltin : Builtin := .unary "density" "c" densityResults

/-- A call `free(V)` always holds. -/
def freeResults (_ : Scope) (v : Term) : GroundingM Results := do
  modify (Formula.addFree v)
  return [([v], .always)]

def freeBuiltin : Builtin := .unary "free" "c" freeResults

/-- A call `free_list([V1, ..., Vn])` always holds. -/
def freeListResults (_ : Scope) (vs : Term) : GroundingM Results := do
  match vs.list? with
  | none => throw (.incorrectArgument (.expectsList vs))
  | some items =>
    modify fun f => items.foldl (fun f v => f.addFree v) f
    return [([vs], .always)]

def freeListBuiltin : Builtin := .unary "free_list" "l" freeListResults

end Builtin

namespace BuiltinTable

/-- The builtins that every session starts with. -/
def standardBuiltins : List Builtin :=
  Comparison.all.map Comparison.builtin ++
    [.isBuiltin, .densityBuiltin, .freeBuiltin, .freeListBuiltin, .asBuiltin, .observationBuiltin]

/-- The table that a session starts with. -/
def standard : BuiltinTable := ofList standardBuiltins

end BuiltinTable

end Grounding
