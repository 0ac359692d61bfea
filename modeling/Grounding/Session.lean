import Grounding.Arithmetic.Standard
import Grounding.Builtin.Standard

/-!
# Sessions

A session owns the formula of the current query together with the functions and builtins it can use
and its settings. It registers facts and realization sites in the formula, calls builtins, and hands
the finished formula over.

Terms are resolved by a finite table, so every call has enough fuel for an answer.
-/

namespace Grounding

/-- One formula and everything that builtins run against. -/
structure Session where
  formula : Formula := .empty
  functions : FunctionTable := .standard
  builtins : BuiltinTable := .standard
  settings : Settings := {}

namespace Session

def new (settings : Settings) : Session := { settings := settings }

/-- What evaluations of this session run against. -/
def context (s : Session) (table : ResolverTable) : Context :=
  ⟨s.functions, table.resolver, s.settings⟩

/-- Runs a computation on the formula of the session. -/
def run {α : Type} (s : Session) (computation : GroundingM α) : Option (Except Error α × Session) :=
  (computation.run s.formula).map fun (result, f) => (result, { s with formula := f })

/-- Calls a builtin. -/
def call (s : Session) (table : ResolverTable) (name : String) (args : List Term) :
    Option (Except Error Answers × Session) :=
  s.run (s.builtins.call ((s.context table).scope (table.fuelFor args)) name args)

/-- Evaluates an expression to its guarded values. -/
def evaluate (s : Session) (table : ResolverTable) (t : Term) :
    Option (Except Error (List GuardedValue) × Session) :=
  s.run (Grounding.evaluate (s.context table) (table.fuelFor [t]) t)

/-- Applies a function to arguments that are evaluated first. -/
def apply (s : Session) (table : ResolverTable) (name : String) (args : List Term) :
    Option (Except Error (List GuardedValue) × Session) :=
  s.run (applyFunction (s.context table) (table.fuelFor args) name args)

/-- The values of a random variable at its sites. -/
def realized (s : Session) (v : Term) : Option (Except Error (List GuardedValue) × Session) :=
  s.run (realizedValues v)

/-- Operates on the formula of the session. -/
def update {α : Type} (s : Session) (op : Formula → α × Formula) : α × Session :=
  let (a, f) := op s.formula
  (a, { s with formula := f })

def registerFunction (s : Session) (function : ArithmeticFunction) : Session :=
  { s with functions := s.functions.register function }

def registerBuiltin (s : Session) (b : Builtin) : Session :=
  { s with builtins := s.builtins.register b }

/-- Hands the formula over and goes on with an empty one. -/
def takeFormula (s : Session) : Formula × Session := (s.formula, { s with formula := .empty })

end Session

end Grounding
