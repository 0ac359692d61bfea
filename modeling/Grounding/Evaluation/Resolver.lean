import Grounding.Error

/-!
# Resolvers

A resolver names the alternatives by which a term that is neither number nor function can be
realized. Any pure function will do; a resolver table is one that lists finitely many terms with
their alternatives and leaves every other term to itself.

Along a chain of alternatives no term may come up twice, so an evaluation under a table nests at
most as deep as the expression and all alternatives of the table together.
-/

namespace Grounding

/-- Names the alternatives of a term, in order. -/
abbrev Resolver := Term → Except Error (List Term)

/-- The resolver for which every term is its own only alternative. -/
def Resolver.identity : Resolver := fun t => .ok [t]

/-- A finite list of terms with their alternatives, or the error that resolving them gives. -/
structure ResolverTable where
  rows : List (Term × Except Error (List Term))

namespace ResolverTable

def empty : ResolverTable := ⟨[]⟩

/-- The first row for the term decides; a term without row is its own only alternative. -/
def resolver (table : ResolverTable) : Resolver := fun t =>
  match table.rows.find? (·.1 = t) with
  | some (_, alternatives) => alternatives
  | none => Resolver.identity t

/-- The height of the highest alternative of a row. -/
def rowHeight : Term × Except Error (List Term) → Nat
  | (_, .ok alternatives) => Term.heights alternatives
  | (_, .error _) => 0

/-- The sum of the heights of the rows. -/
def height (table : ResolverTable) : Nat :=
  table.rows.foldr (fun row total => rowHeight row + total) 0

/-- Enough fuel to evaluate any of these terms under the table. -/
def fuelFor (table : ResolverTable) (ts : List Term) : Nat := Term.heights ts + table.height

end ResolverTable

end Grounding
