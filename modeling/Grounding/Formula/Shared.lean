import Grounding.Formula.Basic

/-!
# Shared formulas

Several handles can give access to one formula, one at a time. A handle is known by its number and
is alive until it is dropped. The formula can be taken out through the last handle that is alive.
-/

namespace Grounding

/-- A formula with the handles that give access to it. -/
structure SharedFormula where
  formula : Formula
  /-- The numbers of the handles that are alive. -/
  alive : List Nat
  /-- How many handles were ever made. -/
  made : Nat
deriving DecidableEq

/-- What comes of taking the formula out. -/
inductive Release where
  | formula (f : Formula)
  /-- Another handle is alive. -/
  | busy
deriving DecidableEq

namespace SharedFormula

/-- A formula with one handle, number zero. -/
def new (f : Formula) : SharedFormula := ⟨f, [0], 1⟩

/-- Operates on the formula through a handle, if it is alive. -/
def access? {α : Type} (s : SharedFormula) (handle : Nat) (op : Formula → α × Formula) :
    Option (α × SharedFormula) :=
  if handle ∈ s.alive then
    let (a, f) := op s.formula
    some (a, { s with formula := f })
  else none

/-- Makes a new handle from one that is alive and gives its number. -/
def clone? (s : SharedFormula) (handle : Nat) : Option (Nat × SharedFormula) :=
  if handle ∈ s.alive then some (s.made, { s with alive := s.made :: s.alive, made := s.made + 1 })
  else none

/-- Drops a handle that is alive. -/
def drop? (s : SharedFormula) (handle : Nat) : Option SharedFormula :=
  if handle ∈ s.alive then some { s with alive := s.alive.erase handle } else none

/-- Takes the formula out through a handle that is alive, which is used up. While another handle is
alive nothing happens. -/
def release? (s : SharedFormula) (handle : Nat) : Option (Release × SharedFormula) :=
  if handle ∈ s.alive then
    if s.alive.length = 1 then some (.formula s.formula, { s with alive := [] })
    else some (.busy, s)
  else none

end SharedFormula

end Grounding
