import Grounding.Formula.Realization

/-!
# Computations on a formula

Evaluation and the builtins work on one formula, may fail, and may lack an answer. An error keeps
the formula as it was when the error arose, so what was registered before stays registered.
-/

namespace Grounding

/-- Computations on a formula. An error keeps the formula; `none` is the lack of an answer. -/
abbrev GroundingM := ExceptT Error (StateT Formula Option)

namespace GroundingM

variable {α : Type}

/-- The computation that has no answer. -/
def outOfFuel : GroundingM α := ExceptT.mk fun _ => none

/-- An operation on the formula that cannot fail. -/
def update (op : Formula → α × Formula) : GroundingM α := modifyGet op

/-- An operation on the formula that leaves it unchanged if it fails. -/
def attempt (op : Formula → Except Error (α × Formula)) : GroundingM α := do
  match op (← get) with
  | .ok (a, f) =>
    set f
    return a
  | .error e => throw e

end GroundingM

end Grounding
