import Grounding.Error

/-!
# Cartesian products

`tuples` lists every choice of one element from each operand, with the last operand varying fastest.
Without operands there is one empty choice, and with an empty operand there is none. `Cursor`
produces the same tuples one by one and keeps only a position in each operand.

A product is checked against a limit by its size before any tuple is built. Sizes are counted up to
the greatest machine word.
-/

namespace Grounding

variable {α : Type}

/-- Every choice of one element from each list, in lexicographic order of the positions. -/
def tuples : List (List α) → List (List α)
  | [] => [[]]
  | xs :: xss =>
    let rest := tuples xss
    xs.flatMap fun x => rest.map (x :: ·)

/-- The greatest size that is counted. -/
def sizeBound : Nat := 0xffffffffffffffff

/-- The number of tuples, or the greatest size if there are more. -/
def productSize (operands : List (List α)) : Nat :=
  operands.foldl (fun size xs => min (size * xs.length) sizeBound) 1

/-- The size of a product, unless it exceeds the limit. -/
def checkProductSize (operands : List (List α)) (limit : Nat) : Except Error Nat :=
  let size := productSize operands
  if limit < size then .error (.combinatorialExplosion size limit) else .ok size

/-- A place in the product of some operands. -/
structure Cursor (α : Type) where
  operands : List (List α)
  /-- One position for each operand. -/
  positions : List Nat
  exhausted : Bool

namespace Cursor

/-- The first place of a product. -/
def start (operands : List (List α)) : Cursor α where
  operands := operands
  positions := operands.map fun _ => 0
  exhausted := operands.any List.isEmpty

/-- Counts one step up; the last position moves first and carries to the one before. Tells whether
the first position wrapped around. -/
def increment : List (List α) → List Nat → List Nat × Bool
  | xs :: xss, i :: is =>
    let (rest, carry) := increment xss is
    if carry then
      if i + 1 < xs.length then ((i + 1) :: rest, false) else (0 :: rest, true)
    else (i :: rest, false)
  | _, _ => ([], true)

/-- The tuple at this place, if every position lies within its operand. -/
def tuple? (c : Cursor α) : Option (List α) :=
  (c.operands.zip c.positions).mapM fun (xs, i) => xs[i]?

/-- The place after this one. -/
def advance (c : Cursor α) : Cursor α :=
  let (positions, wrapped) := increment c.operands c.positions
  { c with positions := positions, exhausted := wrapped }

/-- The tuple at this place and the place after it, until the product is exhausted. -/
def next? (c : Cursor α) : Option (List α × Cursor α) :=
  if c.exhausted then none else c.tuple?.map (·, c.advance)

/-- The next tuples, at most this many. -/
def take : Nat → Cursor α → List (List α)
  | 0, _ => []
  | n + 1, c =>
    match c.next? with
    | some (tuple, c) => tuple :: c.take n
    | none => []

end Cursor

end Grounding
