/-!
# Guards

A guard is the condition under which a value or a branch holds: always, never, or whenever a node
of the formula holds. Nodes are numbered from one in the order of their registration; a `NodeId`
keeps the position, so there is no number without a meaning.
-/

namespace Grounding

/-- A node of a formula, by its position in the order of registration. -/
structure NodeId where
  index : Nat
deriving DecidableEq

namespace NodeId

/-- The number by which the node is shown; the first node is number one. -/
def number (id : NodeId) : Nat := id.index + 1

/-- The node with this number. -/
def ofNumber? : Nat → Option NodeId
  | 0 => none
  | index + 1 => some ⟨index⟩

def text (id : NodeId) : String := "n" ++ toString id.number

instance : Ord NodeId := ⟨fun a b => compare a.index b.index⟩

theorem compare_eq (a b : NodeId) : compare a b = compare a.index b.index := rfl

instance : Std.LawfulEqOrd NodeId where
  compare_self {a} := by rw [compare_eq, Std.ReflOrd.compare_self]
  eq_of_compare {a b} h := by
    cases a; cases b
    exact congrArg _ (Std.LawfulEqOrd.compare_eq_iff_eq.1 h)

instance : Std.TransOrd NodeId where
  eq_swap {a b} := by rw [compare_eq, compare_eq, Std.OrientedOrd.eq_swap]
  isLE_trans {a b c} hab hbc := by
    rw [compare_eq] at *
    exact Std.TransOrd.isLE_trans hab hbc

end NodeId

/-- The condition under which something holds. -/
inductive Guard where
  | always
  | never
  | node (id : NodeId)
deriving DecidableEq

namespace Guard

def isAlways : Guard → Bool
  | .always => true
  | _ => false

def isNever : Guard → Bool
  | .never => true
  | _ => false

def node? : Guard → Option NodeId
  | .node id => some id
  | _ => none

def text : Guard → String
  | .always => "true"
  | .never => "false"
  | .node id => id.text

/-- The constants come first, then the nodes by number. -/
def key : Guard → Nat
  | .always => 0
  | .never => 1
  | .node id => id.index + 2

instance : Ord Guard := ⟨fun g h => compare g.key h.key⟩

end Guard

end Grounding
