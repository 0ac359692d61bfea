import Grounding.Proofs.Formula.World

/-!
# Truth by identifiers

A truth assignment to the identifiers of atoms gives every formula a world of its own. That makes
guards comparable across formulas that number their nodes differently.
-/

namespace Grounding

namespace World

/-- The truths of a list of nodes are determined by those of its atoms. -/
theorem truths_congr {w w' : World} {ns : List Node}
    (h : ∀ i t p s, ns[i]? = some (.atom t p s) → w ⟨i⟩ = w' ⟨i⟩) : w.truths ns = w'.truths ns := by
  induction ns using List.reverseRecOn with
  | nil => rfl
  | append_singleton ns n ih =>
    have hns : w.truths ns = w'.truths ns := by
      refine ih fun i t p s hi => h i t p s ?_
      rw [List.getElem?_append_left (List.getElem?_eq_some_iff.mp hi).1, hi]
    rw [truths_concat, truths_concat, hns]
    congr 2
    cases n with
    | atom t p s =>
      refine h _ t p s ?_
      rw [length_truths, List.getElem?_append_right (Nat.le_refl _), Nat.sub_self]
      rfl
    | conjunction cs => rfl

end World

namespace Formula

variable {f g : Formula} {truth : Term → Bool} {x : Guard} {id : NodeId} {t : Term}

/-- The world in which the atoms of the formula hold as assigned to their identifiers. -/
def worldOf (f : Formula) (truth : Term → Bool) : World := fun id =>
  match f.node? id with
  | some (.atom t ..) => truth t
  | _ => false

/-- Whether a guard holds if the atoms hold as assigned to their identifiers. -/
def holdsBy (f : Formula) (truth : Term → Bool) (x : Guard) : Bool := f.holds (f.worldOf truth) x

theorem worldOf_atom {p : Option Term} {s : Source} (hn : f.node? id = some (.atom t p s)) :
    f.worldOf truth id = truth t := by
  rw [worldOf, hn]

theorem holds_congr {w w' : World}
    (h : ∀ id t p s, f.node? id = some (.atom t p s) → w id = w' id) (x : Guard) :
    f.holds w x = f.holds w' x := by
  cases x with
  | always | never => rfl
  | node id =>
    rw [holds, holds, World.truths_congr fun i t p s hi => h ⟨i⟩ t p s ?_]
    rw [node?, ← Array.getElem?_toList, hi]

theorem Extends.holdsBy_eq (hfg : f.Extends g) (hx : f.Knows x) (truth : Term → Bool) :
    g.holdsBy truth x = f.holdsBy truth x := by
  rw [holdsBy, hfg.holds_eq hx, holdsBy]
  refine holds_congr (fun id t p s hn => ?_) x
  rw [worldOf_atom hn, worldOf_atom (hfg.node? hn)]

theorem holdsBy_atom {p : Option Term} {s : Source} (hn : f.node? id = some (.atom t p s)) :
    f.holdsBy truth (.node id) = truth t := by
  rw [holdsBy, holds_atom hn, worldOf_atom hn]

theorem holdsBy_conjoinAll (hf : f.WellFormed) {guards : List Guard} (hk : ∀ x ∈ guards, f.Knows x)
    (truth : Term → Bool) :
    (conjoinAll guards f).2.holdsBy truth (conjoinAll guards f).1 =
      guards.all (f.holdsBy truth) := by
  rw [holdsBy, holds_conjoinAll hf hk, Bool.eq_iff_iff, List.all_eq_true, List.all_eq_true]
  refine forall₂_congr fun x hx => ?_
  rw [← (f.extends_conjoinAll guards).holdsBy_eq (hk x hx), holdsBy,
    (f.extends_conjoinAll guards).holds_eq (hk x hx)]

end Formula

end Grounding
