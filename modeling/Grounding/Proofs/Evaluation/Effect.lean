import Grounding.Proofs.Computation
import Grounding.Proofs.Evaluation.World
import Grounding.Proofs.Formula.Site

/-!
# What evaluation changes

Evaluation registers conjunctions and fixes descriptors of points, and nothing else. No such edit
changes the values that the random variables have in a world.
-/

namespace Grounding

/-- The edits that evaluation makes: conjunctions, and descriptors of points. -/
def Edit.ByEvaluation : Edit → Prop
  | .conjunction _ => True
  | .descriptor _ _ d => d.dimensions = 1
  | _ => False

theorem Edit.ByEvaluation.keepsSites {e : Edit} (he : e.ByEvaluation) : e.KeepsSites := by
  cases e with
  | site => exact he.elim
  | _ => trivial

namespace Formula

variable {f g : Formula} {v : Term} {site : NodeId} {d : Descriptor}

theorem fixDescriptor_inv {n : Nat} (h : f.fixDescriptor v site n = .ok (d, g)) :
    f.newDescriptor v site n = .ok d ∧ g = f.withDescriptor d := by
  unfold fixDescriptor at h
  cases hnew : f.newDescriptor v site n with
  | error e => rw [hnew] at h; cases h
  | ok d' => rw [hnew] at h; cases h; exact ⟨rfl, rfl⟩

theorem fixDescriptor_chain {n : Nat} (hn : 1 ≤ n) {P : Edit → Prop}
    (hP : ∀ d, d.dimensions = n → P (.descriptor v site d))
    (hnone : f.descriptor? (realizationName v site) = none)
    (h : f.fixDescriptor v site n = .ok (d, g)) : f.Chain P g := by
  obtain ⟨hnew, rfl⟩ := fixDescriptor_inv h
  obtain ⟨hname, hdim⟩ := newDescriptor_inv hnew
  refine .single (e := .descriptor v site d) (hP d hdim) ⟨?_, ?_, ?_⟩
  · rw [hdim]
    exact hnew
  · rw [hdim]
    exact hn
  · rw [hname]
    exact hnone

/-- Asking for a descriptor fixes that of a point, unless there is one. -/
theorem descriptorOf_chain (h : f.descriptorOf v site = .ok (d, g)) :
    f.Chain Edit.ByEvaluation g ∧ d.coordinates = f.coordinatesOf (realizationName v site) := by
  unfold descriptorOf at h
  rw [coordinatesOf]
  cases hd : f.descriptor? (realizationName v site) with
  | some d' =>
    rw [hd] at h
    cases h
    exact ⟨.refl, rfl⟩
  | none =>
    rw [hd] at h
    obtain ⟨hname, hdim⟩ := newDescriptor_inv (fixDescriptor_inv h).1
    refine ⟨fixDescriptor_chain (Nat.le_refl 1) (fun _ hd => hd) hd h, ?_⟩
    rw [Descriptor.coordinates, hname, hdim]

/-- Evaluation changes the nodes, the index of the conjunctions and the descriptors only. -/
theorem Trail.evaluation_eq (hfg : f.Trail Edit.ByEvaluation g) : g = { f with
    nodes := g.nodes, conjunctions := g.conjunctions, descriptors := g.descriptors } := by
  induction hfg with
  | refl => rfl
  | @step g e _ hp _ ih =>
    cases e with
    | conjunction guards =>
      rw [Edit.apply]
      rcases g.conjoinAll_cases guards with h | ⟨-, h⟩ <;> rw [h]
      · exact ih
      · rw [withConjunction, ih]
    | descriptor v site d => rw [Edit.apply, withDescriptor, ih]
    | _ => exact hp.elim

theorem coordinatesOf_apply {e : Edit} (he : e.ByEvaluation) (hfit : e.Fits f) (name : String) :
    (e.apply f).coordinatesOf name = f.coordinatesOf name := by
  cases e with
  | conjunction guards =>
    rw [Edit.apply]
    rcases f.conjoinAll_cases guards with h | ⟨-, h⟩ <;> rw [h]
    rfl
  | descriptor v site d =>
    have hnone : f.descriptor? d.name = none := hfit.2.2
    rw [Edit.apply, coordinatesOf, descriptor?_withDescriptor, coordinatesOf]
    by_cases hname : d.name = name
    · subst hname
      rw [if_pos rfl, hnone]
      show Term.coordinates d.name d.dimensions = Term.coordinates d.name 1
      rw [show d.dimensions = 1 from he]
    · rw [if_neg hname]
  | _ => exact he.elim

theorem coordinatesOf_eq (hfg : f.Chain Edit.ByEvaluation g) (name : String) :
    g.coordinatesOf name = f.coordinatesOf name := by
  induction hfg with
  | refl => rfl
  | step _ hp hfit ih => rw [coordinatesOf_apply hp hfit, ih]

theorem sites?_eq (hfg : f.Chain Edit.ByEvaluation g) (v : Term) : g.sites? v = f.sites? v :=
  hfg.trail.sites?_eq (fun _ => Edit.ByEvaluation.keepsSites) v

theorem body_eq (hfg : f.Chain Edit.ByEvaluation g) (site : NodeId) :
    g.body site = f.body site := hfg.trail.body_eq (fun _ => Edit.ByEvaluation.keepsSites) site

theorem siteValue_eq (hfg : f.Chain Edit.ByEvaluation g) (v : Term)
    (hsite : f.Knows (.node site)) : g.siteValue v site = f.siteValue v site := by
  simp only [siteValue, hfg.grows.probability?_eq hsite, coordinatesOf_eq hfg]

end Formula

namespace GroundingM

variable {P : Edit → Prop} {g : Formula}

/-- The guard of a conjunction is known and holds where all the guards do. -/
theorem conjoinAll_performs (hg : g.WellFormed) {guards : List Guard}
    (hP : P (.conjunction guards)) (hk : ∀ x ∈ guards, g.Knows x) :
    Performs P g (update (Formula.conjoinAll guards)) fun x h =>
      h.Knows x ∧ ∀ w, h.holds w x = guards.all (h.holds w) := by
  refine .update (e := .conjunction guards) rfl hP hk
    ⟨(Formula.wellFormed_conjoinAll hg hk).2, fun w => ?_⟩
  rw [Formula.holds_conjoinAll hg hk, Bool.eq_iff_iff, List.all_eq_true, List.all_eq_true]
  exact forall₂_congr fun x hx => by rw [(g.extends_conjoinAll guards).holds_eq (hk x hx)]

theorem addAtom_performs {t : Term} {p : Option Term} {s : Source} (hP : P (.atom t p s)) :
    Performs P g (update (Formula.addAtom t p s)) fun id h => h.findAtom? t = some id :=
  .update (e := .atom t p s) rfl hP trivial (g.findAtom?_addAtom t p s)

end GroundingM

end Grounding
