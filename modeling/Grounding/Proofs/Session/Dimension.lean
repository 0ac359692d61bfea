import Grounding.Proofs.Session.Site
import Grounding.Proofs.Session.Call

/-!
# The dimension of a realization

The descriptor of a realization is fixed once, by whoever asks for it first: evaluation fixes a
point, and `as` what its argument asks for. From then on both read what is there. Whatever
operations come between, evaluation gives the coordinates of the fixed descriptor, and `as` accepts
the site exactly if it asks for as many coordinates.
-/

namespace Grounding

open GroundingM

variable {f g h : Formula} {v : Term} {s : NodeId} {d : Descriptor}

/-- The variable has a site with a distribution that is no point mass, and the descriptor of the
realization there is fixed. -/
structure Formula.Fixes (f : Formula) (v : Term) (s : NodeId) (d : Descriptor) : Prop where
  isSite : f.IsSite v s
  distribution : ∃ p, f.probability? s = some p ∧ pointMass? p = none
  descriptor : f.descriptor? (realizationName v s) = some d
  positive : 1 ≤ d.dimensions

theorem Formula.Fixes.grow (hf : f.Fixes v s d) (hfg : f.Extends g) : g.Fixes v s d where
  isSite := hfg.isSite hf.isSite
  distribution := by
    obtain ⟨p, hp, hpoint⟩ := hf.distribution
    exact ⟨p, hfg.probability?_of_some hp, hpoint⟩
  descriptor := hfg.descriptors _ _ hf.descriptor
  positive := hf.positive

/-- The number of coordinates that `as` asks for: those of a list, at least one, and else one. -/
def askedDimensions (value : Term) : Nat := max ((value.list?.map List.length).getD 1) 1

/-- What `as` binds its first argument to at a site with this descriptor. -/
def boundTerm (value : Term) (d : Descriptor) : Term :=
  if value.isList then .ofList d.coordinates else .coordinate d.name 0

/-- There is a first coordinate, so something is bound. -/
theorem boundValue?_coordinates (hpositive : 1 ≤ d.dimensions) (vector : Bool) :
    Builtin.boundValue? vector d.coordinates =
      some (if vector then .ofList d.coordinates else .coordinate d.name 0) := by
  obtain ⟨n, hn⟩ := Nat.exists_eq_add_of_le hpositive
  cases vector with
  | true => rfl
  | false =>
    simp [Builtin.boundValue?, Descriptor.coordinates, Term.coordinates, hn, Nat.add_comm 1 n,
      List.range_succ_eq_map]

/-- The error of `as` where another number of coordinates is fixed. -/
def dimensionError (value v : Term) (s : NodeId) (d : Descriptor) : Error :=
  .incorrectArgument
    (.pinnedDimensions (realizationName v s) d.dimensions (askedDimensions value))

namespace Formula.Fixes

theorem descriptorOf (hf : f.Fixes v s d) : f.descriptorOf v s = .ok (d, f) := by
  unfold Formula.descriptorOf
  rw [hf.descriptor]

theorem descriptorWith (hf : f.Fixes v s d) (n : Nat) : f.descriptorWith v s n =
    if d.dimensions = max n 1 then .ok (d, f)
    else .error (.incorrectArgument
      (.pinnedDimensions (realizationName v s) d.dimensions (max n 1))) := by
  unfold Formula.descriptorWith
  dsimp only
  rw [hf.descriptor]

theorem run_asResult (hf : f.Fixes v s d) (value : Term) :
    (Builtin.asResult v (value.list?.map List.length) s).run f =
      if askedDimensions value = d.dimensions then
        some (.ok (some ([boundTerm value d, v], f.body s)), f)
      else some (.error (dimensionError value v s d), f) := by
  have hask : (attempt (·.descriptorWith v s ((value.list?.map List.length).getD 1))).run f =
      if askedDimensions value = d.dimensions then some (.ok d, f)
      else some (.error (dimensionError value v s d), f) := by
    rw [run_attempt, hf.descriptorWith, ← askedDimensions]
    by_cases hdim : d.dimensions = askedDimensions value
    · rw [if_pos hdim, if_pos hdim.symm]
    · rw [if_neg hdim, if_neg (Ne.symm hdim), dimensionError]
  have hbound : Builtin.boundValue? (value.list?.map List.length).isSome d.coordinates =
      some (boundTerm value d) := by
    rw [Option.isSome_map]
    exact boundValue?_coordinates hf.positive _
  unfold Builtin.asResult
  split
  · next hdim =>
    rw [if_pos hdim] at hask
    rw [run_bind_ok hask, run_get_bind, hbound]
    rfl
  · next hdim =>
    rw [if_neg hdim] at hask
    exact run_bind_error hask _

end Formula.Fixes

theorem descriptorWith_dimensions {n : Nat} (hd : f.descriptorWith v s n = .ok (d, g)) :
    d.dimensions = max n 1 := by
  unfold Formula.descriptorWith at hd
  dsimp only at hd
  split at hd
  · split at hd
    · next hdim =>
      cases hd
      exact hdim
    · cases hd
  · exact (Formula.newDescriptor_inv (Formula.fixDescriptor_inv hd).1).2

/-- Every site that `as` accepts gives a result. -/
theorem asResult_isSome {length : Option Nat} {result : Option (List Term × Guard)}
    (hrun : (Builtin.asResult v length s).run f = some (.ok result, g)) : result.isSome := by
  rcases run_bind_cases hrun with ⟨_, _, he⟩ | ⟨d, f', hd, hrun⟩
  · cases he
  have hpositive : 1 ≤ d.dimensions := by
    rw [descriptorWith_dimensions (run_attempt_ok hd)]
    exact Nat.le_max_right _ 1
  rw [run_get_bind] at hrun
  cases hrun
  rw [boundValue?_coordinates hpositive]
  rfl

namespace Formula.Fixes

variable {before after : List NodeId}

end Formula.Fixes

theorem pointOrVector_coordinates (name : String) (n : Nat) :
    pointOrVector (Term.coordinates name n) =
      if n = 1 then .coordinate name 0 else .ofList (Term.coordinates name n) := by
  match n with
  | 0 | 1 => rfl
  | n + 2 =>
    rw [if_neg (by omega)]
    simp only [Term.coordinates, List.range_succ_eq_map, List.map_cons, pointOrVector]

namespace Formula

/-- A variable with one site. -/
def normal : Formula :=
  (empty.addSite (.atom "x") (some (.compound "normal" [.constant (.int 0), .constant (.int 1)]))
    .always).2

/-- The variable is realized as a vector of two coordinates. -/
def normalVector : Formula :=
  normal.withDescriptor ⟨"normal", [.constant (.int 0), .constant (.int 1)], "x#1", 2⟩

theorem empty_leadsTo_normal : LeadsTo .empty normal :=
  .step (.site (.atom "x") (some (.compound "normal" [.constant (.int 0), .constant (.int 1)]))
    .always) .refl rfl

theorem empty_leadsTo_normalVector : LeadsTo .empty normalVector :=
  .step (.call standardContext 1 "as" [.ofList [.var "A", .var "B"], .atom "x"])
    empty_leadsTo_normal rfl

end Formula

end Grounding
