import Grounding.Proofs.Evaluation.Meaning
import Grounding.Proofs.Invariant
import Grounding.Proofs.Term.Dependency

/-!
# What values depend on

Evaluation makes open expressions on values that it has, and reads coordinates of realizations. So
if every open expression that is supplied carries the names that it depends on, every open
expression that is made does, whatever the formula holds.
-/

namespace Grounding

open GroundingM Term

variable {c : Context} {I : Formula → Prop}

/-- The open expressions in the value carry the names that they depend on. -/
def Value.Labelled (v : Value) : Prop := ∀ t, v.term? = some t → t.Labelled

abbrev LabelledValues (vs : List GuardedValue) : Prop := ∀ v ∈ vs, v.value.Labelled

/-- Labelled terms have labelled alternatives only. -/
def Context.ResolvesLabelled (c : Context) : Prop :=
  ∀ t as, t.Labelled → c.resolve t = .ok as → ∀ a ∈ as, a.Labelled

theorem Value.labelled_symbolic {t : Term} (ht : t.Labelled) : (symbolic t).Labelled := by
  intro u hu
  cases hu
  exact ht

theorem Value.labelled_number (n : Number) : (number n).Labelled := by
  intro u hu
  cases hu
  exact labelled_constant n

theorem Value.labelled_undefined : undefined.Labelled := by
  intro u hu
  cases hu

theorem labelled_coordinates (name : String) (n : Nat) :
    ∀ a ∈ coordinates name n, a.Labelled := by
  intro a ha
  obtain ⟨i, -, rfl⟩ := List.mem_map.mp ha
  exact labelled_coordinate name i

theorem labelled_pointOrVector {items : List Term} (hitems : ∀ a ∈ items, a.Labelled) :
    (pointOrVector items).Labelled := by
  unfold pointOrVector
  split
  · exact hitems _ List.mem_cons_self
  · exact labelled_ofList hitems

/-- A function makes a labelled value of labelled operands. -/
theorem ArithmeticFunction.labelled_onValues {function : ArithmeticFunction} {operands : List Value}
    {value : Value} (hoperands : ∀ v ∈ operands, v.Labelled)
    (h : function.onValues operands = .ok value) : value.Labelled := by
  unfold onValues at h
  split at h
  · cases h
    exact Value.labelled_undefined
  · split at h
    · next numbers _ =>
      cases hn : function.apply numbers with
      | error e => rw [hn] at h; cases h
      | ok n => rw [hn] at h; cases h; exact Value.labelled_number n
    · cases h
      refine Value.labelled_symbolic (labelled_mkSymbolic fun a ha => ?_)
      obtain ⟨v, hv, hva⟩ := List.mem_filterMap.mp ha
      exact hoperands v hv a hva

theorem realizedValues_labelled (v : Term) :
    Maintains (fun _ => True) (realizedValues v) LabelledValues := by
  refine .get_bind fun f _ => ?_
  cases f.sites? v with
  | none => exact .throw
  | some sites =>
    refine .mapM fun site _ => .get_bind fun g _ => ?_
    dsimp only
    split
    · exact .pure Value.labelled_undefined
    · split
      · next n _ => exact .pure (Value.labelled_number n)
      · have hdescriptor : Maintains (fun _ => True) (attempt (·.descriptorOf v site))
            fun _ => True := .attempt fun _ _ _ _ _ => ⟨trivial, trivial⟩
        exact hdescriptor.bind fun d _ =>
          .pure (Value.labelled_symbolic (labelled_pointOrVector (labelled_coordinates _ _)))

theorem applyToOperands_labelled (settings : Settings) (function : ArithmeticFunction)
    {operands : List (List GuardedValue)} (hoperands : ∀ vs ∈ operands, LabelledValues vs) :
    Maintains (fun _ => True) (applyToOperands settings function operands) LabelledValues := by
  refine .ofExcept_bind fun _ _ => .mapM fun tuple htuple => ?_
  have hguard : Maintains (fun _ => True) (update (Formula.conjoinAll (tuple.map (·.guard))))
      fun _ => True := .update fun _ _ => ⟨trivial, trivial⟩
  have hlabelled : ∀ v ∈ tuple.map (·.value), v.Labelled := by
    refine List.forall_mem_map.mpr fun v hv => ?_
    obtain ⟨vs, hvs, hv⟩ := mem_of_mem_tuples htuple hv
    exact hoperands vs hvs v hv
  exact hguard.bind fun _ _ => .ofExcept_bind fun _ h =>
    .pure (ArithmeticFunction.labelled_onValues hlabelled h)

theorem alternativeValues_labelled {next : Term → GroundingM (List GuardedValue)} (t a : Term)
    (hnext : Maintains (fun _ => True) (next a) LabelledValues) :
    Maintains (fun _ => True) (alternativeValues c next t a) LabelledValues := by
  refine .get_bind fun f _ => ?_
  split
  · exact realizedValues_labelled a
  · split
    · exact .throw
    · exact hnext

theorem evaluateStep_labelled {next : List Term → Term → GroundingM (List GuardedValue)}
    (hc : c.ResolvesLabelled)
    (hnext : ∀ resolving a, a.Labelled →
      Maintains (fun _ => True) (next resolving a) LabelledValues)
    (resolving : List Term) {t : Term} (ht : t.Labelled) :
    Maintains (fun _ => True) (evaluateStep c next resolving t) LabelledValues := by
  have hcertain : Maintains (fun _ => True)
      (pure [.certain (.symbolic t)] : GroundingM (List GuardedValue)) LabelledValues :=
    .pure (List.forall_mem_singleton.mpr (Value.labelled_symbolic ht))
  by_cases hcallable : t.isCallable
  · rw [evaluateStep_callable hcallable]
    cases c.functions.calledBy? t with
    | some function =>
      exact (Maintains.mapM fun a ha => hnext resolving a (ht.part (.single ha))).bind
        fun _ hoperands => applyToOperands_labelled _ _ hoperands
    | none =>
      dsimp only
      unfold realizationValues
      split
      · exact .throw_bind
      · refine .ofExcept_bind fun as has => ?_
        refine (Maintains.mapM fun a ha => alternativeValues_labelled t a
          (hnext _ a (hc t as ht has a ha))).bind fun values hvalues => .pure fun v hv => ?_
        obtain ⟨vs, hvs, hv⟩ := List.mem_flatten.mp hv
        exact hvalues vs hvs v hv
  · cases t with
    | atom | compound => exact absurd rfl hcallable
    | var => exact .throw
    | constant n => exact .pure (List.forall_mem_singleton.mpr (Value.labelled_number n))
    | symbolic | density | realized | coordinate => exact hcertain

/-- Labelled expressions have labelled values, from any formula. -/
theorem evaluateWith_labelled (hc : c.ResolvesLabelled) (fuel : Nat) (resolving : List Term)
    {t : Term} (ht : t.Labelled) :
    Maintains (fun _ => True) (evaluateWith c fuel resolving t) LabelledValues := by
  induction fuel generalizing resolving t with
  | zero => exact .outOfFuel
  | succ fuel ih =>
    exact evaluateStep_labelled hc (fun resolving a ha => ih resolving ha) resolving ht

end Grounding
