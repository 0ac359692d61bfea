import Grounding.Proofs.Evaluation.Meaning
import Grounding.Proofs.Parallel

/-!
# Evaluations side by side

Evaluation meets the formula in two places only: where it reads a realization at a site, and where
it applies a function to a tuple of values. If two formulas have the same sites and these two steps
are parallel on them, so is the evaluation of every expression.
-/

namespace Grounding

open GroundingM

/-- The values `v` and `v'` of two evaluations are related by `S v v' g g'` in the formulas `g` and
`g'` that the evaluations have come to; these formulas are related by `R`. -/
structure Simulation (R : Formula → Formula → Prop)
    (S : GuardedValue → GuardedValue → Formula → Formula → Prop) : Prop where
  sites : ∀ g g', R g g' → g'.sites = g.sites
  stable : ∀ v v' g g' h h', g.Extends h → g'.Extends h' → S v v' g g' → S v v' h h'
  number : ∀ n g g', S (.certain (.number n)) (.certain (.number n)) g g'
  symbolic : ∀ t g g', t.isSymbolic → S (.certain (.symbolic t)) (.certain (.symbolic t)) g g'
  realized : ∀ v s g g', g.IsSite v s → Parallel R g g' (realizedValue v s) (realizedValue v s) S
  applied : ∀ function tuple tuple' g g', List.Forall₂ (fun v v' => S v v' g g') tuple tuple' →
    Parallel R g g' (applyToTuple function tuple) (applyToTuple function tuple') S

section Products

variable {α β : Type} {T : α → β → Prop} {xss : List (List α)} {yss : List (List β)}

theorem forall₂_tuples (h : List.Forall₂ (List.Forall₂ T) xss yss) :
    List.Forall₂ (List.Forall₂ T) (tuples xss) (tuples yss) := by
  induction h with
  | nil => exact .cons .nil .nil
  | cons hxs _ ih =>
    exact List.rel_flatMap hxs fun _ _ hxy => List.rel_map (fun _ _ hrest => .cons hxy hrest) ih

/-- The size of a product depends on the lengths of its operands only. -/
theorem checkProductSize_congr (h : List.Forall₂ (List.Forall₂ T) xss yss) (limit : Nat) :
    checkProductSize xss limit = checkProductSize yss limit := by
  have hsize : productSize xss = productSize yss := by
    refine List.rel_foldl (P := Eq) ?_ rfl h
    rintro size _ rfl xs ys hxs
    dsimp only
    rw [hxs.length_eq]
  rw [checkProductSize, checkProductSize, hsize]

end Products

namespace Simulation

variable {R : Formula → Formula → Prop}
  {S : GuardedValue → GuardedValue → Formula → Formula → Prop} {f f' : Formula} {c : Context}

/-- Lists of values that are related in order. -/
abbrev Values (S : GuardedValue → GuardedValue → Formula → Formula → Prop)
    (vs vs' : List GuardedValue) (g g' : Formula) : Prop :=
  List.Forall₂ (fun v v' => S v v' g g') vs vs'

theorem stable_values (sim : Simulation R S) (vs vs' : List GuardedValue) (g g' h h' : Formula)
    (hg : g.Extends h) (hg' : g'.Extends h') (hvs : Values S vs vs' g g') : Values S vs vs' h h' :=
  hvs.imp fun v v' => sim.stable v v' g g' h h' hg hg'

theorem sites?_eq (sim : Simulation R S) (hr : R f f') (v : Term) : f'.sites? v = f.sites? v := by
  rw [Formula.sites?, sim.sites f f' hr, Formula.sites?]

theorem realizedValues (sim : Simulation R S) (v : Term) :
    Parallel R f f' (Grounding.realizedValues v) (Grounding.realizedValues v) (Values S) := by
  unfold Grounding.realizedValues
  refine .get_bind fun hr => ?_
  rw [sim.sites?_eq hr]
  cases hs : f.sites? v with
  | none => exact .throw _
  | some sites =>
    refine .mapM_same (fun s hmem g g' hg _ => ?_) sim.stable
    exact sim.realized v s g g' (hg.isSite ⟨sites, hs, hmem⟩)

theorem applyToOperands (sim : Simulation R S) (settings : Settings)
    (function : ArithmeticFunction) {operands operands' : List (List GuardedValue)}
    (h : List.Forall₂ (fun vs vs' => Values S vs vs' f f') operands operands') :
    Parallel R f f' (Grounding.applyToOperands settings function operands)
      (Grounding.applyToOperands settings function operands') (Values S) := by
  unfold Grounding.applyToOperands
  rw [checkProductSize_congr h]
  refine .ofExcept_bind fun _ _ => .mapM (forall₂_tuples h) (fun tuple tuple' g g' hg hg' ht => ?_)
    sim.stable
  exact sim.applied function tuple tuple' g g' (sim.stable_values _ _ f f' g g' hg hg' ht)

variable {next : List Term → Term → GroundingM (List GuardedValue)}

theorem alternativeValues (sim : Simulation R S) {next : Term → GroundingM (List GuardedValue)}
    (t a : Term) (hnext : Parallel R f f' (next a) (next a) (Values S)) :
    Parallel R f f' (Grounding.alternativeValues c next t a)
      (Grounding.alternativeValues c next t a) (Values S) := by
  unfold Grounding.alternativeValues
  refine .get_bind fun hr => ?_
  rw [Formula.isRandomVariable, Formula.isRandomVariable, sim.sites?_eq hr]
  split
  · exact sim.realizedValues a
  · split
    · exact .throw _
    · exact hnext

theorem realizationValues (sim : Simulation R S) (resolving : List Term) (t : Term)
    (hnext : ∀ resolving a g g',
      Parallel R g g' (next resolving a) (next resolving a) (Values S)) :
    Parallel R f f' (Grounding.realizationValues c next resolving t)
      (Grounding.realizationValues c next resolving t) (Values S) := by
  have hresolve (g g' : Formula) : Parallel R g g' (do
      let as ← ofExcept (c.resolve t)
      let values ← as.mapM (Grounding.alternativeValues c (next (t :: resolving)) t)
      return values.flatten) (do
      let as ← ofExcept (c.resolve t)
      let values ← as.mapM (Grounding.alternativeValues c (next (t :: resolving)) t)
      return values.flatten) (Values S) := by
    refine .ofExcept_bind fun as _ => Parallel.bind (.mapM_same (fun a _ h h' _ _ =>
      sim.alternativeValues t a (hnext (t :: resolving) a h h')) sim.stable_values) ?_
    exact fun vss vss' h h' _ _ hvss => .pure fun _ => List.rel_flatten hvss
  unfold Grounding.realizationValues
  split
  · exact Parallel.bind (Q := fun _ _ _ _ => True) (.throw _) fun _ _ g g' _ _ _ => hresolve g g'
  · exact hresolve f f'

theorem evaluateStep (sim : Simulation R S) (resolving : List Term) (t : Term)
    (hnext : ∀ resolving a g g',
      Parallel R g g' (next resolving a) (next resolving a) (Values S)) :
    Parallel R f f' (Grounding.evaluateStep c next resolving t)
      (Grounding.evaluateStep c next resolving t) (Values S) := by
  by_cases ht : t.isCallable
  · rw [evaluateStep_callable ht]
    cases c.functions.calledBy? t with
    | some function =>
      refine Parallel.bind (.mapM_same (fun a _ g g' _ _ => hnext resolving a g g')
        sim.stable_values) fun vss vss' g g' _ _ hvss => ?_
      exact sim.applyToOperands c.settings function hvss
    | none => exact sim.realizationValues resolving t hnext
  · cases t with
    | atom | compound => exact absurd rfl ht
    | constant n => exact .pure fun _ => .cons (sim.number n f f') .nil
    | var => exact .throw _
    | symbolic | density | realized | coordinate =>
      exact .pure fun _ => .cons (sim.symbolic _ f f' rfl) .nil

/-- The evaluations of one expression are parallel. -/
theorem evaluate (sim : Simulation R S) (fuel : Nat) (t : Term) :
    Parallel R f f' (Grounding.evaluate c fuel t) (Grounding.evaluate c fuel t) (Values S) := by
  have hwith (fuel : Nat) : ∀ resolving t g g', Parallel R g g' (evaluateWith c fuel resolving t)
      (evaluateWith c fuel resolving t) (Values S) := by
    induction fuel with
    | zero => exact fun _ _ _ _ => .outOfFuel
    | succ fuel ih => exact fun resolving t g g' => sim.evaluateStep resolving t ih
  exact hwith fuel [] t f f'

end Simulation

section Guards

variable {R : Formula → Formula → Prop} {G : Guard → Guard → Formula → Formula → Prop}
  {g g' : Formula} {vs vs' : List GuardedValue}

/-- One value under two guards, which `G` relates. -/
structure SameUnder (G : Guard → Guard → Formula → Formula → Prop) (v v' : GuardedValue)
    (g g' : Formula) : Prop where
  value : v'.value = v.value
  guard : G v.guard v'.guard g g'

theorem SameUnder.map_value (hvs : Simulation.Values (SameUnder G) vs vs' g g') :
    vs'.map (·.value) = vs.map (·.value) := by
  induction hvs with
  | nil => rfl
  | cons hv _ ih => rw [List.map_cons, List.map_cons, hv.value, ih]

theorem SameUnder.map_guard (hvs : Simulation.Values (SameUnder G) vs vs' g g') :
    List.Forall₂ (fun x x' => G x x' g g') (vs.map (·.guard)) (vs'.map (·.guard)) :=
  List.rel_map (fun _ _ hv => hv.guard) hvs

/-- What it takes that evaluations come to the same values under guards that `G` relates: at every
site the formulas agree on the distribution, the descriptor and, up to `G`, the body, and conjoining
related guards gives related ones. -/
structure GuardSimulation (R : Formula → Formula → Prop)
    (G : Guard → Guard → Formula → Formula → Prop) : Prop where
  sites : ∀ g g', R g g' → g'.sites = g.sites
  stable : ∀ x x' g g' h h', g.Extends h → g'.Extends h' → G x x' g g' → G x x' h h'
  always : ∀ g g', G .always .always g g'
  probability : ∀ v s g g', R g g' → g.IsSite v s → g'.probability? s = g.probability? s
  body : ∀ v s g g', R g g' → g.IsSite v s → G (g.body s) (g'.body s) g g'
  descriptor : ∀ v s g g', g.IsSite v s → Parallel R g g' (attempt (·.descriptorOf v s))
    (attempt (·.descriptorOf v s)) fun d d' _ _ => d' = d
  conjoined : ∀ xs xs' g g', List.Forall₂ (fun x x' => G x x' g g') xs xs' →
    Parallel R g g' (update (Formula.conjoinAll xs)) (update (Formula.conjoinAll xs')) G

namespace GuardSimulation

theorem realizedValue (sim : GuardSimulation R G) {v : Term} {s : NodeId} (hs : g.IsSite v s) :
    Parallel R g g' (Grounding.realizedValue v s) (Grounding.realizedValue v s) (SameUnder G) := by
  unfold Grounding.realizedValue
  refine .get_bind fun hr => ?_
  have hbody := sim.body v s g g' hr hs
  rw [sim.probability v s g g' hr hs]
  split
  · exact .pure fun _ => ⟨rfl, hbody⟩
  · split
    · exact .pure fun _ => ⟨rfl, hbody⟩
    · refine (sim.descriptor v s g g' hs).bind fun d d' h h' hg hg' hd => .pure fun _ => ⟨?_, ?_⟩
      · rw [hd]
      · exact sim.stable _ _ g g' h h' hg hg' hbody

theorem applyToTuple (sim : GuardSimulation R G) (function : ArithmeticFunction)
    {tuple tuple' : List GuardedValue}
    (htuple : Simulation.Values (SameUnder G) tuple tuple' g g') :
    Parallel R g g' (Grounding.applyToTuple function tuple)
      (Grounding.applyToTuple function tuple') (SameUnder G) := by
  unfold Grounding.applyToTuple
  rw [SameUnder.map_value htuple]
  exact (sim.conjoined _ _ g g' (SameUnder.map_guard htuple)).bind fun x x' _ _ _ _ hx =>
    .ofExcept_bind fun value _ => .pure fun _ => ⟨rfl, hx⟩

theorem simulation (sim : GuardSimulation R G) : Simulation R (SameUnder G) where
  sites := sim.sites
  stable _ _ g g' h h' hg hg' hv := ⟨hv.value, sim.stable _ _ g g' h h' hg hg' hv.guard⟩
  number _ g g' := ⟨rfl, sim.always g g'⟩
  symbolic _ g g' _ := ⟨rfl, sim.always g g'⟩
  realized _ _ _ _ hs := sim.realizedValue hs
  applied function _ _ _ _ := sim.applyToTuple function

end GuardSimulation

end Guards

end Grounding
