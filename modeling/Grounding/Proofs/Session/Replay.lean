import Grounding.Proofs.Replay
import Grounding.Proofs.Session.Operation

/-!
# Calls and evaluations replay

On a reachable formula every evaluation and every call of a standard builtin comes to the same
outcome if it is made again at once, and the second time the formula stays as it is. This includes
calls that fail or abort half way, whatever the settings.
-/

namespace Grounding

open GroundingM

variable {f g : Formula} {c : Context} {fuel : Nat}

theorem realizedValue_replays (v : Term) {site : NodeId} (hsite : g.Knows (.node site)) :
    Replays g (realizedValue v site) := by
  unfold realizedValue
  refine .get_bind (fun h hgh => ?_) ?_
  · rw [hgh.body_eq, hgh.grown.probability?_eq hsite]
  · cases g.probability? site with
    | none => exact .pure _
    | some distribution =>
      dsimp only
      cases pointMass? distribution with
      | some n => exact .pure _
      | none =>
        have hdescriptor : Replays g (attempt (·.descriptorOf v site)) :=
          .attempt fun _ _ => Formula.descriptorOf_again
        exact hdescriptor.bind fun _ _ _ => .pure _

/-- The sites of a well-formed formula name nodes, and still do once it has grown. -/
theorem knows_site (hf : f.WellFormed) (hfg : f.GrowsTo g) {v : Term} {sites : List NodeId}
    (hs : g.sites? v = some sites) {site : NodeId} (hsite : site ∈ sites) :
    g.Knows (.node site) := by
  rw [hfg.sites?_eq] at hs
  exact hfg.grown.knows (hf.sites v site (Formula.mem_sites_of_sites? hs hsite))

theorem realizedValues_replays (hf : f.WellFormed) (hfg : f.GrowsTo g) (v : Term) :
    Replays g (realizedValues v) := by
  unfold realizedValues
  refine .get_bind (fun h hgh => by rw [hgh.sites?_eq]) ?_
  cases hs : g.sites? v with
  | none => exact .throw _
  | some sites =>
    exact .mapM fun site hsite h hgh =>
      realizedValue_replays v (hgh.grown.knows (knows_site hf hfg hs hsite))

theorem applyToOperands_replays (settings : Settings) (function : ArithmeticFunction)
    (operands : List (List GuardedValue)) :
    Replays g (applyToOperands settings function operands) := by
  have htuple (tuple : List GuardedValue) (h : Formula) :
      Replays h (applyToTuple function tuple) :=
    (Replays.conjoinAll h _).bind fun _ _ _ => .ofExcept_bind fun _ => .pure _
  exact .ofExcept_bind fun _ => .mapM fun tuple _ h _ => htuple tuple h

section Step

variable {next : List Term → Term → GroundingM (List GuardedValue)}

theorem alternativeValues_replays (hf : f.WellFormed) (hfg : f.GrowsTo g)
    {next : Term → GroundingM (List GuardedValue)} (t a : Term) (hnext : Replays g (next a)) :
    Replays g (alternativeValues c next t a) := by
  unfold alternativeValues
  refine .get_bind (fun h hgh => ?_) ?_
  · rw [Formula.isRandomVariable, hgh.sites?_eq, Formula.isRandomVariable]
  · split
    · exact realizedValues_replays hf hfg a
    · split
      · exact .throw _
      · exact hnext

theorem realizationValues_replays (hf : f.WellFormed) (hfg : f.GrowsTo g) (resolving : List Term)
    (t : Term) (hnext : ∀ resolving a g, f.GrowsTo g → Replays g (next resolving a)) :
    Replays g (realizationValues c next resolving t) := by
  have hresolve (h : Formula) (hfh : f.GrowsTo h) : Replays h (do
      let as ← ofExcept (c.resolve t)
      let values ← as.mapM (alternativeValues c (next (t :: resolving)) t)
      return values.flatten) := by
    refine .ofExcept_bind fun as => ?_
    have halternatives : Replays h (as.mapM (alternativeValues c (next (t :: resolving)) t)) :=
      .mapM fun a _ h' hhh' => alternativeValues_replays hf (hfh.trans hhh') t a
        (hnext (t :: resolving) a h' (hfh.trans hhh'))
    exact halternatives.bind fun _ _ _ => .pure _
  unfold realizationValues
  split
  · exact (Replays.throw _).bind fun _ h hgh => hresolve h (hfg.trans hgh)
  · exact hresolve g hfg

theorem evaluateStep_replays (hf : f.WellFormed) (hfg : f.GrowsTo g) (resolving : List Term)
    (t : Term) (hnext : ∀ resolving a g, f.GrowsTo g → Replays g (next resolving a)) :
    Replays g (evaluateStep c next resolving t) := by
  by_cases ht : t.isCallable
  · rw [evaluateStep_callable ht]
    cases c.functions.calledBy? t with
    | some function =>
      have hargs : Replays g (t.args.mapM (next resolving)) :=
        .mapM fun a _ h hgh => hnext resolving a h (hfg.trans hgh)
      exact hargs.bind fun _ _ _ => applyToOperands_replays _ _ _
    | none => exact realizationValues_replays hf hfg resolving t hnext
  · cases t with
    | atom | compound => exact absurd rfl ht
    | var => exact .throw _
    | constant | symbolic | density | realized | coordinate => exact .pure _

end Step

theorem evaluateWith_replays (hf : f.WellFormed) (hfg : f.GrowsTo g) (fuel : Nat)
    (resolving : List Term) (t : Term) : Replays g (evaluateWith c fuel resolving t) := by
  induction fuel generalizing resolving t g with
  | zero => exact .outOfFuel
  | succ fuel ih =>
    exact evaluateStep_replays hf hfg resolving t fun resolving a g hfg => ih hfg resolving a

theorem evaluate_replays (hf : f.WellFormed) (hfg : f.GrowsTo g) (t : Term) :
    Replays g (evaluate c fuel t) := evaluateWith_replays hf hfg fuel [] t

theorem conditionResult_replays (functor : String) (operands : List Term) (x : Guard) :
    Replays g (Comparison.conditionResult functor operands x) :=
  (Replays.addAtom g _ _ _).bind fun _ h _ => (Replays.conjoinAll h _).bind fun _ _ _ => .pure _

theorem pairResult_replays (k : Comparison) (settings : Settings) (args : List Term)
    (a b : GuardedValue) : Replays g (k.pairResult settings args a b) := by
  have hpassing (x y : Number) (guard : Guard) (h : Formula) :
      Replays h (k.passingGuard settings x y guard) := by
    unfold Comparison.passingGuard
    split
    · exact (Replays.addAtom h _ _ _).bind fun _ h' _ => .conjoinAll h' _
    · exact .pure _
  unfold Comparison.pairResult
  refine (Replays.conjoinAll g _).bind fun x h _ => ?_
  split
  · split
    · exact (hpassing _ _ x h).bind fun _ _ _ => .pure _
    · exact .pure _
  · exact .pure _
  · exact .pure _
  · exact conditionResult_replays _ _ x

namespace Builtin

theorem comparison_replays (hf : f.WellFormed) (k : Comparison) (left right : Term) :
    Replays f (k.results (c.scope fuel) left right) := by
  unfold Comparison.results
  refine (evaluate_replays hf (.refl f) left).bind fun ls g hfg => ?_
  refine (evaluate_replays hf hfg right).bind fun rs h hgh => ?_
  exact .ofExcept_bind fun _ => .mapM fun p _ h _ => pairResult_replays k _ _ p.1 p.2

theorem isResults_replays (hf : f.WellFormed) (x t : Term) :
    Replays f (isResults (c.scope fuel) x t) :=
  (evaluate_replays hf (.refl f) t).bind fun _ _ _ => .pure _

theorem asResults_replays (value v : Term) : Replays f (asResults (c.scope fuel) value v) := by
  have hsite (length : Option Nat) (site : NodeId) (h : Formula) :
      Replays h (asResult v length site) := by
    have hdescriptor : Replays h (attempt (·.descriptorWith v site (length.getD 1))) :=
      .attempt fun _ _ => Formula.descriptorWith_again
    refine hdescriptor.bind fun d h' _ => .get_bind (fun h'' hgrows => ?_) (.pure _)
    rw [hgrows.body_eq]
  unfold asResults
  refine .get_bind (fun g hfg => by rw [hfg.sites?_eq]) ?_
  cases f.sites? v with
  | none => exact .throw _
  | some sites =>
    have hall : Replays f (sites.mapM (asResult v (value.list?.map List.length))) :=
      .mapM fun site _ h _ => hsite _ site h
    exact hall.bind fun _ _ _ => .pure _

theorem densityResults_replays (v : Term) : Replays f (densityResults (c.scope fuel) v) := by
  have hsite (site : NodeId) (h : Formula) : Replays h (densityResult v site) := by
    refine .get_bind (fun g hhg => by rw [hhg.body_eq]) ?_
    let density := Term.density (realizationName v site)
    have hname := h.extends_addName density (h.body site) .query
    have hdensity := (h.addName density (h.body site) .query).extends_addDensity v density
    refine (Replays.modify ⟨hname.trans hdensity, rfl, rfl⟩ fun g hg => ?_).bind fun _ _ _ => .pure _
    rw [Formula.addName_again (hdensity.trans hg.grown), Formula.addDensity_again hg.grown]
  unfold densityResults
  refine .get_bind (fun g hfg => by rw [hfg.sites?_eq]) ?_
  cases f.sites? v with
  | none => exact .throw _
  | some sites => exact .mapM fun site _ h _ => hsite site h

theorem addFree_foldl_again (vs : List Term) :
    f.GrowsTo (vs.foldl (fun f v => f.addFree v) f) ∧
      ∀ g, (vs.foldl (fun f v => f.addFree v) f).GrowsTo g →
        vs.foldl (fun f v => f.addFree v) g = g := by
  induction vs generalizing f with
  | nil => exact ⟨.refl f, fun _ _ => rfl⟩
  | cons v vs ih =>
    obtain ⟨hrest, hagain⟩ := ih (f := f.addFree v)
    have hstep : f.GrowsTo (f.addFree v) := ⟨f.extends_addFree v, rfl, rfl⟩
    refine ⟨hstep.trans hrest, fun g hg => ?_⟩
    rw [List.foldl_cons, Formula.addFree_again (hrest.trans hg).grown, hagain g hg]

theorem freeResults_replays (v : Term) : Replays f (freeResults (c.scope fuel) v) := by
  obtain ⟨hgrows, hagain⟩ := addFree_foldl_again (f := f) [v]
  exact (Replays.modify hgrows hagain).bind fun _ _ _ => .pure _

theorem freeListResults_replays (vs : Term) : Replays f (freeListResults (c.scope fuel) vs) := by
  unfold freeListResults
  cases vs.list? with
  | none => exact .throw _
  | some items =>
    obtain ⟨hgrows, hagain⟩ := addFree_foldl_again (f := f) items
    exact (Replays.modify hgrows hagain).bind fun _ _ _ => .pure _

theorem observedVectors_replays (hf : f.WellFormed) (items : List Term) :
    Replays f (observedVectors (c.scope fuel) items) := by
  have htuple (tuple : List GuardedValue) (h : Formula) : Replays h (observedTuple tuple) :=
    (Replays.conjoinAll h _).bind fun _ _ _ => .pure _
  have hitems : Replays f (items.mapM (evaluate c fuel)) :=
    .mapM fun t _ g hfg => evaluate_replays hf hfg t
  exact hitems.bind fun _ _ _ => .ofExcept_bind fun _ => .mapM fun tuple _ h _ => htuple tuple h

theorem observedValues_replays (hf : f.WellFormed) (value observed : Term) :
    Replays f (observedValues (c.scope fuel) value observed) := by
  unfold observedValues
  cases value.list? with
  | some coordinates =>
    exact .ofExcept_bind fun _ => .ofExcept_bind fun items => observedVectors_replays hf items
  | none =>
    refine .ofExcept_bind fun _ => ?_
    cases observed.list? with
    | some items => exact .throw _
    | none => exact evaluate_replays hf (.refl f) observed

theorem observationResults_replays (hf : f.WellFormed) (value observed : Term) :
    Replays f (observationResults (c.scope fuel) value observed) :=
  (observedValues_replays hf value observed).bind fun _ _ _ =>
    .mapM fun o _ _ _ => conditionResult_replays observationFunctor [value, o.1] o.2

end Builtin

theorem run_replays (hf : f.WellFormed) {b : Builtin} (hb : b ∈ BuiltinTable.standardBuiltins)
    (args : List Term) : Replays f (b.run (c.scope fuel) args) := by
  refine BuiltinTable.run_standard .throw ?_ ?_ ?_ ?_ ?_ ?_ ?_ hb args
  · exact fun k t u => Builtin.comparison_replays hf k t u
  · exact fun t u => Builtin.isResults_replays hf t u
  · exact fun t => Builtin.densityResults_replays t
  · exact fun t => Builtin.freeResults_replays t
  · exact fun t => Builtin.freeListResults_replays t
  · exact fun t u => Builtin.asResults_replays t u
  · exact fun t u => Builtin.observationResults_replays hf t u

/-- A call does the same again, also if it failed or aborted. -/
theorem run_call_again (hf : f.WellFormed) {name : String} {args : List Term}
    {r : Except Error Answers}
    (h : (BuiltinTable.standard.call (c.scope fuel) name args).run f = some (r, g)) :
    (BuiltinTable.standard.call (c.scope fuel) name args).run g = some (r, g) := by
  unfold BuiltinTable.call at h ⊢
  cases hfind : BuiltinTable.standard.find? name args.length with
  | none =>
    rw [hfind] at h
    cases h
    rfl
  | some b =>
    rw [hfind] at h
    dsimp only at h ⊢
    have hbody : Replays f (do
        ofExcept (Mode.check name b.mode args)
        return Answers.completed (← b.run (c.scope fuel) args) : GroundingM Answers) :=
      .ofExcept_bind fun _ =>
        (run_replays hf (BuiltinTable.mem_of_find? hfind) args).bind fun _ _ _ => .pure _
    rw [run_tryCatch, Option.bind_eq_some_iff] at h
    obtain ⟨⟨r', g'⟩, hrun, h⟩ := h
    obtain ⟨-, hagain, -⟩ := hbody _ _ hrun
    -- turning an error into a failed call leaves the formula alone
    have hg : g' = g := by
      cases r' with
      | ok answers =>
        cases h
        rfl
      | error e =>
        dsimp only [BuiltinTable.recover] at h
        split at h <;> cases h <;> rfl
    subst hg
    rw [run_tryCatch, hagain]
    exact h

/-- Calls of the standard builtins and evaluations replay on every reachable formula. -/
theorem replay (hf : f.Reachable) (c : Context) (fuel : Nat) :
    (∀ name args r g, (BuiltinTable.standard.call (c.scope fuel) name args).run f = some (r, g) →
      (BuiltinTable.standard.call (c.scope fuel) name args).run g = some (r, g)) ∧
    ∀ t r g, (evaluate c fuel t).run f = some (r, g) →
      (evaluate c fuel t).run g = some (r, g) := by
  refine ⟨fun name args r g h => run_call_again hf.wellFormed h, fun t r g h => ?_⟩
  exact (evaluate_replays hf.wellFormed (.refl f) t r g h).2.1

/-- A comparison that registers a condition finds it when it is called again. -/
theorem replay_rainy : ∃ r g,
    (BuiltinTable.standard.call (standardContext.scope 1) Comparison.less.name
        [.atom "x", .constant (.int 3)]).run Formula.rainy = some (r, g) ∧
      g.size = 4 ∧
      (BuiltinTable.standard.call (standardContext.scope 1) Comparison.less.name
        [.atom "x", .constant (.int 3)]).run g = some (r, g) := by
  obtain ⟨hcall, -⟩ := replay Formula.rainy_reachable standardContext 1
  exact ⟨_, _, rfl, rfl, hcall _ _ _ _ rfl⟩

end Grounding
