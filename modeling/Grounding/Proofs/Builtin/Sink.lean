import Grounding.Proofs.Computation
import Grounding.Builtin.Standard

/-!
# Builtins that push their results

A builtin may push its results into a sink one by one while it works on the formula. The sink is
only read when the builtin is through: an error keeps what was done to the formula, and drops what
was pushed. `SinkM.collect` turns a rule that pushes into one that returns its results, and each
standard builtin pushes a result as soon as it has it.
-/

namespace Grounding

open GroundingM

/-- Computations with a sink beside the formula. An error keeps both. -/
abbrev SinkM := ExceptT Error (StateT Results (StateT Formula Option))

namespace SinkM

variable {α β : Type} {pushed : Results}

/-- A computation on the formula, which does not touch the sink. -/
def lift (m : GroundingM α) : SinkM α := ExceptT.mk (StateT.lift m.run)

/-- Adds a result at the end. -/
def push (args : List Term) (guard : Guard) : SinkM Unit := modify (· ++ [(args, guard)])

def pushAll (results : Results) : SinkM Unit := results.forM fun r => push r.1 r.2

/-- Works on one item after the other and pushes what comes of each, if anything. -/
def pushEach (k : α → GroundingM (Option (List Term × Guard))) (xs : List α) : SinkM Unit :=
  xs.forM fun x => do pushAll (← lift (k x)).toList

/-- The answer together with the sink; an error leaves no sink. -/
def runFrom (pushed : Results) (m : SinkM α) : GroundingM (α × Results) :=
  ExceptT.mk fun f => ((m.run.run pushed).run f).map fun p => (p.1.1.map (·, p.1.2), p.2)

/-- The results in the sink at the end. -/
def collect (m : SinkM Unit) : GroundingM Results := do
  let (_, results) ← runFrom [] m
  return results

theorem runFrom_lift (m : GroundingM α) :
    runFrom pushed (lift m) = (fun a => (a, pushed)) <$> m := by
  funext f
  show (((m.run f).bind _).map _ : Option _) = (m.run f).bind _
  cases m.run f with
  | none => rfl
  | some p => obtain ⟨_ | _, _⟩ := p <;> rfl

theorem runFrom_bind (m : SinkM α) (k : α → SinkM β) :
    runFrom pushed (m >>= k) = runFrom pushed m >>= fun p => runFrom p.2 (k p.1) := by
  funext f
  show ((((m.run.run pushed).run f).bind _).map _ : Option _) =
    (((m.run.run pushed).run f).map _).bind _
  cases (m.run.run pushed).run f with
  | none => rfl
  | some p => obtain ⟨⟨_ | _, _⟩, _⟩ := p <;> rfl

theorem runFrom_lift_bind (m : GroundingM α) (k : α → SinkM β) :
    runFrom pushed (lift m >>= k) = m >>= fun a => runFrom pushed (k a) := by
  rw [runFrom_bind, runFrom_lift, bind_map_left]

theorem runFrom_push (args : List Term) (guard : Guard) :
    runFrom pushed (push args guard) = pure ((), pushed ++ [(args, guard)]) := rfl

theorem runFrom_pushAll (results : Results) :
    runFrom pushed (pushAll results) = pure ((), pushed ++ results) := by
  induction results generalizing pushed with
  | nil => rw [List.append_nil]; rfl
  | cons r rs ih =>
    show runFrom pushed (push r.1 r.2 >>= fun _ => pushAll rs) = _
    rw [runFrom_bind, runFrom_push, pure_bind, ih, List.append_assoc]
    rfl

theorem runFrom_pushEach (k : α → GroundingM (Option (List Term × Guard))) (xs : List α) :
    runFrom pushed (pushEach k xs) =
      (fun results => ((), pushed ++ results.filterMap id)) <$> xs.mapM k := by
  induction xs generalizing pushed with
  | nil =>
    show (pure ((), pushed) : GroundingM (Unit × Results)) = _
    rw [List.mapM_nil, map_pure, List.filterMap_nil, List.append_nil]
  | cons x xs ih =>
    show runFrom pushed ((do pushAll (← lift (k x)).toList) >>= fun _ => pushEach k xs) = _
    rw [bind_assoc, runFrom_lift_bind, List.mapM_cons, map_bind]
    congr 1
    funext r
    rw [runFrom_bind, runFrom_pushAll, pure_bind, ih, map_bind, map_eq_pure_bind]
    congr 1
    funext rs
    cases r <;> simp

theorem collect_lift_bind (m : GroundingM α) (k : α → SinkM Unit) :
    collect (lift m >>= k) = m >>= fun a => collect (k a) := by
  unfold collect
  rw [runFrom_lift_bind, bind_assoc]

theorem collect_pushAll (results : Results) : collect (pushAll results) = pure results := by
  unfold collect
  rw [runFrom_pushAll, pure_bind]
  rfl

theorem collect_pushEach (k : α → GroundingM (Option (List Term × Guard))) (xs : List α) :
    collect (pushEach k xs) = (fun results => results.filterMap id) <$> xs.mapM k := by
  unfold collect
  rw [runFrom_pushEach, bind_map_left]
  exact (map_eq_pure_bind _ _).symm

/-- If every item gives a result, the sink holds all of them. -/
theorem collect_pushEach_some (k : α → GroundingM (List Term × Guard)) (xs : List α) :
    collect (pushEach (fun x => some <$> k x) xs) = xs.mapM k := by
  rw [collect_pushEach, ← map_mapM]
  simp

/-- A run that collects drops the sink of an error. -/
theorem run_collect (m : SinkM Unit) (f : Formula) :
    (collect m).run f =
      ((m.run.run []).run f).map fun p => (p.1.1.map fun _ => p.1.2, p.2) := by
  show (((m.run.run []).run f).map _).bind _ = _
  cases (m.run.run []).run f with
  | none => rfl
  | some p => obtain ⟨⟨_ | _, _⟩, _⟩ := p <;> rfl

end SinkM

/-- The builtin returns what the rule pushes. -/
def Builtin.PushesBy (b : Builtin) (rule : Scope → List Term → SinkM Unit) : Prop :=
  ∀ scope args, b.run scope args = SinkM.collect (rule scope args)

/-- Pushes the results when they are all there. -/
def Builtin.pushAtEnd (b : Builtin) (scope : Scope) (args : List Term) : SinkM Unit := do
  SinkM.pushAll (← SinkM.lift (b.run scope args))

theorem Builtin.pushesBy_pushAtEnd (b : Builtin) : b.PushesBy b.pushAtEnd := by
  intro scope args
  unfold pushAtEnd
  rw [SinkM.collect_lift_bind]
  simp only [SinkM.collect_pushAll, bind_pure]

open SinkM

/-- A rule for one argument, which is given by position. -/
def Builtin.pushOne (name : String) (rule : Scope → Term → SinkM Unit) (scope : Scope) :
    List Term → SinkM Unit
  | [a] => rule scope a
  | args => lift (throw (.incorrectArgument (.argumentCount name 1 args.length)))

/-- A rule for two arguments, which are given by position. -/
def Builtin.pushTwo (name : String) (rule : Scope → Term → Term → SinkM Unit) (scope : Scope) :
    List Term → SinkM Unit
  | [a, b] => rule scope a b
  | args => lift (throw (.incorrectArgument (.argumentCount name 2 args.length)))

theorem Builtin.unary_pushesBy {name mode : String} {rule : Scope → Term → GroundingM Results}
    {pushing : Scope → Term → SinkM Unit}
    (h : ∀ scope a, collect (pushing scope a) = rule scope a) :
    (unary name mode rule).PushesBy (pushOne name pushing) := by
  intro scope args
  match args with
  | [a] => exact (h scope a).symm
  | [] | _ :: _ :: _ => rfl

theorem Builtin.binary_pushesBy {name mode : String}
    {rule : Scope → Term → Term → GroundingM Results} {pushing : Scope → Term → Term → SinkM Unit}
    (h : ∀ scope a b, collect (pushing scope a b) = rule scope a b) :
    (binary name mode rule).PushesBy (pushTwo name pushing) := by
  intro scope args
  match args with
  | [a, b] => exact (h scope a b).symm
  | [] | [_] | _ :: _ :: _ :: _ => rfl

/-- Pushes the answer to each pair of values once the pair is decided. -/
def Comparison.pushResults (k : Comparison) (scope : Scope) (left right : Term) : SinkM Unit := do
  let lefts ← lift (scope.evaluate left)
  let rights ← lift (scope.evaluate right)
  let _ ← lift (ofExcept (checkProductSize [lefts, rights] scope.settings.maxCombinations))
  pushEach (fun (a, b) => some <$> k.pairResult scope.settings [left, right] a b)
    (lefts.flatMap fun a => rights.map (a, ·))

theorem Comparison.collect_pushResults (k : Comparison) (scope : Scope) (left right : Term) :
    collect (k.pushResults scope left right) = k.results scope left right := by
  unfold pushResults results
  simp only [collect_lift_bind, collect_pushEach_some]

namespace Builtin

/-- Pushes the value at each site once its descriptor is fixed. -/
def pushAs (_ : Scope) (value v : Term) : SinkM Unit := do
  match (← lift get).sites? v with
  | none => lift (throw (.undefinedRealization v))
  | some sites => pushEach (asResult v (value.list?.map List.length)) sites

theorem collect_pushAs (scope : Scope) (value v : Term) :
    collect (pushAs scope value v) = asResults scope value v := by
  unfold pushAs asResults
  rw [collect_lift_bind]
  congr 1
  funext f
  cases f.sites? v with
  | none => rfl
  | some sites =>
    dsimp only
    rw [collect_pushEach, map_eq_pure_bind]

/-- Pushes each site once its density is registered. -/
def pushDensities (_ : Scope) (v : Term) : SinkM Unit := do
  match (← lift get).sites? v with
  | none => lift (throw (.notARandomVariable v))
  | some sites => pushEach (fun site => some <$> densityResult v site) sites

theorem collect_pushDensities (scope : Scope) (v : Term) :
    collect (pushDensities scope v) = densityResults scope v := by
  unfold pushDensities densityResults
  rw [collect_lift_bind]
  congr 1
  funext f
  cases f.sites? v with
  | none => rfl
  | some sites => exact collect_pushEach_some _ _

/-- Pushes each observed value once its condition is registered. -/
def pushObservations (scope : Scope) (value observed : Term) : SinkM Unit := do
  let values ← lift (observedValues scope value observed)
  pushEach (fun o => some <$> observationResult value o)
    (values.filterMap fun v => v.value.term?.map (·, v.guard))

theorem collect_pushObservations (scope : Scope) (value observed : Term) :
    collect (pushObservations scope value observed) = observationResults scope value observed := by
  unfold pushObservations observationResults
  simp only [collect_lift_bind, collect_pushEach_some]

end Builtin

end Grounding
