import Grounding.Proofs.Evaluation.Termination
import Grounding.Proofs.Session.Effect

/-!
# Evaluation over all sites

Evaluation applies a function to every tuple of values before it looks at any guard, so an error of
one tuple is an error of the whole. What a run comes to is therefore told by an evaluation without
guards in which a random variable has a value for each of its sites, whatever the bodies, and which
ends with the first error on its way from left to right: the run ends with these values, or with
this error. The only other errors are those of the limit on products.

This is proved for expressions over point masses, whose sites have values that are known beforehand.
-/

namespace Grounding

open GroundingM

namespace Formula

/-- The values of a random variable at all of its sites. -/
def realizedAnywhere (f : Formula) (v : Term) : Option (List Value) :=
  (f.sites? v).map (List.map (f.siteValue v))

/-- A term at all sites, given its operands: the function that it calls on every choice of one value
for each operand, or its values as a random variable. -/
def termAnywhere (functions : FunctionTable) (f : Formula) (t : Term)
    (operands : Except Error (List (List Value))) : Except Error (List Value) :=
  match functions.calledBy? t with
  | some function => do (tuples (← operands)).mapM (plainValue function)
  | none =>
    match f.realizedAnywhere t with
    | some values => .ok values
    | none => .error (notEvaluable functions t)

mutual

/-- The values of an expression at all sites, where no term has other alternatives. -/
def valuesAnywhere (functions : FunctionTable) (f : Formula) : Term → Except Error (List Value)
  | .constant n => .ok [.number n]
  | .var name => .error (.incorrectArgument (.unbound name))
  | .atom name => f.termAnywhere functions (.atom name) (.ok [])
  | .compound name args =>
    f.termAnywhere functions (.compound name args) (f.operandsAnywhere functions args)
  | t => .ok [.symbolic t]

/-- The values of each expression at all sites; the first that has none decides. -/
def operandsAnywhere (functions : FunctionTable) (f : Formula) :
    List Term → Except Error (List (List Value))
  | [] => .ok []
  | t :: ts => do return (← f.valuesAnywhere functions t) :: (← f.operandsAnywhere functions ts)

end

theorem operandsAnywhere_eq_mapM (functions : FunctionTable) (f : Formula) (ts : List Term) :
    f.operandsAnywhere functions ts = ts.mapM (f.valuesAnywhere functions) := by
  induction ts with
  | nil => rfl
  | cons t ts ih => rw [operandsAnywhere, List.mapM_cons, ih]

theorem valuesAnywhere_callable {functions : FunctionTable} {f : Formula} {t : Term}
    (ht : t.isCallable) : f.valuesAnywhere functions t =
      f.termAnywhere functions t (t.args.mapM (f.valuesAnywhere functions)) := by
  cases t with
  | atom => rfl
  | compound => rw [valuesAnywhere, operandsAnywhere_eq_mapM, Term.args]
  | constant | var | symbolic | density | realized | coordinate => cases ht

/-- The site has a distribution that is a number or a point mass. -/
def IsPointMass (f : Formula) (s : NodeId) : Prop :=
  ∃ p n, f.probability? s = some p ∧ pointMass? p = some n

/-- Every random variable that is reached through the functions has point masses only. -/
inductive OverPointMasses (functions : FunctionTable) (f : Formula) : Term → Prop
  | leaf {t : Term} (ht : ¬ t.isCallable) : OverPointMasses functions f t
  | application {t : Term} {function : ArithmeticFunction}
      (hcalled : functions.calledBy? t = some function)
      (hargs : ∀ a ∈ t.args, OverPointMasses functions f a) : OverPointMasses functions f t
  | realization {t : Term} (ht : t.isCallable) (hcalled : functions.calledBy? t = none)
      (hsites : ∀ s, f.IsSite t s → f.IsPointMass s) : OverPointMasses functions f t

end Formula

/-- Whether the error is that of a product over the limit. -/
def Error.IsExplosion (e : Error) : Prop := ∃ size limit, e = .combinatorialExplosion size limit

section Runs

variable {α β γ δ : Type}

/-- The end of a run agrees with what was foreseen: an answer stands for it, and an error is the one
that was foreseen or means that a limit was exceeded. -/
def Agrees (stands : α → γ) (foreseen : Except Error γ) : Except Error α → Prop
  | .ok a => foreseen = .ok (stands a)
  | .error e => e.IsExplosion ∨ foreseen = .error e

/-- From every formula that evaluation leads to from `f`, the computation comes to an end, and the
end agrees with what was foreseen. -/
def Computes (f : Formula) (m : GroundingM α) (stands : α → γ) (foreseen : Except Error γ) : Prop :=
  ∀ g, f.Trail Edit.ByEvaluation g →
    ∃ r h, m.run g = some (r, h) ∧ f.Trail Edit.ByEvaluation h ∧ Agrees stands foreseen r

namespace Computes

variable {f : Formula} {stands : α → γ} {foreseen : Except Error γ}

theorem pure {a : α} (ha : foreseen = .ok (stands a)) :
    Computes f (pure a) stands foreseen := fun g hg => ⟨.ok a, g, rfl, hg, ha⟩

theorem throw (e : Error) : Computes f (throw e : GroundingM α) stands (.error e) :=
  fun g hg => ⟨.error e, g, rfl, hg, .inr rfl⟩

theorem get_bind {k : Formula → GroundingM α}
    (hk : ∀ g, f.Trail Edit.ByEvaluation g → Computes f (k g) stands foreseen) :
    Computes f (get >>= k) stands foreseen := fun g hg => hk g hg g hg

theorem bind {x : GroundingM α} {k : α → GroundingM β} {stands' : β → δ}
    {next : γ → Except Error δ} (hx : Computes f x stands foreseen)
    (hk : ∀ a, foreseen = .ok (stands a) → Computes f (k a) stands' (next (stands a))) :
    Computes f (x >>= k) stands' (foreseen >>= next) := by
  intro g hg
  obtain ⟨r, h, hrun, hh, hagrees⟩ := hx g hg
  cases r with
  | error e =>
    refine ⟨.error e, h, run_bind_error hrun k, hh, hagrees.imp_right fun herror => ?_⟩
    rw [herror]
    rfl
  | ok a =>
    obtain ⟨r', h', hrun', hh', hagrees'⟩ := hk a hagrees h hh
    refine ⟨r', h', (run_bind_ok hrun k).trans hrun', hh', ?_⟩
    rw [show foreseen = .ok (stands a) from hagrees]
    exact hagrees'

theorem ofExcept (r : Except Error α) : Computes f (ofExcept r) id r := by
  cases r with
  | ok a => exact .pure rfl
  | error e => exact .throw e

/-- An operation that evaluation may do, whose answer does not matter. -/
theorem update_bind {op : Formula → α × Formula} {k : α → GroundingM β} {stands : β → γ}
    (hop : Follows Edit.ByEvaluation (update op)) (hk : ∀ a, Computes f (k a) stands foreseen) :
    Computes f (update op >>= k) stands foreseen :=
  fun g hg => hk (op g).1 (op g).2 (hg.trans (hop _ _ _ (run_update op g)))

theorem mapM {k : α → GroundingM β} {stands : β → δ} {foreseen : α → Except Error δ} {xs : List α}
    (hk : ∀ x ∈ xs, Computes f (k x) stands (foreseen x)) :
    Computes f (xs.mapM k) (List.map stands) (xs.mapM foreseen) := by
  induction xs with
  | nil => exact .pure rfl
  | cons x xs ih =>
    rw [List.mapM_cons, List.mapM_cons]
    have hxs := ih fun y hy => hk y (List.mem_cons_of_mem x hy)
    exact (hk x List.mem_cons_self).bind fun b _ => hxs.bind fun bs _ => .pure rfl

end Computes

end Runs

variable {c : Context} {f : Formula} {t v : Term}

abbrev plain (vs : List GuardedValue) : List Value := vs.map (·.value)

/-- A point mass is worth its number, whatever evaluation did to the formula. -/
theorem realizedValue_computes {s : NodeId} (hs : f.IsPointMass s) :
    Computes f (realizedValue v s) (·.value) (.ok (f.siteValue v s)) := by
  obtain ⟨p, n, hp, hpoint⟩ := hs
  refine .get_bind fun g hg => ?_
  have hvalue : f.siteValue v s = .number n := by
    rw [Formula.siteValue, hp]
    simp only [hpoint]
  rw [hg.grows.probability?_of_some hp, hvalue]
  simp only [hpoint]
  exact .pure rfl

theorem mapM_ok {α β : Type} (k : α → β) (as : List α) :
    as.mapM (fun a => (.ok (k a) : Except Error β)) = .ok (as.map k) := by
  induction as with
  | nil => rfl
  | cons a as ih =>
    rw [List.mapM_cons, ih]
    rfl

theorem realizedValues_computes {sites : List NodeId} (hs : f.sites? v = some sites)
    (hpoints : ∀ s, f.IsSite v s → f.IsPointMass s) :
    Computes f (realizedValues v) plain (.ok (sites.map (f.siteValue v))) := by
  refine .get_bind fun g hg => ?_
  rw [hg.sites?_eq fun _ => Edit.ByEvaluation.keepsSites, hs, ← mapM_ok]
  exact .mapM fun s hmem => realizedValue_computes (hpoints s ⟨sites, hs, hmem⟩)

theorem applyToTuple_computes (function : ArithmeticFunction) (tuple : List GuardedValue) :
    Computes f (applyToTuple function tuple) (·.value) (plainValue function (plain tuple)) := by
  have hvalue (guard : Guard) : Computes f (do
      let value ← ofExcept (plainValue function (plain tuple))
      return (⟨value, guard⟩ : GuardedValue)) (·.value)
        (plainValue function (plain tuple) >>= Except.ok) :=
    (Computes.ofExcept _).bind fun value _ => .pure rfl
  unfold applyToTuple
  rw [function.onValues_eq_plainValue]
  rw [show (Except.ok : Value → Except Error Value) = Pure.pure from rfl, bind_pure] at hvalue
  exact .update_bind (conjoinAll_follows _ trivial) hvalue

/-- The application of a function is foreseen from the values of its operands alone. -/
theorem applyToOperands_computes (settings : Settings) (function : ArithmeticFunction)
    (operands : List (List GuardedValue)) :
    Computes f (applyToOperands settings function operands) plain
      ((tuples (operands.map plain)).mapM (plainValue function)) := by
  have hall : Computes f ((tuples operands).mapM (applyToTuple function)) plain
      ((tuples (operands.map plain)).mapM (plainValue function)) := by
    rw [tuples_map, List.mapM_map]
    exact .mapM fun tuple _ => applyToTuple_computes function tuple
  intro g hg
  unfold applyToOperands
  cases hsize : checkProductSize operands settings.maxCombinations with
  | error e =>
    obtain ⟨size, rfl⟩ := checkProductSize_error hsize
    exact ⟨.error _, g, rfl, hg, .inl ⟨_, _, rfl⟩⟩
  | ok size => exact hall g hg

/-- A term as its own alternative is a random variable or nothing. -/
theorem alternativeValues_computes {next : Term → GroundingM (List GuardedValue)}
    (hcalled : c.functions.calledBy? t = none)
    (hpoints : ∀ s, f.IsSite t s → f.IsPointMass s) (operands : Except Error (List (List Value))) :
    Computes f (alternativeValues c next t t) plain (f.termAnywhere c.functions t operands) := by
  unfold Formula.termAnywhere Formula.realizedAnywhere
  rw [hcalled]
  refine .get_bind fun g hg => ?_
  have hrandom : g.isRandomVariable t = (f.sites? t).isSome := by
    rw [Formula.isRandomVariable, hg.sites?_eq fun _ => Edit.ByEvaluation.keepsSites]
  rw [hrandom]
  cases hs : f.sites? t with
  | none =>
    rw [Option.isSome_none, if_neg Bool.false_ne_true, if_pos rfl]
    exact .throw _
  | some sites =>
    rw [if_pos rfl]
    exact realizedValues_computes hs hpoints

/-- The only alternative of a term is the term itself. -/
theorem realizationValues_computes {next : List Term → Term → GroundingM (List GuardedValue)}
    (hresolve : c.resolve = Resolver.identity) (hcalled : c.functions.calledBy? t = none)
    (hpoints : ∀ s, f.IsSite t s → f.IsPointMass s) (operands : Except Error (List (List Value))) :
    Computes f (realizationValues c next [] t) plain
      (f.termAnywhere c.functions t operands) := by
  have hall : Computes f ([t].mapM (alternativeValues c (next [t]) t)) (List.map plain)
      ([t].mapM fun t => f.termAnywhere c.functions t operands) := by
    refine .mapM fun a ha => ?_
    rw [List.mem_singleton.mp ha]
    exact alternativeValues_computes hcalled hpoints operands
  have hflatten : Computes f (do
      let values ← [t].mapM (alternativeValues c (next [t]) t)
      return values.flatten) plain
        ([t].mapM (fun t => f.termAnywhere c.functions t operands) >>= fun vss =>
          .ok vss.flatten) :=
    hall.bind fun vss _ => .pure (congrArg Except.ok List.map_flatten.symm)
  have hforeseen : ([t].mapM fun t => f.termAnywhere c.functions t operands) >>=
      (fun vss => .ok vss.flatten) = f.termAnywhere c.functions t operands := by
    rw [List.mapM_cons, List.mapM_nil]
    cases f.termAnywhere c.functions t operands with
    | error e => rfl
    | ok vs => exact congrArg Except.ok (List.append_nil vs)
  rw [← hforeseen]
  unfold realizationValues
  rw [hresolve]
  exact hflatten

/-- An expression over point masses comes to the values that it has over all sites, or to the error
that it has there. -/
theorem evaluateWith_computes {fuel : Nat} (hresolve : c.resolve = Resolver.identity)
    (ht : f.OverPointMasses c.functions t) (hfuel : t.height ≤ fuel) :
    Computes f (evaluateWith c fuel [] t) plain (f.valuesAnywhere c.functions t) := by
  induction fuel generalizing t with
  | zero =>
    have hpositive := t.height_pos
    omega
  | succ fuel ih =>
    rw [evaluateWith]
    cases ht with
    | leaf hleaf =>
      cases t with
      | atom | compound => exact absurd rfl hleaf
      | var => exact .throw _
      | constant | symbolic | density | realized | coordinate => exact .pure rfl
    | @application _ function hcalled hargs =>
      have hcallable : t.isCallable := by
        cases t with
        | atom | compound => rfl
        | _ => cases hcalled
      have hoperands : Computes f (t.args.mapM (evaluateWith c fuel [])) (List.map plain)
          (t.args.mapM (f.valuesAnywhere c.functions)) := by
        refine .mapM fun a ha => ih (hargs a ha) ?_
        have := Term.height_lt_of_mem_args ha
        omega
      rw [evaluateStep_callable hcallable, Formula.valuesAnywhere_callable hcallable,
        Formula.termAnywhere, hcalled]
      exact hoperands.bind fun operands _ => applyToOperands_computes c.settings function operands
    | realization hcallable hcalled hsites =>
      rw [evaluateStep_callable hcallable, Formula.valuesAnywhere_callable hcallable, hcalled]
      exact realizationValues_computes hresolve hcalled hsites _

end Grounding
