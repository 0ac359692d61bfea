import Grounding.Proofs.Session.Operation

/-!
# What operations change, whatever the guards

A guard that names no node is stored and conjoined like any other. So the edits that an operation
makes can be told without asking what the guards of the formula name: evaluation makes its own, a
builtin those of its kind, and only the registration of a site touches the sites.
-/

namespace Grounding

open GroundingM

variable {c : Context} {fuel : Nat}

theorem conjoinAll_follows {P : Edit → Prop} (guards : List Guard) (hP : P (.conjunction guards)) :
    Follows P (update (Formula.conjoinAll guards)) :=
  .update fun _ => .single (e := .conjunction guards) hP trivial

theorem addAtom_follows {P : Edit → Prop} (t : Term) (p : Option Term) (s : Source)
    (hP : P (.atom t p s)) : Follows P (update (Formula.addAtom t p s)) :=
  .update fun _ => .single (e := .atom t p s) hP trivial

theorem realizedValue_follows (v : Term) (site : NodeId) :
    Follows Edit.ByEvaluation (realizedValue v site) := by
  refine .bind .get fun f => ?_
  dsimp only
  split
  · exact .pure _
  · split
    · exact .pure _
    · exact (Follows.attempt fun _ _ _ h => (Formula.descriptorOf_chain h).1.trail).bind
        fun _ => .pure _

theorem realizedValues_follows (v : Term) : Follows Edit.ByEvaluation (realizedValues v) := by
  refine .bind .get fun f => ?_
  split
  · exact .mapM (realizedValue_follows v) _
  · exact .throw _

theorem applyToOperands_follows (settings : Settings) (function : ArithmeticFunction)
    (operands : List (List GuardedValue)) :
    Follows Edit.ByEvaluation (applyToOperands settings function operands) := by
  have htuple (tuple : List GuardedValue) :
      Follows Edit.ByEvaluation (applyToTuple function tuple) :=
    (conjoinAll_follows _ trivial).bind fun _ => (Follows.ofExcept _).bind fun _ => .pure _
  exact (Follows.ofExcept _).bind fun _ => .mapM htuple _

theorem alternativeValues_follows {next : Term → GroundingM (List GuardedValue)} (t a : Term)
    (hnext : Follows Edit.ByEvaluation (next a)) :
    Follows Edit.ByEvaluation (alternativeValues c next t a) := by
  refine .bind .get fun f => ?_
  split
  · exact realizedValues_follows a
  · split
    · exact .throw _
    · exact hnext

theorem evaluateStep_follows {next : List Term → Term → GroundingM (List GuardedValue)}
    (hnext : ∀ resolving a, Follows Edit.ByEvaluation (next resolving a)) (resolving : List Term)
    (t : Term) : Follows Edit.ByEvaluation (evaluateStep c next resolving t) := by
  have halternatives : Follows Edit.ByEvaluation (realizationValues c next resolving t) := by
    have hresolve : Follows Edit.ByEvaluation (do
        let as ← ofExcept (c.resolve t)
        let values ← as.mapM (alternativeValues c (next (t :: resolving)) t)
        return values.flatten) :=
      (Follows.ofExcept _).bind fun as =>
        (Follows.mapM (fun a => alternativeValues_follows t a (hnext _ a)) as).bind fun _ => .pure _
    unfold realizationValues
    split
    · exact (Follows.throw _).bind fun _ => hresolve
    · exact hresolve
  by_cases ht : t.isCallable
  · rw [evaluateStep_callable ht]
    cases c.functions.calledBy? t with
    | some function =>
      exact (Follows.mapM (hnext resolving) _).bind fun _ => applyToOperands_follows _ _ _
    | none => exact halternatives
  · cases t with
    | atom | compound => exact absurd rfl ht
    | var => exact .throw _
    | constant | symbolic | density | realized | coordinate => exact .pure _

theorem evaluateWith_follows (fuel : Nat) (resolving : List Term) (t : Term) :
    Follows Edit.ByEvaluation (evaluateWith c fuel resolving t) := by
  induction fuel generalizing resolving t with
  | zero => exact .outOfFuel
  | succ fuel ih => exact evaluateStep_follows ih resolving t

theorem evaluate_follows (t : Term) : Follows Edit.ByEvaluation (evaluate c fuel t) :=
  evaluateWith_follows fuel [] t

theorem applyFunction_follows (name : String) (args : List Term) :
    Follows Edit.ByEvaluation (applyFunction c fuel name args) := by
  unfold applyFunction
  split
  · exact (Follows.mapM evaluate_follows args).bind fun _ => applyToOperands_follows _ _ _
  · exact .throw _

theorem conditionResult_follows (functor : String) (operands : List Term) (x : Guard) :
    Follows (Edit.ByCondition functor) (Comparison.conditionResult functor operands x) :=
  (addAtom_follows _ _ _ ⟨operands, rfl, rfl, rfl⟩).bind fun _ =>
    (conjoinAll_follows _ trivial).bind fun _ => .pure _

theorem pairResult_follows (k : Comparison) (settings : Settings) (args : List Term)
    (a b : GuardedValue) :
    Follows (Edit.ByComparison k settings.keepBuiltins) (k.pairResult settings args a b) := by
  have hpassing (x y : Number) (hxy : k.holds x y = true) (guard : Guard) :
      Follows (Edit.ByComparison k settings.keepBuiltins) (k.passingGuard settings x y guard) := by
    unfold Comparison.passingGuard
    split
    · next hkeep =>
      exact (addAtom_follows _ _ _ (.inr ⟨hkeep, x, y, hxy, rfl⟩)).bind fun _ =>
        conjoinAll_follows _ (.inl trivial)
    · exact .pure _
  unfold Comparison.pairResult
  refine (conjoinAll_follows _ (.inl trivial)).bind fun x => ?_
  split
  · split
    · next h => exact (hpassing _ _ h x).bind fun _ => .pure _
    · exact .pure _
  · exact .pure _
  · exact .pure _
  · exact (conditionResult_follows _ _ x).mono fun _ he => .inl he

namespace Builtin

theorem comparison_follows (k : Comparison) (left right : Term) :
    Follows (Edit.ByComparison k c.settings.keepBuiltins)
      (k.results (c.scope fuel) left right) := by
  have hevaluate (t : Term) :
      Follows (Edit.ByComparison k c.settings.keepBuiltins) (evaluate c fuel t) :=
    (evaluate_follows t).mono fun _ he => he.byComparison k _
  unfold Comparison.results
  refine (hevaluate left).bind fun ls => (hevaluate right).bind fun rs => ?_
  refine (Follows.ofExcept _).bind fun _ => .mapM (fun p => ?_) _
  exact pairResult_follows k c.settings [left, right] p.1 p.2

theorem asResult_follows (v : Term) (length : Option Nat) (site : NodeId) :
    Follows (Edit.ByAs v) (asResult v length site) :=
  (Follows.attempt fun _ _ _ h => (descriptorWith_chain h).trail).bind fun _ =>
    Follows.get.bind fun _ => .pure _

theorem asResults_follows (value v : Term) :
    Follows (Edit.ByAs v) (asResults (c.scope fuel) value v) := by
  refine .bind .get fun f => ?_
  split
  · exact .throw _
  · exact (Follows.mapM (asResult_follows v _) _).bind fun _ => .pure _

theorem densityResults_follows (v : Term) :
    Follows (Edit.ByDensity v) (densityResults (c.scope fuel) v) := by
  have hsite (site : NodeId) : Follows (Edit.ByDensity v) (densityResult v site) := by
    let density := Term.density (realizationName v site)
    refine .bind .get fun f => (Follows.modify fun g => ?_).bind fun _ => .pure _
    have hname : g.Trail (Edit.ByDensity v) (g.addName density (f.body site) .query) :=
      .single (e := .name density (f.body site) .query) ⟨⟨site, rfl⟩, rfl⟩ trivial
    exact .step (e := .density v density) hname ⟨rfl, site, rfl⟩ trivial
  refine .bind .get fun f => ?_
  split
  · exact .throw _
  · exact .mapM hsite _

theorem isResults_follows (x t : Term) :
    Follows Edit.ByEvaluation (isResults (c.scope fuel) x t) :=
  (evaluate_follows t).bind fun _ => .pure _

theorem freeResults_follows (v : Term) : Follows (Edit.ByFree [v]) (freeResults (c.scope fuel) v) :=
  (Follows.modify fun _ => .single (e := .free v) (List.mem_singleton_self v) trivial).bind
    fun _ => .pure _

theorem freeListResults_follows (vs : Term) :
    Follows (Edit.ByFree (vs.list?.getD [])) (freeListResults (c.scope fuel) vs) := by
  unfold freeListResults
  split
  · exact .throw _
  · next items hitems =>
    rw [hitems]
    exact (Follows.modify fun _ => (addFree_chain items fun _ hv => hv).trail).bind
      fun _ => .pure _

theorem observedValues_follows (value observed : Term) :
    Follows Edit.ByEvaluation (observedValues (c.scope fuel) value observed) := by
  have htuple (tuple : List GuardedValue) : Follows Edit.ByEvaluation (observedTuple tuple) :=
    (conjoinAll_follows _ trivial).bind fun _ => .pure _
  have hvectors (items : List Term) :
      Follows Edit.ByEvaluation (observedVectors (c.scope fuel) items) :=
    (Follows.mapM evaluate_follows items).bind fun _ => (Follows.ofExcept _).bind fun _ =>
      .mapM htuple _
  unfold observedValues
  split
  · exact (Follows.ofExcept _).bind fun _ => (Follows.ofExcept _).bind fun _ => hvectors _
  · refine (Follows.ofExcept _).bind fun _ => ?_
    split
    · exact .throw _
    · exact evaluate_follows observed

theorem observationResults_follows (value observed : Term) :
    Follows (Edit.ByCondition observationFunctor)
      (observationResults (c.scope fuel) value observed) := by
  refine ((observedValues_follows value observed).mono
    fun _ he => he.byCondition observationFunctor).bind fun vs => .mapM (fun o => ?_) _
  exact conditionResult_follows observationFunctor [value, o.1] o.2

end Builtin

namespace BuiltinTable

theorem run_follows {b : Builtin} (hb : b ∈ standardBuiltins) (args : List Term) :
    Follows (Edit.ByBuiltin c.settings.keepBuiltins) (b.run (c.scope fuel) args) := by
  refine run_standard (C := Follows (Edit.ByBuiltin c.settings.keepBuiltins)) .throw
    ?_ ?_ ?_ ?_ ?_ ?_ ?_ hb args
  · exact fun k t u => (Builtin.comparison_follows k t u).mono fun _ he => .comparison k he
  · exact fun t u => (Builtin.isResults_follows t u).mono fun _ he => .evaluation he
  · exact fun t => (Builtin.densityResults_follows t).mono fun _ he => .density t he
  · exact fun t => (Builtin.freeResults_follows t).mono fun _ he => .free _ he
  · exact fun t => (Builtin.freeListResults_follows t).mono fun _ he => .free _ he
  · exact fun t u => (Builtin.asResults_follows t u).mono fun _ he => .as u he
  · exact fun t u => (Builtin.observationResults_follows t u).mono fun _ he => .observation he

/-- A call of a standard builtin makes edits of the builtins only, also when it fails or aborts. -/
theorem call_follows (name : String) (args : List Term) :
    Follows (Edit.ByBuiltin c.settings.keepBuiltins) (standard.call (c.scope fuel) name args) := by
  unfold call
  split
  · exact .throw _
  · next b hfind =>
    refine .tryCatch ((Follows.ofExcept _).bind fun _ =>
      (run_follows (mem_of_find? hfind) args).bind fun _ => .pure _) fun e => ?_
    unfold recover
    split
    · exact .pure _
    · exact .throw _

end BuiltinTable

/-- Whether the term has the shape of the identifier of a site. -/
def Term.IsSiteIdentifier (t : Term) : Prop := ∃ v d b, t = .compound siteFunctor [v, d, b]

/-- Whether an edit makes no site, nor an atom that could be taken for one. -/
def Edit.SparesSites : Edit → Prop
  | .site .. => False
  | .atom t _ _ => ¬ t.IsSiteIdentifier
  | _ => True

namespace Edit

theorem SparesSites.keepsSites {e : Edit} (he : e.SparesSites) : e.KeepsSites := by
  cases e with
  | site => exact he
  | _ => trivial

theorem ByEvaluation.sparesSites {e : Edit} (he : e.ByEvaluation) : e.SparesSites := by
  cases e with
  | conjunction | descriptor => trivial
  | _ => exact he.elim

theorem ByCondition.sparesSites {functor : String} {e : Edit} (he : e.ByCondition functor) :
    e.SparesSites := by
  cases e with
  | atom t p s =>
    obtain ⟨operands, rfl, -, -⟩ := he
    rintro ⟨v, d, b, h⟩
    cases h
  | _ => exact ByEvaluation.sparesSites he

theorem ByBuiltin.sparesSites {keep : Bool} {e : Edit} (he : e.ByBuiltin keep) :
    e.SparesSites := by
  cases he with
  | evaluation he => exact he.sparesSites
  | observation he => exact he.sparesSites
  | comparison k he =>
    obtain he | ⟨-, x, y, -, rfl⟩ := he
    · exact he.sparesSites
    · rintro ⟨v, d, b, h⟩
      have hargs := congrArg (fun t => t.args.length) h
      cases hargs
  | as v he | density v he | free v he =>
    cases e with
    | site | atom => exact he.elim
    | _ => trivial

end Edit

/-- The edits of an operation: an atom or a site is what it was asked to be, and any other
operation spares the sites. -/
def Operation.Makes : Operation → Edit → Prop
  | .atom t p s, e => e = .atom t p s
  | .site v p body, e => e = .site v p body
  | _, e => e.SparesSites

/-- The edits of an operation by their kind. -/
def Operation.Edits : Operation → Edit → Prop
  | .atom t p s, e => e = .atom t p s
  | .conjoin guards, e => e = .conjunction guards
  | .site v p body, e => e = .site v p body
  | .name t x l, e => e = .name t x l
  | .density v d, e => e = .density v d
  | .free v, e => e = .free v
  | .descriptor v _ _, e => e.ByAs v
  | .realization .., e | .realize _, e | .evaluate .., e | .apply .., e => e.ByEvaluation
  | .call c .., e => e.ByBuiltin c.settings.keepBuiltins

theorem Operation.Edits.makes {op : Operation} {e : Edit} (he : op.Edits e) : op.Makes e := by
  cases op with
  | atom | site => exact he
  | conjoin | name | density | free =>
    cases he
    trivial
  | descriptor v =>
    have hbuiltin : e.ByBuiltin false := .as v he
    exact hbuiltin.sparesSites
  | realization | realize | evaluate | apply => exact Edit.ByEvaluation.sparesSites he
  | call => exact Edit.ByBuiltin.sparesSites he

theorem Operation.follows_edits (op : Operation) : Follows op.Edits op.run := by
  have hdone {P : Edit → Prop} {edit : Formula → Formula} {e : Edit}
      (hedit : ∀ f, edit f = e.apply f) (he : P e) (hproper : ∀ f, e.Proper f) :
      Follows P (do modify edit; return Outcome.done) :=
    (Follows.modify fun f => by rw [hedit]; exact .single he (hproper f)).bind fun _ => .pure _
  have hvalues {m : GroundingM (List GuardedValue)} (hm : Follows Edit.ByEvaluation m) :
      Follows Edit.ByEvaluation (do return Outcome.values (← m)) := hm.bind fun _ => .pure _
  have hdescriptor {ask : Formula → Except Error (Descriptor × Formula)} {P : Edit → Prop}
      (hask : ∀ f d g, ask f = .ok (d, g) → f.Chain P g) :
      Follows P (do return Outcome.descriptor (← attempt ask)) :=
    (Follows.attempt fun f d g h => (hask f d g h).trail).bind fun _ => .pure _
  cases op with
  | atom t p s =>
    exact (addAtom_follows (P := Operation.Edits (.atom t p s)) t p s rfl).bind fun _ => .pure _
  | conjoin guards =>
    exact (conjoinAll_follows (P := Operation.Edits (.conjoin guards)) guards rfl).bind
      fun _ => .pure _
  | site v p body =>
    have hsite : Follows (Operation.Edits (.site v p body)) (update (Formula.addSite v p body)) :=
      .update fun _ => .single (e := .site v p body) rfl trivial
    exact hsite.bind fun _ => .pure _
  | name t x l => exact hdone (e := .name t x l) (fun _ => rfl) rfl fun _ => trivial
  | density v d => exact hdone (e := .density v d) (fun _ => rfl) rfl fun _ => trivial
  | free v => exact hdone (e := .free v) (fun _ => rfl) rfl fun _ => trivial
  | descriptor v id n => exact hdescriptor fun _ _ _ => Builtin.descriptorWith_chain
  | realization v id => exact hdescriptor fun _ _ _ h => (Formula.descriptorOf_chain h).1
  | realize v => exact hvalues (realizedValues_follows v)
  | evaluate c fuel t => exact hvalues (evaluate_follows t)
  | apply c fuel functor args => exact hvalues (applyFunction_follows functor args)
  | call c fuel functor args =>
    exact (BuiltinTable.call_follows functor args).bind fun _ => .pure _

theorem Operation.run_follows (op : Operation) : Follows op.Makes op.run :=
  op.follows_edits.mono fun _ he => he.makes

/-- `g` comes from `f` by operations with any guards, each of which may succeed or fail. -/
inductive Formula.LeadsTo (f : Formula) : Formula → Prop
  | refl : LeadsTo f f
  | step {g h : Formula} (op : Operation) {r : Except Error Outcome} (hg : LeadsTo f g)
      (hrun : op.run.run g = some (r, h)) : LeadsTo f h

theorem Formula.Reaches.leadsTo {f g : Formula} (hfg : f.Reaches g) : f.LeadsTo g := by
  induction hfg with
  | refl => exact .refl
  | step op _ _ hrun ih => exact .step op ih hrun

theorem Formula.LeadsTo.trail {f g : Formula} (hfg : f.LeadsTo g) : f.Trail Edit.Any g := by
  induction hfg with
  | refl => exact .refl
  | step op _ hrun ih =>
    exact ih.trans ((op.run_follows _ _ _ hrun).mono fun _ _ => trivial)

end Grounding
