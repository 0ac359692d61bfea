import Grounding.Proofs.Session.Checked
import Grounding.Proofs.Session.Termination

/-!
# Calls come to an end

A standard builtin evaluates its arguments and, where it reads one as a list, the items. Apart from
that it takes a fixed number of steps for each site or value. So a call comes to an end if these
evaluations do, and the fuel of a session is enough for every call.
-/

namespace Grounding

open GroundingM

variable {c : Context} {f : Formula} {table : ResolverTable} {scope : Scope} {b : Builtin}
  {name : String} {args : List Term}

/-- From every formula with the sites of `f` the computation comes to an end, and it keeps the
sites. -/
abbrev GroundingM.Concludes {α : Type} (f : Formula) (m : GroundingM α) : Prop :=
  Finishes f True (fun _ => True) m

theorem conjoinAll_concludes (guards : List Guard) :
    Concludes f (update (Formula.conjoinAll guards)) :=
  .update fun g => (g.sites_conjoinAll guards).1

theorem addAtom_concludes (t : Term) (p : Option Term) (source : Source) :
    Concludes f (update (Formula.addAtom t p source)) :=
  .update fun g => (g.sites_addAtom t p source).1

namespace Comparison

theorem conditionResult_concludes (functor : String) (operands : List Term) (guard : Guard) :
    Concludes f (conditionResult functor operands guard) :=
  (addAtom_concludes _ _ _).bind fun _ => (conjoinAll_concludes _).bind fun _ => .pure _

theorem pairResult_concludes (k : Comparison) (settings : Settings) (terms : List Term)
    (u v : GuardedValue) : Concludes f (k.pairResult settings terms u v) := by
  refine (conjoinAll_concludes _).bind fun pair => ?_
  split
  · split
    · refine Finishes.bind ?_ fun _ => .pure _
      unfold passingGuard
      split
      · exact (addAtom_concludes _ _ _).bind fun _ => conjoinAll_concludes _
      · exact .pure _
    · exact .pure _
  · exact .pure _
  · exact .pure _
  · exact conditionResult_concludes _ _ _

theorem results_concludes (k : Comparison) {t u : Term} (ht : Concludes f (scope.evaluate t))
    (hu : Concludes f (scope.evaluate u)) : Concludes f (k.results scope t u) :=
  ht.bind fun _ => hu.bind fun _ => .ofExcept_bind (fun _ _ _ _ => trivial) fun _ _ =>
    .mapM fun p _ => k.pairResult_concludes _ _ p.1 p.2

end Comparison

namespace Builtin

theorem densityResults_concludes (v : Term) : Concludes f (densityResults scope v) := by
  refine .get_bind fun g _ => ?_
  cases g.sites? v with
  | none => exact .throw fun _ _ => trivial
  | some sites =>
    refine .mapM fun site _ => .get_bind fun g _ => ?_
    have hask (density : Term) : Concludes f
        (modify fun f => (f.addName density (g.body site) .query).addDensity v density) :=
      .modify fun _ => rfl
    exact (hask _).bind fun _ => .pure _

theorem asResults_concludes (value v : Term) : Concludes f (asResults scope value v) := by
  refine .get_bind fun g _ => ?_
  cases g.sites? v with
  | none => exact .throw fun _ _ => trivial
  | some sites =>
    have hdescriptor (site : NodeId) (n : Nat) :
        Concludes f (attempt (·.descriptorWith v site n)) :=
      .attempt (fun g d h hd => ((descriptorWith_chain hd).sites_eq fun _ =>
        Edit.ByAs.keepsSites).1) fun _ _ _ _ _ => trivial
    exact (Finishes.mapM fun site _ => (hdescriptor site _).bind fun _ =>
      .get_bind fun g _ => .pure _).bind fun _ => .pure _

theorem freeResults_concludes (v : Term) : Concludes f (freeResults scope v) := by
  have hadd : Concludes f (modify (Formula.addFree v)) := .modify fun _ => rfl
  exact hadd.bind fun _ => .pure _

theorem freeListResults_concludes (vs : Term) : Concludes f (freeListResults scope vs) := by
  unfold freeListResults
  cases vs.list? with
  | none => exact .throw fun _ _ => trivial
  | some items =>
    refine (Finishes.modify fun g => ?_).bind fun _ => .pure _
    have hfold (f : Formula) : (items.foldl (fun f v => f.addFree v) f).sites = f.sites := by
      induction items generalizing f with
      | nil => rfl
      | cons v vs ih => exact ih _
    exact hfold g

theorem observedTuple_concludes (tuple : List GuardedValue) :
    Concludes f (observedTuple tuple) :=
  (conjoinAll_concludes _).bind fun _ => .pure _

/-- What is observed is evaluated as a whole or item by item. -/
theorem observedValues_concludes {value observed : Term}
    (hparts : ∀ u, observed.Part u → Concludes f (scope.evaluate u)) :
    Concludes f (observedValues scope value observed) := by
  unfold observedValues
  split
  · next coordinates _ =>
    refine .ofExcept_bind (fun _ _ _ _ => trivial) fun _ _ =>
      .ofExcept_bind (fun _ _ _ _ => trivial) fun items hitems => ?_
    have hlist := (of_observedItems hitems).1
    have hitem : ∀ a ∈ items, Concludes f (scope.evaluate a) :=
      fun a ha => hparts a (Term.part_of_list? hlist ha)
    refine (Finishes.mapM hitem).bind fun operands => ?_
    exact .ofExcept_bind (fun _ _ _ _ => trivial) fun _ _ =>
      .mapM fun tuple _ => observedTuple_concludes tuple
  · refine .ofExcept_bind (fun _ _ _ _ => trivial) fun _ _ => ?_
    split
    · exact .throw fun _ _ => trivial
    · exact hparts observed .refl

end Builtin

namespace BuiltinTable

/-- After the check a standard builtin comes to an end if the evaluations of the parts of its
arguments do. -/
theorem run_concludes (hb : b ∈ standardBuiltins) (hcheck : Mode.check name b.mode args = .ok ())
    (hparts : ∀ a ∈ args, ∀ u, a.Part u → Concludes f (scope.evaluate u)) :
    Concludes f (b.run scope args) := by
  refine run_checked (C := Concludes f) ?_ ?_ ?_ ?_ ?_ ?_ ?_ hb hcheck
  · rintro k t u rfl - -
    exact k.results_concludes (hparts t (by simp) t .refl) (hparts u (by simp) u .refl)
  · rintro t u rfl -
    exact (hparts u (by simp) u .refl).bind fun _ => .pure _
  · exact fun t _ _ => Builtin.densityResults_concludes t
  · exact fun t _ _ => Builtin.freeResults_concludes t
  · exact fun t _ _ => Builtin.freeListResults_concludes t
  · exact fun t u _ _ => Builtin.asResults_concludes t u
  · rintro t u rfl - -
    refine (Builtin.observedValues_concludes fun v hv => hparts u (by simp) v hv).bind fun _ => ?_
    exact .mapM fun o _ => Comparison.conditionResult_concludes _ _ _

section Call

variable {builtins : BuiltinTable}
  (hstandard : ∀ b, builtins.find? name args.length = some b → b ∈ standardBuiltins)

include hstandard

/-- A call of a standard builtin comes to an end if the evaluations of the parts of its arguments
do. -/
theorem isSome_run_call (hparts : ∀ a ∈ args, ∀ u, a.Part u → Concludes f (scope.evaluate u)) :
    ((builtins.call scope name args).run f).isSome := by
  cases hfind : builtins.find? name args.length with
  | none =>
    unfold call
    rw [hfind]
    rfl
  | some b =>
    rw [run_call hfind]
    cases hcheck : Mode.check name b.mode args with
    | error e => rfl
    | ok =>
      dsimp only
      rw [Option.isSome_map]
      exact (run_concludes (hstandard b hfind) hcheck hparts f rfl).1 trivial

/-- The fuel that a resolver table asks for is enough. -/
theorem isSome_run_call_of_table {fuel : Nat} (hc : c.resolve = table.resolver)
    (hfuel : table.fuelFor args ≤ fuel) (f : Formula) :
    ((builtins.call (c.scope fuel) name args).run f).isSome := by
  refine isSome_run_call hstandard fun a ha u hu =>
    evaluateWith_finishes (table.budgets hc f u) .refl ?_
  have hargs := Term.height_le_heights ha
  have hheight := hu.height_le
  rw [ResolverTable.without_nil]
  unfold ResolverTable.fuelFor at hfuel
  omega

/-- With enough fuel a call comes to an end if evaluation reaches finitely many terms from the parts
of its arguments. -/
theorem isSome_run_call_of_finite
    (hfinite : ∀ a ∈ args, ∀ u, a.Part u → {s | c.Reached f u s}.Finite) :
    ∃ depth, ∀ fuel, depth ≤ fuel → ((builtins.call (c.scope fuel) name args).run f).isSome := by
  have hdepth (u : Term) (hu : {s | c.Reached f u s}.Finite) :
      ∃ depth, ∀ fuel, depth ≤ fuel → Concludes f (evaluate c fuel u) := by
    have hterms : ∀ s, c.Reached f u s → s ∈ hu.toFinset := fun s hs => hu.mem_toFinset.mpr hs
    exact ⟨_, fun fuel hfuel =>
      evaluateWith_finishes (Context.budgets_of_finite hterms) .refl hfuel⟩
  have hparts : {u | ∃ a ∈ args, a.Part u}.Finite := by
    have hunion : {u | ∃ a ∈ args, a.Part u} = ⋃ a ∈ {a | a ∈ args}, {u | a.Part u} := by
      ext u
      simp
    rw [hunion]
    exact (List.finite_toSet args).biUnion fun a _ => a.finite_parts
  choose! depth hends using hdepth
  refine ⟨hparts.toFinset.sup depth, fun fuel hfuel => ?_⟩
  refine isSome_run_call hstandard fun a ha u hu => ?_
  refine hends u (hfinite a ha u hu) fuel (Nat.le_trans ?_ hfuel)
  exact Finset.le_sup (hparts.mem_toFinset.mpr ⟨a, ha, hu⟩)

end Call

end BuiltinTable

end Grounding
