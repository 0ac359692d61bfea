import Grounding.Builtin.Standard
import Grounding.Proofs.Builtin.Comparison

/-!
# What the builtins change

Each builtin makes edits of a few kinds, whether its call succeeds, fails or aborts, and none makes
a site. The guards of its answers are known to the formula that the call leaves.
-/

namespace Grounding

open GroundingM

namespace Edit

/-- Descriptors of one variable. -/
def ByAs (v : Term) : Edit → Prop
  | .descriptor u _ _ => u = v
  | _ => False

/-- Density constants of one variable, asked for and named as queries. -/
def ByDensity (v : Term) : Edit → Prop
  | .name t _ l => (∃ site, t = .density (realizationName v site)) ∧ l = .query
  | .density u d => u = v ∧ ∃ site, d = .density (realizationName v site)
  | _ => False

/-- Declarations of some variables as free. -/
def ByFree (vs : List Term) : Edit → Prop
  | .free v => v ∈ vs
  | _ => False

inductive ByBuiltin (keep : Bool) (e : Edit) : Prop
  | evaluation (he : e.ByEvaluation)
  | comparison (k : Comparison) (he : e.ByComparison k keep)
  | observation (he : e.ByCondition Builtin.observationFunctor)
  | as (v : Term) (he : e.ByAs v)
  | density (v : Term) (he : e.ByDensity v)
  | free (vs : List Term) (he : e.ByFree vs)

theorem ByCondition.keepsSites {functor : String} {e : Edit} (he : e.ByCondition functor) :
    e.KeepsSites := by
  cases e with
  | site => exact he.elim
  | _ => trivial

theorem ByAs.keepsSites {v : Term} {e : Edit} (he : e.ByAs v) : e.KeepsSites := by
  cases e with
  | site => exact he.elim
  | _ => trivial

theorem ByDensity.keepsSites {v : Term} {e : Edit} (he : e.ByDensity v) : e.KeepsSites := by
  cases e with
  | site => exact he.elim
  | _ => trivial

theorem ByFree.keepsSites {vs : List Term} {e : Edit} (he : e.ByFree vs) : e.KeepsSites := by
  cases e with
  | site => exact he.elim
  | _ => trivial

theorem ByBuiltin.keepsSites {keep : Bool} {e : Edit} (he : e.ByBuiltin keep) : e.KeepsSites := by
  cases he with
  | evaluation he => exact he.keepsSites
  | observation he => exact he.keepsSites
  | comparison k he =>
    obtain he | ⟨-, x, y, -, rfl⟩ := he
    · exact he.keepsSites
    · trivial
  | as v he => exact he.keepsSites
  | density v he => exact he.keepsSites
  | free vs he => exact he.keepsSites

end Edit

variable {c : Context} {fuel : Nat} {f g : Formula}

def KnownResults (results : Results) (f : Formula) : Prop := ∀ r ∈ results, f.Knows r.2

theorem evaluate_known (hf : f.WellFormed) (t : Term) :
    Performs Edit.ByEvaluation f (evaluate c fuel t) fun vs h => ∀ v ∈ vs, h.Knows v.guard :=
  (evaluate_means hf fuel t).post fun _ _ _ hm => hm.known

namespace Builtin

theorem isResults_performs (hf : f.WellFormed) (x t : Term) :
    Performs Edit.ByEvaluation f (isResults (c.scope fuel) x t) KnownResults := by
  refine (evaluate_known hf t).bind fun vs g _ hvs => .pure fun r hr => ?_
  obtain ⟨v, hv, hr⟩ := List.mem_filterMap.mp hr
  obtain ⟨_, -, rfl⟩ := Option.map_eq_some_iff.mp hr
  exact hvs v hv

theorem descriptorWith_chain {v : Term} {site : NodeId} {n : Nat} {d : Descriptor}
    (h : f.descriptorWith v site n = .ok (d, g)) : f.Chain (Edit.ByAs v) g := by
  unfold Formula.descriptorWith at h
  dsimp only at h
  cases hd : f.descriptor? (realizationName v site) with
  | some d' =>
    rw [hd] at h
    dsimp only at h
    split at h
    · cases h
      exact .refl
    · cases h
  | none =>
    rw [hd] at h
    exact Formula.fixDescriptor_chain (Nat.le_max_right n 1) (fun _ _ => rfl) hd h

theorem asResult_performs (hf : f.WellFormed) (v : Term) (length : Option Nat) (site : NodeId) :
    Performs (Edit.ByAs v) f (asResult v length site) fun result h =>
      ∀ r ∈ result, h.Knows r.2 := by
  unfold asResult
  have hdescriptor : Performs (Edit.ByAs v) f (attempt (·.descriptorWith v site (length.getD 1)))
      fun _ _ => True := .attempt fun d g h => ⟨descriptorWith_chain h, trivial⟩
  refine hdescriptor.bind fun d g hfg _ => .get_bind (.pure fun r hr => ?_)
  obtain ⟨_, -, rfl⟩ := Option.map_eq_some_iff.mp hr
  exact Formula.knows_body (hfg.wellFormed hf) site

theorem asResults_performs (hf : f.WellFormed) (value v : Term) :
    Performs (Edit.ByAs v) f (asResults (c.scope fuel) value v) KnownResults := by
  unfold asResults
  refine .get_bind ?_
  cases f.sites? v with
  | none => exact .throw
  | some sites =>
    have hall : Performs (Edit.ByAs v) f (sites.mapM (asResult v (value.list?.map List.length)))
        fun results h => ∀ result ∈ results, ∀ r ∈ result, h.Knows r.2 :=
      .mapM_forall (fun site _ g hfg => asResult_performs (hfg.wellFormed hf) v _ site)
        fun _ _ _ _ hgh hr r hmem => hgh.knows (hr r hmem)
    refine hall.bind fun results g _ hresults => .pure fun r hr => ?_
    obtain ⟨result, hmem, hr⟩ := List.mem_filterMap.mp hr
    exact hresults result hmem r hr

/-- The density constant of a site becomes a query under a known guard and is asked of the
variable. -/
theorem density_chain (v : Term) (site : NodeId) {x : Guard} (hx : f.Knows x) :
    f.Chain (Edit.ByDensity v) ((f.addName (.density (realizationName v site)) x .query).addDensity v
      (.density (realizationName v site))) := by
  have hname : f.Chain (Edit.ByDensity v) (f.addName _ x .query) :=
    .single (e := .name (.density (realizationName v site)) x .query) ⟨⟨site, rfl⟩, rfl⟩ hx
  exact .step (e := .density v (.density (realizationName v site))) hname ⟨rfl, site, rfl⟩ trivial

theorem densityResult_performs (hf : f.WellFormed) (v : Term) (site : NodeId) :
    Performs (Edit.ByDensity v) f (densityResult v site) fun r h => h.Knows r.2 := by
  have hbody : f.Knows (f.body site) := Formula.knows_body hf site
  have hchain := density_chain v site hbody
  exact .get_bind (Performs.bind (Q := fun _ h => h.Knows (f.body site))
    (.modify hchain (hchain.grows.knows hbody)) fun _ _ _ hk => .pure hk)

theorem densityResults_performs (hf : f.WellFormed) (v : Term) :
    Performs (Edit.ByDensity v) f (densityResults (c.scope fuel) v) KnownResults := by
  unfold densityResults
  refine .get_bind ?_
  cases f.sites? v with
  | none => exact .throw
  | some sites =>
    exact .mapM_forall (fun site _ g hfg => densityResult_performs (hfg.wellFormed hf) v site)
      fun _ _ _ _ hgh hr => hgh.knows hr

theorem freeResults_performs (v : Term) :
    Performs (Edit.ByFree [v]) f (freeResults (c.scope fuel) v) KnownResults := by
  refine Performs.bind (Q := fun _ _ => True) (.modify ?_ trivial) fun _ _ _ _ => .pure ?_
  · exact .single (e := .free v) (List.mem_singleton_self v) trivial
  · exact fun r hr => by rw [List.mem_singleton.mp hr]; trivial

theorem addFree_chain (vs : List Term) {us : List Term} (hus : ∀ v ∈ us, v ∈ vs) :
    f.Chain (Edit.ByFree vs) (us.foldl (fun f v => f.addFree v) f) := by
  induction us generalizing f with
  | nil => exact .refl
  | cons u us ih =>
    have hstep : f.Chain (Edit.ByFree vs) (f.addFree u) :=
      .single (e := .free u) (hus u List.mem_cons_self) trivial
    exact hstep.trans (ih fun v hv => hus v (List.mem_cons_of_mem u hv))

theorem freeListResults_performs (vs : Term) :
    Performs (Edit.ByFree (vs.list?.getD [])) f (freeListResults (c.scope fuel) vs)
      KnownResults := by
  unfold freeListResults
  cases vs.list? with
  | none => exact .throw
  | some items =>
    refine Performs.bind (Q := fun _ _ => True) (.modify ?_ trivial) fun _ _ _ _ => .pure ?_
    · exact addFree_chain items fun _ hv => hv
    · exact fun r hr => by rw [List.mem_singleton.mp hr]; trivial

theorem of_observedItems {coordinates items : List Term} {observed : Term}
    (h : observedItems coordinates observed = .ok items) :
    observed.list? = some items ∧ items.length = coordinates.length := by
  unfold observedItems at h
  split at h
  · cases h
  · next hlist =>
    split at h
    · next hlength =>
      cases h
      exact ⟨hlist, hlength⟩
    · cases h

theorem observedTuple_performs (hf : f.WellFormed) {tuple : List GuardedValue}
    (hk : ∀ v ∈ tuple, f.Knows v.guard) :
    Performs Edit.ByEvaluation f (observedTuple tuple) fun value h => h.Knows value.guard := by
  have hguards : ∀ x ∈ tuple.map (·.guard), f.Knows x := List.forall_mem_map.mpr hk
  exact (conjoinAll_performs hf trivial hguards).bind fun _ _ _ hx => .pure hx.1

theorem observedVectors_performs (hf : f.WellFormed) (items : List Term) :
    Performs Edit.ByEvaluation f (observedVectors (c.scope fuel) items) fun vs h =>
      ∀ v ∈ vs, h.Knows v.guard := by
  have hoperands : Performs Edit.ByEvaluation f (items.mapM (evaluate c fuel)) fun vss h =>
      ∀ vs ∈ vss, ∀ v ∈ vs, h.Knows v.guard :=
    .mapM_forall (fun t _ g hfg => evaluate_known (hfg.wellFormed hf) t)
      fun _ _ _ _ hgh hvs v hv => hgh.knows (hvs v hv)
  unfold observedVectors
  refine hoperands.bind fun vss g hfg hvss => .ofExcept_bind fun _ _ => ?_
  refine .mapM_forall (fun tuple ht h hgh => ?_) fun _ _ _ _ hgh hv => hgh.knows hv
  refine observedTuple_performs ((hfg.trans hgh).wellFormed hf) fun v hv => ?_
  obtain ⟨vs, hvs, hv⟩ := mem_of_mem_tuples ht hv
  exact hgh.grows.knows (hvss vs hvs v hv)

theorem observedValues_performs (hf : f.WellFormed) (value observed : Term) :
    Performs Edit.ByEvaluation f (observedValues (c.scope fuel) value observed) fun vs h =>
      ∀ v ∈ vs, h.Knows v.guard := by
  unfold observedValues
  cases value.list? with
  | some coordinates =>
    exact .ofExcept_bind fun _ _ => .ofExcept_bind fun items _ => observedVectors_performs hf items
  | none =>
    refine .ofExcept_bind fun _ _ => ?_
    cases observed.list? with
    | some items => exact .throw
    | none => exact evaluate_known hf observed

theorem observationResults_performs (hf : f.WellFormed) (value observed : Term) :
    Performs (Edit.ByCondition observationFunctor) f
      (observationResults (c.scope fuel) value observed) KnownResults := by
  unfold observationResults
  refine ((observedValues_performs hf value observed).mono
    fun e he => he.byCondition observationFunctor).bind fun vs g hfg hvs => ?_
  let defined := vs.filterMap fun v => v.value.term?.map (·, v.guard)
  have hk : ∀ o ∈ defined, g.Knows o.2 := by
    intro o ho
    obtain ⟨v, hv, ho⟩ := List.mem_filterMap.mp ho
    obtain ⟨_, -, rfl⟩ := Option.map_eq_some_iff.mp ho
    exact hvs v hv
  refine .mapM_forall (fun o ho h hgh => ?_) fun _ _ _ _ hgh hr => hgh.knows hr
  exact (conditionResult_performs ((hfg.trans hgh).wellFormed hf)
    (hgh.grows.knows (hk o ho))).post fun _ _ _ hr => hr.1

end Builtin

theorem comparison_known (hf : f.WellFormed) (k : Comparison) (left right : Term) :
    Performs (Edit.ByComparison k c.settings.keepBuiltins) f
      (k.results (c.scope fuel) left right) KnownResults := by
  refine (comparison_performs hf left right).post fun results _ _ hresults => ?_
  obtain ⟨ls, rs, hdecides⟩ := hresults
  exact forall_of_forall₂ hdecides fun _ _ h => h.known

theorem Answers.mem_markLast {results : Results} {a : Answer} (ha : a ∈ markLast results) :
    (a.args, a.guard) ∈ results := by
  fun_induction markLast results with
  | case1 => cases ha
  | case2 args guard =>
    rw [List.mem_singleton.mp ha]
    exact List.mem_singleton_self _
  | case3 args guard rest _ ih =>
    rcases List.mem_cons.mp ha with rfl | ha
    · exact List.mem_cons_self
    · exact List.mem_cons_of_mem _ (ih ha)

namespace BuiltinTable

theorem mem_ofList {bs : List Builtin} {b : Builtin} (h : b ∈ (ofList bs).builtins) : b ∈ bs := by
  have hregister (table : BuiltinTable) (b : Builtin) :
      (table.register b).builtins ⊆ b :: table.builtins :=
    List.cons_subset_cons b (List.filter_subset_self _)
  exact (mem_of_mem_foldl hregister h).resolve_left List.not_mem_nil

theorem mem_of_find? {bs : List Builtin} {name : String} {n : Nat} {b : Builtin}
    (h : (ofList bs).find? name n = some b) : b ∈ bs := mem_ofList (List.mem_of_find?_eq_some h)

/-- What relates the rules in two scopes on any arguments, and the refusals of a wrong number of
them, relates the runs of every standard builtin. -/
theorem run_standard_pair {C : GroundingM Results → GroundingM Results → Prop} {scope scope' : Scope}
    (hthrow : ∀ e, C (throw e) (throw e))
    (hcomparison : ∀ k t u, C (Comparison.results k scope t u) (Comparison.results k scope' t u))
    (his : ∀ t u, C (Builtin.isResults scope t u) (Builtin.isResults scope' t u))
    (hdensity : ∀ t, C (Builtin.densityResults scope t) (Builtin.densityResults scope' t))
    (hfree : ∀ t, C (Builtin.freeResults scope t) (Builtin.freeResults scope' t))
    (hfreeList : ∀ t, C (Builtin.freeListResults scope t) (Builtin.freeListResults scope' t))
    (has : ∀ t u, C (Builtin.asResults scope t u) (Builtin.asResults scope' t u))
    (hobservation : ∀ t u,
      C (Builtin.observationResults scope t u) (Builtin.observationResults scope' t u))
    {b : Builtin} (hb : b ∈ standardBuiltins) (args : List Term) :
    C (b.run scope args) (b.run scope' args) := by
  have hunary {name mode : String} {rule : Scope → Term → GroundingM Results}
      (hrule : ∀ t, C (rule scope t) (rule scope' t)) :
      C ((Builtin.unary name mode rule).run scope args)
        ((Builtin.unary name mode rule).run scope' args) := by
    match args with
    | [t] => exact hrule t
    | [] | _ :: _ :: _ => exact hthrow _
  have hbinary {name mode : String} {rule : Scope → Term → Term → GroundingM Results}
      (hrule : ∀ t u, C (rule scope t u) (rule scope' t u)) :
      C ((Builtin.binary name mode rule).run scope args)
        ((Builtin.binary name mode rule).run scope' args) := by
    match args with
    | [t, u] => exact hrule t u
    | [] | [_] | _ :: _ :: _ :: _ => exact hthrow _
  simp only [standardBuiltins, List.mem_append, List.mem_map, List.mem_cons, List.not_mem_nil,
    or_false] at hb
  rcases hb with ⟨k, -, rfl⟩ | rfl | rfl | rfl | rfl | rfl | rfl
  · exact hbinary (hcomparison k)
  · exact hbinary his
  · exact hunary hdensity
  · exact hunary hfree
  · exact hunary hfreeList
  · exact hbinary has
  · exact hbinary hobservation

/-- What holds of every rule on any arguments, and of the refusal of a wrong number of them, holds
of every run of a standard builtin. -/
theorem run_standard {C : GroundingM Results → Prop} {scope : Scope}
    (hthrow : ∀ e, C (throw e)) (hcomparison : ∀ k t u, C (Comparison.results k scope t u))
    (his : ∀ t u, C (Builtin.isResults scope t u)) (hdensity : ∀ t, C (Builtin.densityResults scope t))
    (hfree : ∀ t, C (Builtin.freeResults scope t))
    (hfreeList : ∀ t, C (Builtin.freeListResults scope t))
    (has : ∀ t u, C (Builtin.asResults scope t u))
    (hobservation : ∀ t u, C (Builtin.observationResults scope t u))
    {b : Builtin} (hb : b ∈ standardBuiltins) (args : List Term) : C (b.run scope args) :=
  @run_standard_pair (fun m _ => C m) scope scope hthrow hcomparison his hdensity hfree hfreeList has
    hobservation b hb args

/-- Every standard builtin makes its edits only and answers with known guards. -/
theorem run_performs (hf : f.WellFormed) {b : Builtin} (hb : b ∈ standardBuiltins)
    (args : List Term) :
    Performs (Edit.ByBuiltin c.settings.keepBuiltins) f (b.run (c.scope fuel) args)
      KnownResults := by
  refine run_standard (C := fun m => Performs _ f m KnownResults) (fun _ => .throw) ?_ ?_ ?_ ?_ ?_
    ?_ ?_ hb args
  · exact fun k t u => (comparison_known hf k t u).mono fun e he => .comparison k he
  · exact fun t u => (Builtin.isResults_performs hf t u).mono fun e he => .evaluation he
  · exact fun t => (Builtin.densityResults_performs hf t).mono fun e he => .density t he
  · exact fun t => (Builtin.freeResults_performs t).mono fun e he => .free _ he
  · exact fun t => (Builtin.freeListResults_performs t).mono fun e he => .free _ he
  · exact fun t u => (Builtin.asResults_performs hf t u).mono fun e he => .as u he
  · exact fun t u => (Builtin.observationResults_performs hf t u).mono fun e he => .observation he

/-- A call of a standard builtin, whether it completes, fails or aborts. -/
theorem call_performs (hf : f.WellFormed) (name : String) (args : List Term) :
    Performs (Edit.ByBuiltin c.settings.keepBuiltins) f (standard.call (c.scope fuel) name args)
      fun answers h => ∀ a ∈ answers.results, h.Knows a.guard := by
  unfold call
  cases hfind : standard.find? name args.length with
  | none => exact .throw
  | some b =>
    refine .tryCatch (.ofExcept_bind fun _ _ => ?_) fun e g hfg => ?_
    · refine (run_performs hf (mem_of_find? hfind) args).bind fun results g _ hresults => .pure ?_
      intro a ha
      exact hresults _ (Answers.mem_markLast ha)
    · unfold recover
      split
      · exact .pure fun a ha => by cases ha
      · exact .throw

end BuiltinTable

end Grounding
