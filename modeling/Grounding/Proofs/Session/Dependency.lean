import Grounding.Proofs.Evaluation.Reading
import Grounding.Proofs.Formula.Correspondence
import Grounding.Proofs.Session.Checked
import Grounding.Proofs.Session.Site

/-!
# The dependencies of open expressions

An open expression that evaluation, a comparison or an observation makes carries exactly the names
that it depends on, if those that are supplied do. Of an expression without symbolic forms these are
the names of the realizations at the sites that were read, apart from point masses.
-/

namespace Grounding

open GroundingM Term

variable {c : Context} {fuel : Nat} {f g : Formula} {args : List Term} {name : String}

namespace Edit

/-- An atom that is registered as a condition is an open expression, carries the names that it
depends on, and stands for itself. -/
def LabelsConditions : Edit → Prop
  | .atom t p .condition =>
    p = some t ∧ (∃ functor operands, t = mkSymbolic functor operands) ∧ t.Labelled
  | _ => True

theorem ByEvaluation.labelsConditions {e : Edit} (he : e.ByEvaluation) : e.LabelsConditions := by
  cases e with
  | atom => exact he.elim
  | _ => trivial

theorem ByAs.labelsConditions {v : Term} {e : Edit} (he : e.ByAs v) : e.LabelsConditions := by
  cases e with
  | atom => exact he.elim
  | _ => trivial

theorem ByDensity.labelsConditions {v : Term} {e : Edit} (he : e.ByDensity v) :
    e.LabelsConditions := by
  cases e with
  | atom => exact he.elim
  | _ => trivial

theorem ByFree.labelsConditions {vs : List Term} {e : Edit} (he : e.ByFree vs) :
    e.LabelsConditions := by
  cases e with
  | atom => exact he.elim
  | _ => trivial

end Edit

/-- The formula comes from `f` by edits that label the conditions. -/
abbrev Formula.LabelledFrom (f : Formula) : Formula → Prop :=
  fun g => f.Trail Edit.LabelsConditions g

/-- The conditions that are new in a formula are labelled. -/
theorem Formula.LabelledFrom.condition (hfg : f.LabelledFrom g) {id : NodeId} {t : Term}
    {p : Option Term} (hn : g.node? id = some (.atom t p .condition)) :
    f.node? id = some (.atom t p .condition) ∨
      p = some t ∧ (∃ functor operands, t = mkSymbolic functor operands) ∧ t.Labelled := by
  induction hfg with
  | refl => exact .inl hn
  | @step g e _ he _ ih =>
    cases e with
    | atom t' p' source =>
      rcases Formula.node?_of_addAtom hn with hn | ⟨rfl, rfl, rfl⟩
      · exact ih hn
      · exact .inr he
    | conjunction guards => exact ih (Formula.node?_of_conjoinAll hn)
    | site v p' body =>
      have hatom : (g.addAtom (siteIdentifier v p' body) p' .realization).2.node? id =
          some (.atom t p .condition) := hn
      rcases Formula.node?_of_addAtom hatom with hn | ⟨-, -, hsource⟩
      · exact ih hn
      · cases hsource
    | name t' x l => cases l <;> exact ih hn
    | descriptor | density | free => exact ih hn

theorem maintains_of_follows {α : Type} {P : Edit → Prop} {m : GroundingM α} (hm : Follows P m)
    (hP : ∀ e, P e → e.LabelsConditions) : Maintains f.LabelledFrom m fun _ => True :=
  .of_follows (hm.mono hP) fun _ _ _ _ _ => ⟨trivial, fun _ _ => trivial⟩

theorem evaluate_labelled (hc : c.ResolvesLabelled) {t : Term} (ht : t.Labelled) :
    Maintains f.LabelledFrom (evaluate c fuel t) LabelledValues :=
  .of_follows ((evaluate_follows t).mono fun _ he => he.labelsConditions)
    (evaluateWith_labelled hc fuel [] ht)

theorem conjoinAll_labelled (guards : List Guard) :
    Maintains f.LabelledFrom (update (Formula.conjoinAll guards)) fun _ => True :=
  maintains_of_follows (conjoinAll_follows guards trivial) fun _ => id

theorem conditionResult_labelled (functor : String) {operands : List Term} (guard : Guard)
    (hoperands : ∀ a ∈ operands, a.Labelled) :
    Maintains f.LabelledFrom (Comparison.conditionResult functor operands guard) fun _ => True := by
  let condition := mkSymbolic functor operands
  have hatom : Maintains f.LabelledFrom
      (update (Formula.addAtom condition (some condition) .condition)) fun _ => True :=
    maintains_of_follows (addAtom_follows condition (some condition) .condition
      ⟨rfl, ⟨functor, operands, rfl⟩, labelled_mkSymbolic hoperands⟩) fun _ => id
  exact hatom.bind fun _ _ => (conjoinAll_labelled _).bind fun _ _ => .pure trivial

theorem passingGuard_labelled (k : Comparison) (settings : Settings) (x y : Number) (pair : Guard) :
    Maintains f.LabelledFrom (k.passingGuard settings x y pair) fun _ => True := by
  unfold Comparison.passingGuard
  split
  · have hatom : Maintains f.LabelledFrom (update (Formula.addAtom
        (.compound k.name [.constant x, .constant y]) none .builtin)) fun _ => True :=
      maintains_of_follows (addAtom_follows _ none .builtin trivial) fun _ => id
    exact hatom.bind fun _ _ => conjoinAll_labelled _
  · exact .pure trivial

theorem pairResult_labelled (k : Comparison) (settings : Settings) (terms : List Term)
    {a b : GuardedValue} (ha : a.value.Labelled) (hb : b.value.Labelled) :
    Maintains f.LabelledFrom (k.pairResult settings terms a b) fun _ => True := by
  refine (conjoinAll_labelled _).bind fun pair _ => ?_
  split
  · split
    · exact (passingGuard_labelled k settings _ _ pair).bind fun _ _ => .pure trivial
    · exact .pure trivial
  · exact .pure trivial
  · exact .pure trivial
  · refine conditionResult_labelled _ _ fun t ht => ?_
    obtain ⟨v, hv, hvt⟩ := List.mem_filterMap.mp ht
    rcases List.mem_pair.mp hv with rfl | rfl
    · exact ha t hvt
    · exact hb t hvt

theorem comparison_labelled (hc : c.ResolvesLabelled) (k : Comparison) {t u : Term}
    (ht : t.Labelled) (hu : u.Labelled) :
    Maintains f.LabelledFrom (k.results (c.scope fuel) t u) fun _ => True := by
  refine (evaluate_labelled hc ht).bind fun ls hls => ?_
  refine (evaluate_labelled hc hu).bind fun rs hrs => .ofExcept_bind fun _ _ => ?_
  have hpair (p : GuardedValue × GuardedValue) (hp : p ∈ ls.flatMap fun a => rs.map (a, ·)) :
      Maintains f.LabelledFrom (k.pairResult (c.scope fuel).settings [t, u] p.1 p.2)
        fun _ => True := by
    obtain ⟨a, ha, hp⟩ := List.mem_flatMap.mp hp
    obtain ⟨b, hb, rfl⟩ := List.mem_map.mp hp
    exact pairResult_labelled k _ _ (hls a ha) (hrs b hb)
  exact (Maintains.mapM hpair).post fun _ _ => trivial

theorem observedTuple_labelled {tuple : List GuardedValue} (htuple : LabelledValues tuple) :
    Maintains f.LabelledFrom (Builtin.observedTuple tuple) fun v => v.value.Labelled := by
  refine (conjoinAll_labelled _).bind fun guard _ => .pure ?_
  dsimp only
  split
  · next terms hterms =>
    refine Value.labelled_symbolic (labelled_ofList fun a ha => ?_)
    obtain ⟨v, hv, hva⟩ := Formula.exists_of_mem_forall₂ (mapM_eq_some_iff.mp hterms).flip ha
    exact htuple v hv a hva
  · exact Value.labelled_undefined

theorem observedValues_labelled (hc : c.ResolvesLabelled) (value : Term) {observed : Term}
    (hobserved : observed.Labelled) :
    Maintains f.LabelledFrom (Builtin.observedValues (c.scope fuel) value observed)
      LabelledValues := by
  unfold Builtin.observedValues
  split
  · next coordinates _ =>
    refine .ofExcept_bind fun _ _ => .ofExcept_bind fun items hitems => ?_
    have hlist := (Builtin.of_observedItems hitems).1
    have hoperands : Maintains f.LabelledFrom (items.mapM (evaluate c fuel))
        fun vss => ∀ vs ∈ vss, LabelledValues vs :=
      .mapM fun a ha => evaluate_labelled hc (hobserved.part (part_of_list? hlist ha))
    refine hoperands.bind fun vss hvss => .ofExcept_bind fun _ _ => .mapM fun tuple htuple => ?_
    refine observedTuple_labelled fun v hv => ?_
    obtain ⟨vs, hvs, hv⟩ := mem_of_mem_tuples htuple hv
    exact hvss vs hvs v hv
  · refine .ofExcept_bind fun _ _ => ?_
    split
    · exact .throw
    · exact evaluate_labelled hc hobserved

theorem observation_labelled (hc : c.ResolvesLabelled) {value observed : Term}
    (hvalue : value.Labelled) (hobserved : observed.Labelled) :
    Maintains f.LabelledFrom (Builtin.observationResults (c.scope fuel) value observed)
      fun _ => True := by
  refine (observedValues_labelled hc value hobserved).bind fun vs hvs => ?_
  have hresults : Maintains f.LabelledFrom ((vs.filterMap fun v => v.value.term?.map
      (·, v.guard)).mapM (Builtin.observationResult value)) fun results => ∀ r ∈ results, True := by
    refine .mapM fun o ho => conditionResult_labelled _ _ ?_
    obtain ⟨v, hv, hvo⟩ := List.mem_filterMap.mp ho
    obtain ⟨t, ht, rfl⟩ := Option.map_eq_some_iff.mp hvo
    exact List.forall_mem_cons.mpr ⟨hvalue, List.forall_mem_singleton.mpr (hvs v hv t ht)⟩
  exact hresults.post fun _ _ => trivial

/-- A call of a standard builtin with labelled arguments registers labelled conditions only, also
when it fails or aborts. -/
theorem run_call_labelled (hc : c.ResolvesLabelled) (hargs : ∀ a ∈ args, a.Labelled)
    {r : Except Error Answers}
    (hrun : (BuiltinTable.standard.call (c.scope fuel) name args).run f = some (r, g)) :
    f.LabelledFrom g := by
  cases hfind : BuiltinTable.standard.find? name args.length with
  | none =>
    unfold BuiltinTable.call at hrun
    rw [hfind] at hrun
    cases hrun
    exact .refl
  | some b =>
    rcases BuiltinTable.run_call_cases hfind hrun with ⟨_, -, -, rfl⟩ | ⟨hcheck, r', hrun, -⟩
    · exact .refl
    have hrule : Maintains f.LabelledFrom (b.run (c.scope fuel) args) fun _ => True := by
      refine BuiltinTable.run_checked (C := fun m => Maintains f.LabelledFrom m fun _ => True)
        ?_ ?_ ?_ ?_ ?_ ?_ ?_ (BuiltinTable.mem_of_find? hfind) hcheck
      · rintro k t u rfl - -
        exact comparison_labelled hc k (hargs t (by simp)) (hargs u (by simp))
      · exact fun t u _ _ => maintains_of_follows (Builtin.isResults_follows t u)
          fun _ he => he.labelsConditions
      · exact fun t _ _ => maintains_of_follows (Builtin.densityResults_follows t)
          fun _ he => he.labelsConditions
      · exact fun t _ _ => maintains_of_follows (Builtin.freeResults_follows t)
          fun _ he => he.labelsConditions
      · exact fun t _ _ => maintains_of_follows (Builtin.freeListResults_follows t)
          fun _ he => he.labelsConditions
      · exact fun t u _ _ => maintains_of_follows (Builtin.asResults_follows t u)
          fun _ he => he.labelsConditions
      · rintro t u rfl - -
        exact observation_labelled hc (hargs t (by simp)) (hargs u (by simp))
    exact (hrule f r' g .refl hrun).1

/-- Whatever the formula holds, if the open expressions in the arguments and in the alternatives
carry the names that they depend on, then so do those that evaluation returns, and so does every
condition that a comparison or an observation registers. If there are no symbolic forms in the
expression and the alternatives, then the names of an open expression are those of the realizations
at the sites that it was read from, apart from point masses. -/
theorem open_expressions_labelled :
    (∀ (c : Context) (fuel : Nat) (t : Term) (f g : Formula) (vs : List GuardedValue),
      c.ResolvesLabelled → t.Labelled → (evaluate c fuel t).run f = some (.ok vs, g) →
        ∀ v ∈ vs, ∀ u, v.value = .symbolic u → ∀ name, name ∈ u.names ↔ u.DependsOn name) ∧
    (∀ (c : Context) (fuel : Nat) (functor : String) (args : List Term) (f g : Formula)
        (r : Except Error Answers),
      c.ResolvesLabelled → (∀ a ∈ args, a.Labelled) →
        (BuiltinTable.standard.call (c.scope fuel) functor args).run f = some (r, g) →
        ∀ id t p, g.node? id = some (.atom t p .condition) →
          f.node? id = some (.atom t p .condition) ∨
            p = some t ∧ (∃ functor operands names, t = .symbolic functor operands names) ∧
              ∀ name, name ∈ t.names ↔ t.DependsOn name) ∧
    ∀ (c : Context) (fuel : Nat) (t : Term) (f g : Formula) (vs : List GuardedValue),
      Formula.LeadsTo .empty f →
      (∀ s as, s.Ordinary → c.resolve s = .ok as → ∀ a ∈ as, a.Ordinary) → t.Ordinary →
        (evaluate c fuel t).run f = some (.ok vs, g) →
        ∃ rs, (Reading.evaluateWith c fuel [] t).run f = some (.ok rs, g) ∧
          rs.map (·.value) = vs ∧
          ∀ r ∈ rs, (∀ p ∈ r.sites, f.IsSite p.1 p.2) ∧
            ∀ u, r.value.value = .symbolic u → ∀ name, name ∈ u.names ↔
              ∃ v s, (v, s) ∈ r.sites ∧ (f.probability? s).bind pointMass? = none ∧
                name = realizationName v s := by
  refine ⟨fun c fuel t f g vs hc ht hrun v hv u hu name => ?_,
    fun c fuel functor args f g r hc hargs hrun id t p hn => ?_,
    fun c fuel t f g vs hf hc ht hrun => ?_⟩
  · obtain ⟨-, hvs⟩ := evaluateWith_labelled hc fuel [] ht f _ g trivial hrun
    exact mem_names_iff (hvs vs rfl v hv u (by rw [hu]; rfl))
  · rcases (run_call_labelled hc hargs hrun).condition hn with hn | ⟨hp, ⟨h, os, rfl⟩, ht⟩
    · exact .inl hn
    · exact .inr ⟨hp, ⟨h, os, _, rfl⟩, fun name => mem_names_iff ht⟩
  · have hvalues : (evaluate c fuel t).run f =
        ((Reading.evaluateWith c fuel [] t).run f).map fun p => (p.1.map Reading.values, p.2) := by
      unfold evaluate
      rw [← Reading.values_evaluateWith]
      show ((Reading.evaluateWith c fuel [] t).run f).bind _ = _
      cases (Reading.evaluateWith c fuel [] t).run f with
      | none => rfl
      | some p => obtain ⟨_ | _, _⟩ := p <;> rfl
    rw [hvalues] at hrun
    obtain ⟨⟨r, g'⟩, hread, hr⟩ := Option.map_eq_some_iff.mp hrun
    cases r with
    | error e => cases hr
    | ok rs =>
      cases hr
      obtain ⟨-, hreads⟩ :=
        Reading.evaluateWith_reads hf.coherent hc fuel [] ht f _ _ .refl hread
      refine ⟨rs, hread, rfl, fun r hr => ⟨(hreads rs rfl r hr).sites, fun u hu name => ?_⟩⟩
      rw [(hreads rs rfl r hr).names u (by rw [hu]; rfl)]
      simp

/-- A variable is added to itself, and compared with a number. -/
theorem open_expressions_labelled_rainy :
    (∃ vs g rs, (evaluate standardContext 2 (.compound "+" [.atom "x", .atom "x"])).run
          Formula.rainy = some (.ok vs, g) ∧
        (∀ v ∈ vs, ∀ u, v.value = .symbolic u → ∀ name, name ∈ u.names ↔ u.DependsOn name) ∧
        (Reading.evaluateWith standardContext 2 [] (.compound "+" [.atom "x", .atom "x"])).run
          Formula.rainy = some (.ok rs, g) ∧ rs.map (·.value) = vs ∧
        ∀ r ∈ rs, ∀ u, r.value.value = .symbolic u → ∀ name, name ∈ u.names ↔
          ∃ v s, (v, s) ∈ r.sites ∧ (Formula.rainy.probability? s).bind pointMass? = none ∧
            name = realizationName v s) ∧
    ∃ r g t p, (BuiltinTable.standard.call (standardContext.scope 2) "<"
          [.atom "x", .constant (.int 1)]).run Formula.rainy = some (r, g) ∧
        g.node? ⟨3⟩ = some (.atom t p .condition) ∧ p = some t ∧
        ∀ name, name ∈ t.names ↔ t.DependsOn name := by
  obtain ⟨hvalues, hconditions, hreads⟩ := open_expressions_labelled
  have hresolve : standardContext.ResolvesLabelled := by
    rintro t as ht ⟨⟩
    exact List.forall_mem_singleton.mpr ht
  have hordinary : ∀ s as, s.Ordinary → standardContext.resolve s = .ok as →
      ∀ a ∈ as, a.Ordinary := by
    rintro t as ht ⟨⟩
    exact List.forall_mem_singleton.mpr ht
  have hx : (atom "x").Labelled := labelled_of_args (List.forall_mem_nil _) (by nofun)
  have hx' : (atom "x").Ordinary := ordinary_iff.mpr ⟨rfl, List.forall_mem_nil _⟩
  have hsum : (compound "+" [.atom "x", .atom "x"]).Labelled :=
    labelled_of_args (by simpa [args] using hx) (by nofun)
  have hsum' : (compound "+" [.atom "x", .atom "x"]).Ordinary :=
    ordinary_iff.mpr ⟨rfl, by simpa [args] using hx'⟩
  constructor
  · obtain ⟨rs, hread, hrs, hnames⟩ := hreads standardContext 2 _ _ _ _
      Formula.rainy_reachable.leadsTo hordinary hsum' rfl
    exact ⟨_, _, rs, rfl, hvalues standardContext 2 _ Formula.rainy _ _ hresolve hsum rfl, hread,
      hrs, fun r hr => (hnames r hr).2⟩
  · have hargs : ∀ a ∈ [atom "x", constant (.int 1)], a.Labelled :=
      List.forall_mem_cons.mpr ⟨hx, List.forall_mem_singleton.mpr (labelled_constant _)⟩
    rcases hconditions standardContext 2 "<" _ Formula.rainy _ _ hresolve hargs rfl ⟨3⟩ _ _ rfl with
      hold | ⟨hp, -, hnames⟩
    · cases hold
    · exact ⟨_, _, _, _, rfl, rfl, hp, hnames⟩

end Grounding
