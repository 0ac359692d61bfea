import Grounding.Proofs.Builtin.Registration
import Grounding.Proofs.Session.Comparison
import Grounding.Proofs.Session.Density

/-!
# What a call leaves alone

Each builtin may change a few components of the formula, and all others come out of its call as they
were, whether it completes, fails or aborts.
-/

namespace Grounding

open GroundingM

variable {f g h : Formula} {ws vs : List Term}

/-- What the edits of a kind keep, every sequence of them keeps. -/
theorem Formula.Trail.keeps {P : Edit → Prop} {α : Type} (component : Formula → α)
    (hstep : ∀ e, P e → ∀ g, component (e.apply g) = component g) (hfg : f.Trail P g) :
    component g = component f := by
  induction hfg with
  | refl => rfl
  | step _ hp _ ih => exact (hstep _ hp _).trans ih

/-- Only descriptors of the realizations of `v` are added. -/
structure Formula.FixesOnly (f g : Formula) (v : Term) : Prop where
  grows : f.Extends g
  rest : g = { f with descriptors := g.descriptors }
  descriptors : ∀ name d, g.descriptor? name = some d →
    f.descriptor? name = some d ∨ ∃ s, name = realizationName v s

/-- Only densities of `v` are added, to those asked of `v` and to the queries. -/
structure Formula.AsksOnly (f g : Formula) (v : Term) : Prop where
  grows : f.Extends g
  rest : g = { f with queries := g.queries, densities := g.densities }
  others : ∀ u ≠ v, g.densities[u]? = f.densities[u]?
  asked : ∀ d, g.IsAsked v d → f.IsAsked v d ∨ ∃ s, d = .density (realizationName v s)
  queries : ∀ entry ∈ g.queries,
    entry ∈ f.queries ∨ ∃ s, entry.1 = .density (realizationName v s)

/-- Exactly these variables are declared free beside the ones that are. -/
structure Formula.Declares (f g : Formula) (vs : List Term) : Prop where
  rest : g = { f with freeVariables := g.freeVariables }
  mem_iff : ∀ u, u ∈ g.freeVariables ↔ u ∈ f.freeVariables ∨ u ∈ vs

theorem Formula.FixesOnly.of_trail {v : Term} (hfg : f.Trail (Edit.ByAs v) g) : f.FixesOnly g v where
  grows := hfg.grows
  rest := by
    have hkept : { g with descriptors := ∅ } = { f with descriptors := ∅ } :=
      hfg.keeps (fun f => { f with descriptors := ∅ }) fun e he g => by
        cases e with
        | descriptor => rfl
        | _ => exact he.elim
    exact congrArg (fun h : Formula => { h with descriptors := g.descriptors }) hkept
  descriptors name d hd := by
    induction hfg with
    | refl => exact .inl hd
    | @step g e _ hp he ih =>
      cases e with
      | descriptor u site d' =>
        cases hp
        rw [Edit.apply, descriptor?_withDescriptor] at hd
        split at hd
        · next hname => exact .inr ⟨site, hname ▸ (newDescriptor_inv he.1).1⟩
        · exact ih hd
      | _ => exact hp.elim

theorem Formula.AsksOnly.of_trail {v : Term} (hfg : f.Trail (Edit.ByDensity v) g) :
    f.AsksOnly g v where
  grows := hfg.grows
  rest := by
    have hkept :
        { g with queries := [], densities := ∅ } = { f with queries := [], densities := ∅ } :=
      hfg.keeps (fun f => { f with queries := [], densities := ∅ }) fun e he g => by
        cases e with
        | name => obtain ⟨-, rfl⟩ := he; rfl
        | density => rfl
        | _ => exact he.elim
    exact congrArg (fun h : Formula => { h with queries := g.queries, densities := g.densities })
      hkept
  others u hu := hfg.keeps (fun f => f.densities[u]?) fun e he g => by
    cases e with
    | name => obtain ⟨-, rfl⟩ := he; rfl
    | density w d =>
      obtain ⟨rfl, -⟩ := he
      rw [Edit.apply, addDensity, Std.ExtTreeMap.getElem?_insert, if_neg]
      exact fun hw => hu (Std.LawfulEqCmp.eq_of_compare hw).symm
    | _ => exact he.elim
  asked d hd := by
    induction hfg with
    | refl => exact .inl hd
    | @step g e _ hp _ ih =>
      cases e with
      | name => obtain ⟨-, rfl⟩ := hp; exact ih hd
      | density w d' =>
        obtain ⟨rfl, site, rfl⟩ := hp
        rcases isAsked_addDensity.mp hd with ⟨-, rfl⟩ | hold
        · exact .inr ⟨site, rfl⟩
        · exact ih hold
      | _ => exact hp.elim
  queries entry hentry := by
    induction hfg with
    | refl => exact .inl hentry
    | @step g e _ hp _ ih =>
      cases e with
      | name t x l =>
        obtain ⟨hsite, rfl⟩ := hp
        rcases mem_addEntry.mp hentry with rfl | hold
        · exact .inr hsite
        · exact ih hold
      | density => exact ih hentry
      | _ => exact hp.elim

namespace Formula.Declares

theorem refl (f : Formula) : f.Declares f [] where
  rest := rfl
  mem_iff u := by simp

theorem addFree (f : Formula) (v : Term) : f.Declares (f.addFree v) [v] where
  rest := rfl
  mem_iff u := by
    rw [mem_addFree, List.mem_singleton, or_comm]

theorem trans (hfg : f.Declares g ws) (hgh : g.Declares h vs) : f.Declares h (ws ++ vs) where
  rest := by rw [hgh.rest, hfg.rest]
  mem_iff u := by rw [hgh.mem_iff, hfg.mem_iff, List.mem_append, or_assoc]

theorem foldl_addFree (vs : List Term) (f : Formula) :
    f.Declares (vs.foldl (fun f v => f.addFree v) f) vs := by
  induction vs generalizing f with
  | nil => exact refl f
  | cons v vs ih => exact (addFree f v).trans (ih _)

end Formula.Declares

namespace Comparison

variable {k : Comparison} {c : Context} {fuel : Nat} {left right : Term}

/-- A comparison fails before it looks at a pair, or comes to the values of both sides and appends
the atoms of their pairs. -/
theorem run_results_cases {r : Except Error Results}
    (hrun : (k.results (c.scope fuel) left right).run f = some (r, g)) :
    f.Appends g [] ∧ (∀ results, r ≠ .ok results) ∨
      ∃ results ls rs f₁ f₂, r = .ok results ∧ (evaluate c fuel left).run f = some (.ok ls, f₁) ∧
        (evaluate c fuel right).run f₁ = some (.ok rs, f₂) ∧
        f.AppendsNew g ((ls ×ˢ rs).flatMap fun p =>
          (k.identifier? c.settings.keepBuiltins p.1.value p.2.value).toList) := by
  have hevaluate {t : Term} {r : Except Error (List GuardedValue)} {f g : Formula}
      (h : (evaluate c fuel t).run f = some (r, g)) : f.Appends g [] :=
    .of_evaluation (evaluate_follows t _ _ _ h)
  unfold results at hrun
  rcases run_bind_cases hrun with ⟨e, hl, rfl⟩ | ⟨ls, f₁, hl, hrun⟩
  · exact .inl ⟨hevaluate hl, fun _ h => by cases h⟩
  rcases run_bind_cases hrun with ⟨e, hr, rfl⟩ | ⟨rs, f₂, hr, hrun⟩
  · exact .inl ⟨(hevaluate hl).trans (hevaluate hr), fun _ h => by cases h⟩
  have hboth : f.Appends f₂ [] := (hevaluate hl).trans (hevaluate hr)
  rcases run_bind_cases hrun with ⟨e, hsize, rfl⟩ | ⟨size, f₃, hsize, hrun⟩
  · obtain ⟨-, rfl⟩ := eq_of_run_ofExcept hsize
    exact .inl ⟨hboth, fun _ h => by cases h⟩
  obtain ⟨-, rfl⟩ := eq_of_run_ofExcept hsize
  obtain ⟨results, g', hall⟩ := Total.mapM (fun p : GuardedValue × GuardedValue =>
    pairResult_total k c.settings [left, right] p.1 p.2) (ls ×ˢ rs) f₂
  have hsame := hall.symm.trans hrun
  cases hsame
  have hpairs := Registering.mapM (fun p : GuardedValue × GuardedValue =>
    pairResult_registering k c.settings [left, right] p.1 p.2) (ls ×ˢ rs) _ _ _ hall
  exact .inr ⟨results, ls, rs, f₁, f₂, rfl, hl, hr,
    (Formula.AppendsNew.of_appends hboth).trans hpairs⟩

end Comparison

namespace BuiltinTable

variable {c : Context} {fuel : Nat} {name : String} {args : List Term} {r : Except Error Answers}

/-- What holds when nothing changes and after every run of the rule holds after every call. -/
theorem of_run_call {b : Builtin} {Q : Formula → Prop}
    (hfind : standard.find? name args.length = some b) (hsame : Q f)
    (hrule : ∀ r g, (b.run (c.scope fuel) args).run f = some (r, g) → Q g)
    (h : (standard.call (c.scope fuel) name args).run f = some (r, g)) : Q g := by
  rcases run_call_cases hfind h with ⟨_, -, -, rfl⟩ | ⟨-, r', hrun, -⟩
  · exact hsame
  · exact hrule r' g hrun

theorem run_call_comparison_cases {k : Comparison} {left right : Term}
    (h : (standard.call (c.scope fuel) k.name [left, right]).run f = some (r, g)) :
    f.Appends g [] ∧ (∀ results, r ≠ .ok (.completed results)) ∨
      ∃ results ls rs f₁ f₂, r = .ok (.completed results) ∧
        (evaluate c fuel left).run f = some (.ok ls, f₁) ∧
        (evaluate c fuel right).run f₁ = some (.ok rs, f₂) ∧
        f.AppendsNew g ((ls ×ˢ rs).flatMap fun p =>
          (k.identifier? c.settings.keepBuiltins p.1.value p.2.value).toList) := by
  rcases run_call_cases (find?_comparison k) h with ⟨e, -, rfl, hsame⟩ | ⟨-, r', hrun, rfl⟩
  · refine .inl ⟨hsame ▸ .refl f, fun results hr => ?_⟩
    cases Answers.ofRun_eq_completed_iff.mp hr
  · rcases Comparison.run_results_cases hrun with
      ⟨happends, hr⟩ | ⟨results, ls, rs, f₁, f₂, rfl, hends⟩
    · exact .inl ⟨happends, fun results h => hr results (Answers.ofRun_eq_completed_iff.mp h)⟩
    · exact .inr ⟨results, ls, rs, f₁, f₂, rfl, hends⟩

/-- A rule of one argument, with the check of its mode before it: what it registers if the argument
is accepted is registered, and else nothing is. -/
theorem of_run_call_unary {m : Mode} {rule : Scope → Term → GroundingM Results} {t : Term}
    {Q : Formula → Prop}
    (hfind : standard.find? name 1 = some (.unary name (String.singleton m.letter) rule))
    (hrefused : m.accepts t = false → Q f)
    (hrule : m.accepts t → ∀ r g, (rule (c.scope fuel) t).run f = some (r, g) → Q g)
    (h : (standard.call (c.scope fuel) name [t]).run f = some (r, g)) : Q g := by
  have hcheck := check_letter name m t
  rcases run_call_cases hfind h with ⟨e, he, -, rfl⟩ | ⟨hok, r', hrun, -⟩
  · refine hrefused (Bool.eq_false_iff.mpr fun haccepts => ?_)
    rw [if_pos haccepts] at hcheck
    cases hcheck.symm.trans he
  · have haccepts : m.accepts t := by
      by_contra hnot
      rw [if_neg hnot] at hcheck
      cases hcheck.symm.trans hok
    exact hrule haccepts r' g hrun

theorem declares_of_free {v : Term}
    (h : (standard.call (c.scope fuel) "free" [v]).run f = some (r, g)) :
    f.Declares g (if v.isCallable then [v] else []) := by
  refine of_run_call_unary (m := .callable) (Q := fun g => f.Declares g _) rfl ?_ ?_ h
  · intro hv
    rw [if_neg (show ¬ v.isCallable = true from Bool.eq_false_iff.mp hv)]
    exact .refl f
  · intro hv r g hrun
    cases hrun
    rw [if_pos (show v.isCallable = true from hv)]
    exact .addFree f v

theorem declares_of_free_list {vs : Term}
    (h : (standard.call (c.scope fuel) "free_list" [vs]).run f = some (r, g)) :
    f.Declares g (vs.list?.getD []) := by
  refine of_run_call_unary (m := .list) (Q := fun g => f.Declares g _) rfl ?_ ?_ h
  · intro hvs
    rw [Option.not_isSome_iff_eq_none.mp (Bool.eq_false_iff.mp hvs)]
    exact .refl f
  · intro hvs r g hrun
    obtain ⟨items, hitems⟩ := Option.isSome_iff_exists.mp hvs
    unfold Builtin.freeListResults at hrun
    rw [hitems] at hrun ⊢
    cases hrun
    exact .foldl_addFree items f

theorem evidence_of_byBuiltin {keep : Bool} {e : Edit} (he : e.ByBuiltin keep) (g : Formula) :
    (e.apply g).evidence = g.evidence := by
  have hatom (t : Term) (p : Option Term) (s : Source) : (g.addAtom t p s).2.evidence = g.evidence :=
    (congrArg Formula.evidence (g.withoutNodes_addAtom t p s) :)
  have hcondition {functor : String} (he : e.ByCondition functor) :
      (e.apply g).evidence = g.evidence := by
    cases e with
    | atom t p s => exact hatom t p s
    | conjunction guards => exact (congrArg Formula.evidence (g.withoutNodes_conjoinAll guards) :)
    | descriptor => rfl
    | _ => exact he.elim
  cases he with
  | evaluation he => exact hcondition (he.byCondition "")
  | observation he => exact hcondition he
  | comparison k he =>
    obtain he | ⟨-, x, y, -, rfl⟩ := he
    · exact hcondition he
    · exact hatom _ _ _
  | density v he =>
    cases e with
    | name => obtain ⟨-, rfl⟩ := he; rfl
    | density => rfl
    | _ => exact he.elim
  | as v he | free v he =>
    cases e with
    | descriptor | free => rfl
    | _ => exact he.elim

end BuiltinTable

/-- What the builtins change, for every formula and all arguments, whether the call completes, fails
or aborts. Evaluation and `is` append conjunctions and points. A comparison that completes appends
the atoms of its pairs of values that are new beside, each once: a condition for a pair with a
symbolic side, and for two numbers an atom only if they pass and comparisons are kept. An
observation appends conditions beside. Each of the others changes one or two components; `free` and
`free_list` declare exactly the variables they are given. Sites, bodies and evidence are never
changed. -/
theorem builtins_frame (f : Formula) (c : Context) (fuel : Nat) :
    (∀ t r g, (evaluate c fuel t).run f = some (r, g) → f.Appends g []) ∧
    (∀ x t r g, (BuiltinTable.standard.call (c.scope fuel) "is" [x, t]).run f = some (r, g) →
      f.Appends g []) ∧
    (∀ (k : Comparison) left right r g,
      (BuiltinTable.standard.call (c.scope fuel) k.name [left, right]).run f = some (r, g) →
        f.Appends g [] ∧ (∀ results, r ≠ .ok (.completed results)) ∨
        ∃ results ls rs f₁ f₂, r = .ok (.completed results) ∧
          (evaluate c fuel left).run f = some (.ok ls, f₁) ∧
          (evaluate c fuel right).run f₁ = some (.ok rs, f₂) ∧
          (f.AppendsNew g ((ls ×ˢ rs).flatMap fun p =>
            (k.identifier? c.settings.keepBuiltins p.1.value p.2.value).toList)) ∧
          (c.settings.keepBuiltins = false → (∀ a ∈ ls, ∀ b ∈ rs, a.value = .undefined ∨
            b.value = .undefined ∨ ∃ m n, a.value = .number m ∧ b.value = .number n) →
            f.Appends g [])) ∧
    (∀ (k : Comparison) keep a b t, k.identifier? keep a b = some t →
      (registeredAtom t = .atom t (some t) .condition ∧
        t = .mkSymbolic k.symbolicFunctor ([a, b].filterMap Value.term?) ∧
        a ≠ .undefined ∧ b ≠ .undefined ∧ (a.number? = none ∨ b.number? = none)) ∨
      (registeredAtom t = .atom t none .builtin ∧ keep = true ∧ ∃ m n, a = .number m ∧ b = .number n ∧
        k.holds m n = true ∧ t = .compound k.name [.constant m, .constant n])) ∧
    (∀ value observed r g,
      (BuiltinTable.standard.call (c.scope fuel) "observation" [value, observed]).run f =
        some (r, g) → ∃ ids, f.Appends g ids ∧
          ∀ t ∈ ids, registeredAtom t = .atom t (some t) .condition) ∧
    (∀ value v r g, (BuiltinTable.standard.call (c.scope fuel) "as" [value, v]).run f = some (r, g) →
      f.FixesOnly g v) ∧
    (∀ v r g, (BuiltinTable.standard.call (c.scope fuel) "density" [v]).run f = some (r, g) →
      f.AsksOnly g v) ∧
    (∀ v r g, (BuiltinTable.standard.call (c.scope fuel) "free" [v]).run f = some (r, g) →
      f.Declares g (if v.isCallable then [v] else [])) ∧
    (∀ vs r g, (BuiltinTable.standard.call (c.scope fuel) "free_list" [vs]).run f = some (r, g) →
      f.Declares g (vs.list?.getD [])) ∧
    (∀ name args r g, (BuiltinTable.standard.call (c.scope fuel) name args).run f = some (r, g) →
      g.sites = f.sites ∧ g.bodies = f.bodies ∧ g.evidence = f.evidence) := by
  refine ⟨?evaluation, ?is, ?comparison, ?pair, ?observation, ?as, ?density, ?free, ?freeList, ?all⟩
  case evaluation => exact fun t r g hrun => .of_evaluation (evaluate_follows t _ _ _ hrun)
  case is =>
    intro x t r g hrun
    refine BuiltinTable.of_run_call (b := .isBuiltin) (Q := (f.Appends · [])) rfl (.refl f) ?_ hrun
    exact fun r g hrun => .of_evaluation (Builtin.isResults_follows x t _ _ _ hrun)
  case comparison =>
    intro k left right r g hrun
    rcases BuiltinTable.run_call_comparison_cases hrun with
      hquiet | ⟨results, ls, rs, f₁, f₂, hr, hl, hr', hnew⟩
    · exact .inl hquiet
    · refine .inr ⟨results, ls, rs, f₁, f₂, hr, hl, hr', hnew, fun hkeep hplain => ?_⟩
      have hnone : (ls ×ˢ rs).flatMap (fun p =>
          (k.identifier? c.settings.keepBuiltins p.1.value p.2.value).toList) = [] := by
        refine List.flatMap_eq_nil_iff.mpr fun p hp => ?_
        obtain ⟨ha, hb⟩ := List.mem_product.mp hp
        rw [hkeep, Option.toList_eq_nil_iff]
        exact Comparison.identifier?_of_plain (hplain p.1 ha p.2 hb)
      rw [hnone] at hnew
      exact hnew.appends
  case pair => exact fun k keep a b t => Comparison.registeredAtom_of_identifier?
  case observation =>
    intro value observed r g hrun
    refine BuiltinTable.of_run_call (b := .observationBuiltin)
      (Q := fun g => ∃ ids, f.Appends g ids ∧
        ∀ t ∈ ids, registeredAtom t = .atom t (some t) .condition) rfl
      ⟨[], .refl f, List.forall_mem_nil _⟩ ?_ hrun
    intro r g hrun
    obtain ⟨ids, happends, hids⟩ := Formula.Appends.of_conditions
      (Builtin.observationResults_follows value observed _ _ _ hrun)
    refine ⟨ids, happends, fun t ht => ?_⟩
    obtain ⟨operands, rfl⟩ := hids t ht
    rfl
  case as =>
    intro value v r g hrun
    refine BuiltinTable.of_run_call (b := .asBuiltin) (Q := (f.FixesOnly · v)) rfl
      (.of_trail .refl) ?_ hrun
    have hfollows : Follows (Edit.ByAs v) (Builtin.asResults (c.scope fuel) value v) :=
      Builtin.asResults_follows value v
    exact fun r g hrun => .of_trail (hfollows _ _ _ hrun)
  case density =>
    intro v r g hrun
    refine BuiltinTable.of_run_call (b := .densityBuiltin) (Q := (f.AsksOnly · v)) rfl
      (.of_trail .refl) ?_ hrun
    have hfollows : Follows (Edit.ByDensity v) (Builtin.densityResults (c.scope fuel) v) :=
      Builtin.densityResults_follows v
    exact fun r g hrun => .of_trail (hfollows _ _ _ hrun)
  case free => exact fun v r g hrun => BuiltinTable.declares_of_free hrun
  case freeList => exact fun vs r g hrun => BuiltinTable.declares_of_free_list hrun
  case all =>
    intro name args r g hrun
    have htrail := BuiltinTable.call_follows name args f r g hrun
    obtain ⟨hsites, hbodies⟩ := htrail.sites_eq fun _ he => he.keepsSites
    exact ⟨hsites, hbodies,
      htrail.keeps Formula.evidence fun _ he => BuiltinTable.evidence_of_byBuiltin he⟩

/-- One value of the compared site is a number, the other leaves a condition, the only new atom. The
other calls keep to their components. -/
theorem builtins_frame_rainy :
    (∃ results g, (BuiltinTable.standard.call (standardContext.scope 1) Comparison.less.name
        [.atom "x", .constant (.int 3)]).run Formula.rainy = some (.ok (.completed results), g) ∧
      Formula.rainy.AppendsNew g
        [.mkSymbolic "<" [.coordinate "x#3" 0, .constant (.int 3)]]) ∧
    (∃ results g, (BuiltinTable.standard.call (standardContext.scope 1) "as"
        [.var "A", .atom "x"]).run Formula.rainy = some (.ok (.completed results), g) ∧
      Formula.rainy.FixesOnly g (.atom "x") ∧ (g.descriptor? "x#2").isSome) ∧
    (∃ results g, (BuiltinTable.standard.call (standardContext.scope 1) "density"
        [.atom "x"]).run Formula.rainy = some (.ok (.completed results), g) ∧
      Formula.rainy.AsksOnly g (.atom "x") ∧ g.queries.length = 2) ∧
    ∃ results g, (BuiltinTable.standard.call (standardContext.scope 1) "free"
        [.atom "x"]).run Formula.rainy = some (.ok (.completed results), g) ∧
      Formula.rainy.Declares g [.atom "x"] := by
  obtain ⟨-, -, hcomparison, -, -, has, hdensity, hfree, -, -⟩ :=
    builtins_frame Formula.rainy standardContext 1
  refine ⟨?_, ⟨_, _, rfl, has (.var "A") _ _ _ rfl, rfl⟩, ⟨_, _, rfl, hdensity _ _ _ rfl, rfl⟩,
    ⟨_, _, rfl, hfree (.atom "x") _ _ rfl⟩⟩
  obtain ⟨f₁, hl⟩ : ∃ f₁, (evaluate standardContext 1 (.atom "x")).run Formula.rainy = some
      (.ok [⟨.number (.int 2), .node ⟨0⟩⟩, ⟨.symbolic (.coordinate "x#3" 0), .always⟩], f₁) :=
    ⟨_, rfl⟩
  have hr : (evaluate standardContext 1 (.constant (.int 3))).run f₁ =
      some (.ok [.certain (.number (.int 3))], f₁) := rfl
  obtain ⟨results, g, hrun⟩ : ∃ results g,
      (BuiltinTable.standard.call (standardContext.scope 1) Comparison.less.name
        [.atom "x", .constant (.int 3)]).run Formula.rainy = some (.ok (.completed results), g) :=
    ⟨_, _, rfl⟩
  refine ⟨results, g, hrun, ?_⟩
  rcases hcomparison .less _ _ _ _ hrun with
    ⟨-, hnot⟩ | ⟨_, ls, rs, f₁', f₂', -, hl', hr', hnew, -⟩
  · exact absurd rfl (hnot results)
  · cases hl.symm.trans hl'
    cases hr.symm.trans hr'
    exact hnew

end Grounding
