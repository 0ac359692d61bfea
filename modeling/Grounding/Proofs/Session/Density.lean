import Mathlib.Data.List.Nodup
import Grounding.Proofs.Session.Call
import Grounding.Proofs.Session.Containment

/-!
# Densities and queries

A call of `density` asks for the density of a variable at each of its sites: it keeps the density
constant with the variable, and names it as a query under the body of the site. As long as nothing
else does either, the two records agree, and both agree with the sites.

`Accounted` is this agreement. A density constant determines its site, so an entry of one record has
one counterpart in the other. Between the calls more sites may be registered, each with a body whose
number fits a word; what was asked stays right since no site loses its body.
-/

namespace Grounding

open GroundingM

variable {f g : Formula} {v u d : Term} {s t : NodeId}

namespace Formula

/-- The density is asked of the variable. -/
def IsAsked (f : Formula) (v d : Term) : Prop := ∃ ds, f.densities? v = some ds ∧ d ∈ ds

theorem isAsked_iff : f.IsAsked v d ↔ d ∈ f.densities.getD v ∅ := mem_getD_iff.symm

theorem isAsked_congr (h : g.densities = f.densities) : g.IsAsked v d ↔ f.IsAsked v d := by
  rw [isAsked_iff, isAsked_iff, h]

theorem Extends.isAsked (hfg : f.Extends g) (hd : f.IsAsked v d) : g.IsAsked v d :=
  isAsked_iff.mpr (hfg.densities v d (isAsked_iff.mp hd))

theorem isAsked_addDensity {e : Term} :
    (f.addDensity v e).IsAsked u d ↔ u = v ∧ d = e ∨ f.IsAsked u d := by
  rw [isAsked_iff, isAsked_iff]
  exact mem_getD_insert_iff

/-- The formula in which the density of the variable at the site is asked and named as a query. -/
def askDensity (v : Term) (f : Formula) (s : NodeId) : Formula :=
  (f.addName (.density (realizationName v s)) (f.body s) .query).addDensity v
    (.density (realizationName v s))

theorem isAsked_askDensity : (f.askDensity v s).IsAsked u d ↔
    u = v ∧ d = .density (realizationName v s) ∨ f.IsAsked u d :=
  isAsked_addDensity

theorem isAsked_foldl_askDensity {sites : List NodeId} :
    (sites.foldl (askDensity v) f).IsAsked u d ↔
      u = v ∧ (∃ s ∈ sites, d = .density (realizationName v s)) ∨ f.IsAsked u d := by
  induction sites generalizing f with
  | nil => simp
  | cons s sites ih =>
    rw [List.foldl_cons, ih, isAsked_askDensity, List.exists_mem_cons_iff, and_or_left, or_assoc,
      or_left_comm]

theorem sites_foldl_askDensity (v : Term) (sites : List NodeId) (f : Formula) :
    (sites.foldl (askDensity v) f).sites = f.sites ∧
      (sites.foldl (askDensity v) f).bodies = f.bodies := by
  induction sites generalizing f with
  | nil => exact ⟨rfl, rfl⟩
  | cons s sites ih => exact ih (f.askDensity v s)

theorem nodup_addEntry {entry : Term × Guard} {entries : List (Term × Guard)}
    (h : entries.Nodup) : (addEntry entry entries).Nodup := by
  unfold addEntry
  split
  · exact h
  · next hnew => exact h.append (List.nodup_singleton entry) (List.disjoint_singleton.mpr hnew)

/-- What is asked, what is named as a query and the sites agree. -/
structure Accounted (f : Formula) : Prop where
  asked : ∀ v d, f.IsAsked v d → ∃ s, f.IsSite v s ∧ d = .density (realizationName v s) ∧
    (d, f.body s) ∈ f.names .query
  query : ∀ entry ∈ f.names .query, ∃ v s, f.IsSite v s ∧
    f.IsAsked v (.density (realizationName v s)) ∧
    entry = (.density (realizationName v s), f.body s)
  nodup : (f.names .query).Nodup

namespace Accounted

theorem empty : Formula.empty.Accounted where
  asked v d hd := by simp [isAsked_iff, Formula.empty] at hd
  query entry hentry := by simp [names, Formula.empty] at hentry
  nodup := List.nodup_nil

/-- A change that leaves the records and the sites that were there keeps the agreement. -/
theorem of_contained (hf : f.Accounted) (hsites : ∀ v s, f.IsSite v s → g.IsSite v s)
    (hbodies : ∀ v s, f.IsSite v s → g.body s = f.body s) (hqueries : g.queries = f.queries)
    (hdensities : g.densities = f.densities) : g.Accounted where
  asked v d hd := by
    obtain ⟨s, hs, hd, hentry⟩ := hf.asked v d ((isAsked_congr hdensities).mp hd)
    refine ⟨s, hsites v s hs, hd, ?_⟩
    rw [hbodies v s hs]
    show _ ∈ g.queries
    rwa [hqueries]
  query entry hentry := by
    change entry ∈ g.queries at hentry
    rw [hqueries] at hentry
    obtain ⟨v, s, hs, hasked, hentry⟩ := hf.query entry hentry
    refine ⟨v, s, hsites v s hs, (isAsked_congr hdensities).mpr hasked, ?_⟩
    rw [hbodies v s hs]
    exact hentry
  nodup := by
    show g.queries.Nodup
    rw [hqueries]
    exact hf.nodup

theorem askDensity (hf : f.Accounted) (hs : f.IsSite v s) : (f.askDensity v s).Accounted where
  asked u d hd := by
    rcases isAsked_askDensity.mp hd with ⟨rfl, rfl⟩ | hd
    · exact ⟨s, hs, rfl, mem_addEntry.mpr (.inl rfl)⟩
    · obtain ⟨t, ht, hd, hentry⟩ := hf.asked u d hd
      exact ⟨t, ht, hd, mem_addEntry.mpr (.inr hentry)⟩
  query entry hentry := by
    rcases mem_addEntry.mp hentry with rfl | hentry
    · exact ⟨v, s, hs, isAsked_askDensity.mpr (.inl ⟨rfl, rfl⟩), rfl⟩
    · obtain ⟨u, t, ht, hasked, hentry⟩ := hf.query entry hentry
      exact ⟨u, t, ht, isAsked_askDensity.mpr (.inr hasked), hentry⟩
  nodup := nodup_addEntry hf.nodup

theorem foldl_askDensity {sites : List NodeId} (hf : f.Accounted)
    (hs : ∀ s ∈ sites, f.IsSite v s) : (sites.foldl (Formula.askDensity v) f).Accounted := by
  induction sites generalizing f with
  | nil => exact hf
  | cons s sites ih =>
    exact ih (hf.askDensity (hs s List.mem_cons_self)) fun t ht => hs t (List.mem_cons_of_mem s ht)

/-- The density of a site is in one query only, and that one is under the body of the site. -/
theorem filter_queries (hf : f.Accounted) (hentry : (.density (realizationName v s), f.body s) ∈
    f.names .query) : (f.names .query).filter (·.1 = .density (realizationName v s)) =
      [(.density (realizationName v s), f.body s)] := by
  have hmem (entry : Term × Guard) :
      entry ∈ (f.names .query).filter (·.1 = .density (realizationName v s)) ↔
        entry ∈ [(Term.density (realizationName v s), f.body s)] := by
    rw [List.mem_filter, List.mem_singleton, decide_eq_true_iff]
    constructor
    · rintro ⟨hother, hdensity⟩
      obtain ⟨u, t, -, -, rfl⟩ := hf.query entry hother
      obtain ⟨-, rfl⟩ := realizationName_inj (Term.density.inj hdensity)
      exact congrArg (·, f.body t) hdensity
    · rintro rfl
      exact ⟨hentry, rfl⟩
  exact List.perm_singleton.mp ((List.perm_ext_iff_of_nodup
    (hf.nodup.filter _) (List.nodup_singleton _)).mpr hmem)

end Accounted

end Formula

namespace Builtin

variable {scope : Scope}

theorem run_densityResult (v : Term) (s : NodeId) (f : Formula) :
    (densityResult v s).run f = some (.ok ([v], f.body s), f.askDensity v s) := rfl

theorem run_mapM_densityResult (v : Term) (sites : List NodeId) (f : Formula) :
    (sites.mapM (densityResult v)).run f =
      some (.ok (sites.map fun s => ([v], f.body s)), sites.foldl (Formula.askDensity v) f) := by
  induction sites generalizing f with
  | nil => rfl
  | cons s sites ih =>
    rw [List.mapM_cons, run_bind_ok (run_densityResult v s f), run_bind_ok (ih (f.askDensity v s))]
    rfl

theorem run_densityResults (v : Term) (f : Formula) :
    (densityResults scope v).run f =
      match f.sites? v with
      | none => some (.error (.notARandomVariable v), f)
      | some sites =>
        some (.ok (sites.map fun s => ([v], f.body s)), sites.foldl (Formula.askDensity v) f) := by
  unfold densityResults
  rw [run_get_bind]
  cases f.sites? v with
  | none => rfl
  | some sites => exact run_mapM_densityResult v sites f

end Builtin

/-- Whether an edit leaves the sites and what is asked and named as a query alone. -/
def Edit.SparesQueries : Edit → Prop
  | .site .. | .name _ _ .query | .density .. => False
  | _ => True

namespace Edit

variable {e : Edit}

theorem SparesQueries.keepsSites (he : e.SparesQueries) : e.KeepsSites := by
  cases e with
  | site => exact he
  | _ => trivial

theorem ByEvaluation.sparesQueries (he : e.ByEvaluation) : e.SparesQueries := by
  cases e with
  | conjunction | descriptor => trivial
  | _ => exact he.elim

theorem ByCondition.sparesQueries {functor : String} (he : e.ByCondition functor) :
    e.SparesQueries := by
  cases e with
  | atom => trivial
  | _ => exact ByEvaluation.sparesQueries he

theorem ByComparison.sparesQueries {k : Comparison} {keep : Bool} (he : e.ByComparison k keep) :
    e.SparesQueries := by
  obtain he | ⟨-, x, y, -, rfl⟩ := he
  · exact he.sparesQueries
  · trivial

theorem ByAs.sparesQueries (he : e.ByAs v) : e.SparesQueries := by
  cases e with
  | descriptor => trivial
  | _ => exact he.elim

theorem ByFree.sparesQueries {vs : List Term} (he : e.ByFree vs) : e.SparesQueries := by
  cases e with
  | free => trivial
  | _ => exact he.elim

end Edit

namespace Formula

theorem queries_addAtom (f : Formula) (t : Term) (p : Option Term) (source : Source) :
    (f.addAtom t p source).2.queries = f.queries ∧
      (f.addAtom t p source).2.densities = f.densities :=
  have hrest := f.withoutNodes_addAtom t p source
  ⟨(congrArg Formula.queries hrest :), (congrArg Formula.densities hrest :)⟩

theorem queries_apply {e : Edit} (he : e.SparesQueries) (f : Formula) :
    (e.apply f).queries = f.queries ∧ (e.apply f).densities = f.densities := by
  cases e with
  | atom t p source => exact f.queries_addAtom t p source
  | conjunction guards =>
    have hrest := withoutNodes_conjoinAll guards f
    exact ⟨(congrArg Formula.queries hrest :), (congrArg Formula.densities hrest :)⟩
  | name t x l =>
    cases l with
    | query => exact he.elim
    | evidence => exact ⟨rfl, rfl⟩
  | site | density => exact he.elim
  | descriptor | free => exact ⟨rfl, rfl⟩

namespace Accounted

theorem trail {P : Edit → Prop} (hf : f.Accounted) (hfg : f.Trail P g)
    (hP : ∀ e, P e → e.SparesQueries) : g.Accounted := by
  induction hfg with
  | refl => exact hf
  | step _ hp _ ih =>
    have hspares := hP _ hp
    obtain ⟨hsites, hbodies⟩ := sites_apply hspares.keepsSites _
    obtain ⟨hqueries, hdensities⟩ := queries_apply hspares _
    refine ih.of_contained (fun _ _ hs => (isSite_congr hsites).mpr hs) (fun _ s _ => ?_)
      hqueries hdensities
    rw [body, hbodies, body]

theorem densityResults {scope : Scope} {r : Except Error Results} (hf : f.Accounted)
    (hrun : (Builtin.densityResults scope v).run f = some (r, g)) : g.Accounted := by
  rw [Builtin.run_densityResults] at hrun
  cases hsites : f.sites? v with
  | none =>
    rw [hsites] at hrun
    cases hrun
    exact hf
  | some sites =>
    rw [hsites] at hrun
    cases hrun
    exact hf.foldl_askDensity fun s hs => ⟨sites, hsites, hs⟩

/-- A call keeps the agreement: that of `density` by what it adds, and any other since it adds
nothing to the records. -/
theorem call {c : Context} {fuel : Nat} {name : String} {args : List Term}
    {r : Except Error Answers} (hf : f.Accounted)
    (hrun : (BuiltinTable.standard.call (c.scope fuel) name args).run f = some (r, g)) :
    g.Accounted := by
  let Keeps (m : GroundingM Results) : Prop :=
    ∀ f r g, f.Accounted → m.run f = some (r, g) → g.Accounted
  have hspared {P : Edit → Prop} {m : GroundingM Results} (hm : Follows P m)
      (hP : ∀ e, P e → e.SparesQueries) : Keeps m :=
    fun f r g hf hrun => hf.trail (hm f r g hrun) hP
  rcases BuiltinTable.eq_or_exists_of_run_call hrun with rfl | ⟨b, hb, r', hrule⟩
  · exact hf
  refine BuiltinTable.run_standard (C := Keeps) ?_ ?_ ?_ ?_ ?_ ?_ ?_ ?_ hb args f r' g hf hrule
  · exact fun e => hspared (.throw e) fun _ he => Edit.ByEvaluation.sparesQueries he
  · exact fun k t u => hspared (Builtin.comparison_follows k t u) fun _ he => he.sparesQueries
  · exact fun t u => hspared (Builtin.isResults_follows t u) fun _ he => he.sparesQueries
  · exact fun t f r g hf hrun => hf.densityResults hrun
  · exact fun t => hspared (Builtin.freeResults_follows t) fun _ he => he.sparesQueries
  · exact fun t => hspared (Builtin.freeListResults_follows t) fun _ he => he.sparesQueries
  · exact fun t u => hspared (Builtin.asResults_follows t u) fun _ he => he.sparesQueries
  · exact fun t u => hspared (Builtin.observationResults_follows t u) fun _ he => he.sparesQueries

end Accounted

end Formula

/-- An operation that neither asks for a density nor names a query, unless it is a call. -/
def Operation.AsksByCalls : Operation → Prop
  | .density .. | .name _ _ .query => False
  | _ => True

/-- An operation keeps the agreement, in a formula whose sites have kept their bodies. -/
theorem Formula.Accounted.run {op : Operation} {r : Except Error Outcome} (hf : f.Accounted)
    (hembodied : f.Embodied) (hop : op.AsksByCalls) (hwords : op.HasWords)
    (hrun : op.run.run f = some (r, g)) : g.Accounted := by
  have hspared (hedits : ∀ e, op.Edits e → e.SparesQueries) : g.Accounted :=
    hf.trail (op.follows_edits _ _ _ hrun) hedits
  cases op with
  | site v p body =>
    cases hrun
    obtain ⟨hqueries, hdensities⟩ := f.queries_addAtom (siteIdentifier v p body) p .realization
    exact hf.of_contained (fun _ _ hs => (f.extends_addSite v p body).isSite hs)
      (fun _ _ hs => hembodied.body_addSite_of_isSite v p hwords hs) hqueries hdensities
  | call c fuel name args =>
    rcases run_bind_cases hrun with ⟨e, hcall, -⟩ | ⟨answers, f', hcall, hend⟩
    · exact hf.call hcall
    · cases hend
      exact hf.call hcall
  | name t x l =>
    cases l with
    | query => exact hop.elim
    | evidence =>
      refine hspared fun e he => ?_
      cases he
      trivial
  | density => exact hop.elim
  | atom | conjoin | free =>
    refine hspared fun e he => ?_
    cases he
    trivial
  | descriptor => exact hspared fun _ he => Edit.ByAs.sparesQueries he
  | realization | realize | evaluate | apply =>
    exact hspared fun _ he => Edit.ByEvaluation.sparesQueries he

/-- A formula that comes about with no query and no density but those of calls. -/
inductive Formula.AsksByCalls : Formula → Prop
  | start : AsksByCalls .empty
  | step {f g : Formula} (op : Operation) {r : Except Error Outcome} (hf : AsksByCalls f)
      (hop : op.AsksByCalls) (hwords : op.HasWords) (hrun : op.run.run f = some (r, g)) :
      AsksByCalls g

theorem Formula.AsksByCalls.accounted (hf : f.AsksByCalls) : f.Accounted ∧ f.Embodied := by
  induction hf with
  | start => exact ⟨.empty, .empty⟩
  | step op _ hop hwords hrun ih =>
    exact ⟨ih.1.run ih.2 hop hwords hrun, (ih.2.run hwords hrun).1⟩

/-- A call completes exactly for a callable variable with sites; it answers under the body of each
site and asks for the density there. -/
theorem run_density_eq_completed_iff {c : Context} {fuel : Nat} {results : Results} :
    (BuiltinTable.standard.call (c.scope fuel) "density" [v]).run f =
        some (.ok (.completed results), g) ↔
      v.isCallable ∧ ∃ sites, f.sites? v = some sites ∧
        results = sites.map (fun s => ([v], f.body s)) ∧ g = sites.foldl (Formula.askDensity v) f := by
  have hfind : BuiltinTable.standard.find? "density" [v].length = some Builtin.densityBuiltin := rfl
  have hmode : Mode.check "density" Builtin.densityBuiltin.mode [v] =
      if v.isCallable then .ok () else .error (.mode "density" 1 .callable v) :=
    check_letter "density" .callable v
  have hrule : (Builtin.densityBuiltin.run (c.scope fuel) [v]).run f =
      (Builtin.densityResults (c.scope fuel) v).run f := rfl
  rw [Builtin.run_densityResults] at hrule
  constructor
  · intro hrun
    obtain ⟨hcheck, hresults⟩ := BuiltinTable.run_of_completed hfind hrun
    rw [hmode] at hcheck
    rw [hrule] at hresults
    split at hcheck
    · next hv =>
      cases hsites : f.sites? v with
      | none => rw [hsites] at hresults; cases hresults
      | some sites => rw [hsites] at hresults; cases hresults; exact ⟨hv, sites, rfl, rfl, rfl⟩
    · cases hcheck
  · rintro ⟨hv, sites, hsites, rfl, rfl⟩
    rw [BuiltinTable.run_call hfind, hmode, if_pos hv, hrule, hsites]
    rfl

/-- Every density that is asked of a variable is that of exactly one of its sites and stands in
exactly one query, under the body of this site; every query is one of these. A call of `density`
completes for a callable variable with sites, answers once for each site under its body, and leaves
the density of each site asked. -/
theorem densities_accounted (hf : f.AsksByCalls) :
    (∀ v d, f.IsAsked v d → ∃ s, (f.IsSite v s ∧ d = .density (realizationName v s)) ∧
      (∀ t, f.IsSite v t ∧ d = .density (realizationName v t) → t = s) ∧
      (f.names .query).filter (·.1 = d) = [(d, f.body s)]) ∧
    (∀ entry ∈ f.names .query, ∃ v s, f.IsSite v s ∧
      f.IsAsked v (.density (realizationName v s)) ∧
      entry = (.density (realizationName v s), f.body s)) ∧
    ∀ (c : Context) (fuel : Nat) (v : Term),
      (v.isCallable ∧ f.isRandomVariable v ↔ ∃ results g,
        (BuiltinTable.standard.call (c.scope fuel) "density" [v]).run f =
          some (.ok (.completed results), g)) ∧
      ∀ results g, (BuiltinTable.standard.call (c.scope fuel) "density" [v]).run f =
          some (.ok (.completed results), g) →
        ∃ sites, g.sites? v = some sites ∧ results = sites.map (fun s => ([v], g.body s)) ∧
          ∀ s ∈ sites, g.IsAsked v (.density (realizationName v s)) := by
  have haccounted := hf.accounted.1
  refine ⟨fun v d hd => ?_, haccounted.query, fun c fuel v => ⟨?_, fun results g hrun => ?_⟩⟩
  · obtain ⟨s, hs, rfl, hentry⟩ := haccounted.asked v d hd
    refine ⟨s, ⟨hs, rfl⟩, fun t ht => ?_, haccounted.filter_queries hentry⟩
    exact (realizationName_inj (Term.density.inj ht.2)).2.symm
  · rw [Formula.isRandomVariable, Option.isSome_iff_exists]
    constructor
    · rintro ⟨hv, sites, hsites⟩
      exact ⟨_, _, run_density_eq_completed_iff.mpr ⟨hv, sites, hsites, rfl, rfl⟩⟩
    · rintro ⟨results, g, hrun⟩
      obtain ⟨hv, sites, hsites, -, -⟩ := run_density_eq_completed_iff.mp hrun
      exact ⟨hv, sites, hsites⟩
  · obtain ⟨-, sites, hsites, rfl, rfl⟩ := run_density_eq_completed_iff.mp hrun
    obtain ⟨hsame, hbodies⟩ := Formula.sites_foldl_askDensity v sites f
    refine ⟨sites, ?_, ?_, fun s hs => Formula.isAsked_foldl_askDensity.mpr (.inl ⟨rfl, s, hs, rfl⟩)⟩
    · rw [Formula.sites?, hsame]
      exact hsites
    · simp only [Formula.body, hbodies]

theorem Formula.rainy_asksByCalls : rainy.AsksByCalls := by
  have hrain : AsksByCalls (empty.addAtom (.atom "rain") none .fact).2 :=
    .step (.atom (.atom "rain") none .fact) .start trivial trivial rfl
  have hpoint := AsksByCalls.step
    (.site (.atom "x") (some (.compound pointMassFunctor [.constant (.int 2)])) (.node ⟨0⟩))
    hrain trivial (show 0 + 1 < 2 ^ 32 by decide) rfl
  exact .step (.site (.atom "x") (some (.compound "normal"
    [.constant (.int 0), .constant (.int 1)])) .always) hpoint trivial trivial rfl

/-- The densities of both sites are asked, each under the body of its site. -/
theorem densities_accounted_rainy : ∃ g : Formula,
    (BuiltinTable.standard.call (standardContext.scope 1) "density" [.atom "x"]).run Formula.rainy =
      some (.ok (.completed [([.atom "x"], .node ⟨0⟩), ([.atom "x"], .always)]), g) ∧
    g.IsAsked (.atom "x") (.density (realizationName (.atom "x") ⟨1⟩)) ∧
    (g.names .query).filter (·.1 = .density (realizationName (.atom "x") ⟨1⟩)) =
      [(.density (realizationName (.atom "x") ⟨1⟩), .node ⟨0⟩)] := by
  obtain ⟨-, -, hcalls⟩ := densities_accounted Formula.rainy_asksByCalls
  let g := [⟨1⟩, ⟨2⟩].foldl (Formula.askDensity (.atom "x")) Formula.rainy
  have hrun : (BuiltinTable.standard.call (standardContext.scope 1) "density" [.atom "x"]).run
      Formula.rainy = some (.ok (.completed [([.atom "x"], .node ⟨0⟩), ([.atom "x"], .always)]), g) :=
    run_density_eq_completed_iff.mpr ⟨rfl, [⟨1⟩, ⟨2⟩], rfl, rfl, rfl⟩
  obtain ⟨sites, hsites, -, hasked⟩ := (hcalls standardContext 1 (.atom "x")).2 _ g hrun
  have hmem : ⟨1⟩ ∈ sites := by
    have hsame : some [⟨1⟩, ⟨2⟩] = some sites := hsites
    cases hsame
    exact List.mem_cons_self
  have hg : g.AsksByCalls := .step (r := .ok (.answers _))
    (.call standardContext 1 "density" [.atom "x"]) Formula.rainy_asksByCalls trivial trivial
    (by rw [Operation.run, run_bind_ok hrun]; rfl)
  obtain ⟨s, ⟨-, hs⟩, -, hfilter⟩ := (densities_accounted hg).1 _ _ (hasked ⟨1⟩ hmem)
  obtain ⟨-, rfl⟩ := realizationName_inj (Term.density.inj hs)
  exact ⟨g, hrun, hasked ⟨1⟩ hmem, hfilter⟩

end Grounding
