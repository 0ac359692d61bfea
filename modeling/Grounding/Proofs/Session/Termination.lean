import Grounding.Session
import Grounding.Proofs.Evaluation.Fuel
import Grounding.Proofs.Evaluation.Stack
import Grounding.Proofs.Evaluation.Termination
import Grounding.Proofs.Session.Operation
import Grounding.Proofs.Term.Part

/-!
# Evaluations come to an end

An evaluation that reaches finitely many terms comes to an end, and to the same with any fuel from
some depth on. Under a resolver table only parts of the expression and of the alternatives in the
table are reached, and the fuel of a session is enough.
-/

namespace Grounding

open GroundingM

variable {c : Context} {f : Formula} {t s u a : Term} {table : ResolverTable} {resolving : List Term}

namespace ResolverTable

/-- All alternatives that the table lists. -/
def alternatives (table : ResolverTable) : List Term :=
  table.rows.flatMap fun row => row.2.toOption.getD []

theorem resolver_cases {as : List Term} (h : table.resolver t = .ok as) :
    as = [t] ∨ (t, .ok as) ∈ table.rows := by
  unfold resolver at h
  split at h
  · next s as' hfind =>
    obtain rfl : s = t := by simpa using List.find?_some hfind
    rw [h] at hfind
    exact .inr (List.mem_of_find?_eq_some hfind)
  · cases h
    exact .inl rfl

/-- Other terms than the one that is resolved stand in its row. -/
theorem row_of_resolves (hc : c.resolve = table.resolver) (h : c.Resolves f t a) :
    ∃ as, (t, .ok as) ∈ table.rows ∧ a ∈ as := by
  obtain ⟨-, -, as, has, ha, -, hne⟩ := h
  rw [hc] at has
  rcases resolver_cases has with rfl | hrow
  · exact absurd (List.mem_singleton.mp ha) hne
  · exact ⟨as, hrow, ha⟩

/-- Evaluation meets parts of the expression and of the alternatives in the table only. -/
theorem finite_reached (hc : c.resolve = table.resolver) (t : Term) :
    {s | c.Reached f t s}.Finite := by
  refine (Set.Finite.biUnion (List.finite_toSet (t :: table.alternatives)) fun u _ =>
    u.finite_parts).subset fun s hs => ?_
  have hpart : ∃ u ∈ t :: table.alternatives, u.Part s := by
    induction hs with
    | refl => exact ⟨t, List.mem_cons_self, .refl⟩
    | tail _ hleads ih =>
      cases hleads with
      | argument _ ha =>
        obtain ⟨u, hu, hpart⟩ := ih
        exact ⟨u, hu, hpart.tail ha⟩
      | @alternative hresolves =>
        obtain ⟨as, hrow, ha⟩ := row_of_resolves hc hresolves
        exact ⟨_, List.mem_cons_of_mem _ (List.mem_flatMap.mpr ⟨_, hrow, ha⟩), .refl⟩
  obtain ⟨u, hu, hpart⟩ := hpart
  exact Set.mem_biUnion hu hpart

/-- The rows for other terms than these. -/
def without (table : ResolverTable) (ts : List Term) : ResolverTable :=
  ⟨table.rows.filter (·.1 ∉ ts)⟩

theorem height_without_cons (row : Term × Except Error (List Term))
    (rows : List (Term × Except Error (List Term))) (ts : List Term) :
    (without ⟨row :: rows⟩ ts).height =
      (if row.1 ∈ ts then 0 else rowHeight row) + (without ⟨rows⟩ ts).height := by
  by_cases hrow : row.1 ∈ ts <;> simp [without, height, hrow]

theorem ite_mem_cons_le (s t : Term) (ts : List Term) (n : Nat) :
    (if s ∈ t :: ts then 0 else n) ≤ if s ∈ ts then 0 else n := by
  by_cases hs : s ∈ ts
  · rw [if_pos (List.mem_cons_of_mem t hs), if_pos hs]
  · rw [if_neg hs]
    split <;> omega

theorem height_without_cons_le (table : ResolverTable) (t : Term) (ts : List Term) :
    (table.without (t :: ts)).height ≤ (table.without ts).height := by
  obtain ⟨rows⟩ := table
  induction rows with
  | nil => exact Nat.le_refl 0
  | cons row rows ih =>
    rw [height_without_cons, height_without_cons]
    exact Nat.add_le_add (ite_mem_cons_le row.1 t ts _) ih

/-- Resolving a term pays for its alternatives with its row. -/
theorem heights_add_height_without_le {as : List Term} (hrow : (t, .ok as) ∈ table.rows)
    (hnew : t ∉ resolving) : Term.heights as + (table.without (t :: resolving)).height ≤
      (table.without resolving).height := by
  obtain ⟨rows⟩ := table
  induction rows with
  | nil => cases hrow
  | cons row rows ih =>
    rw [height_without_cons, height_without_cons]
    rcases List.mem_cons.mp hrow with rfl | hrow
    · have hle := height_without_cons_le ⟨rows⟩ t resolving
      rw [if_pos List.mem_cons_self, if_neg hnew]
      simp only [rowHeight]
      omega
    · have hle := ih hrow
      have hrows := ite_mem_cons_le row.1 t resolving (rowHeight row)
      omega

theorem without_nil (table : ResolverTable) : table.without [] = table := by
  simp [without]

/-- The heights of the rows that are left are a budget. -/
theorem budgets (hc : c.resolve = table.resolver) (f : Formula) (t : Term) :
    c.Budgets f t fun resolving => (table.without resolving).height := by
  intro resolving s a _ hnew ha
  obtain ⟨as, hrow, ha⟩ := row_of_resolves hc ha
  have hheight := Term.height_le_heights ha
  have hleft := heights_add_height_without_le hrow hnew
  dsimp only
  omega

end ResolverTable

/-- Within a budget there is one answer, which every evaluation with enough fuel comes to. -/
theorem evaluate_of_budget {left : List Term → Nat} (hleft : c.Budgets f t left) :
    ∃ r g, ∀ fuel, t.height + left [] ≤ fuel → (evaluate c fuel t).run f = some (r, g) := by
  have hends := evaluateWith_finishes hleft .refl (Nat.le_refl (t.height + left []))
  obtain ⟨⟨r, g⟩, hrun⟩ := Option.isSome_iff_exists.mp ((hends f rfl).1 trivial)
  exact ⟨r, g, fun fuel hfuel => evaluateWith_refines hfuel [] t f _ hrun⟩

/-- Under a table the depth is that of the expression and the table together. -/
theorem evaluate_of_table (hc : c.resolve = table.resolver) (f : Formula) (t : Term) :
    ∃ r g, ∀ fuel, table.fuelFor [t] ≤ fuel → (evaluate c fuel t).run f = some (r, g) := by
  obtain ⟨r, g, hends⟩ := evaluate_of_budget (table.budgets hc f t)
  refine ⟨r, g, fun fuel hfuel => hends fuel ?_⟩
  rw [table.without_nil]
  simpa [ResolverTable.fuelFor, Term.heights] using hfuel

/-- The fuel that a session gives an evaluation is enough. -/
theorem Session.isSome_evaluate (session : Session) (table : ResolverTable) (t : Term) :
    (session.evaluate table t).isSome := by
  obtain ⟨r, g, hends⟩ := evaluate_of_table (c := session.context table) rfl session.formula t
  unfold Session.evaluate Session.run
  rw [hends _ (Nat.le_refl _)]
  rfl

/-- An evaluation that reaches finitely many terms comes to one answer with any fuel from some depth
on. Under a resolver table that is so for every expression, and the depth is that of the expression
and the table together. A stack of the terms being resolved is left as it was found, whatever comes
of the evaluation. A cycle is only reported of a term that is reached, and reached again through one
of its alternatives, unless the host reports one of its own. -/
theorem evaluation_ends (f : Formula) (t : Term) :
    (∀ c : Context, {s | c.Reached f t s}.Finite →
      ∃ r g depth, ∀ fuel, depth ≤ fuel → (evaluate c fuel t).run f = some (r, g)) ∧
    (∀ (c : Context) (table : ResolverTable), c.resolve = table.resolver →
      {s | c.Reached f t s}.Finite ∧
      ∃ r g, ∀ fuel, table.fuelFor [t] ≤ fuel → (evaluate c fuel t).run f = some (r, g)) ∧
    (∀ c fuel stack, ((StackM.evaluate c fuel t).run.run stack).run f =
      ((evaluateWith c fuel stack t).run f).map fun (r, g) => ((r, stack), g)) ∧
    ∀ c fuel u g, (evaluate c fuel t).run f =
        some (.error (.incorrectArgument (.cyclicRealization u)), g) →
      c.Cycles f t u ∨ c.HostCycles f t u := by
  refine ⟨fun c hfinite => ?_, fun c table hc => ⟨table.finite_reached hc t,
    evaluate_of_table hc f t⟩, fun c fuel stack => StackM.evaluate_balanced fuel stack t f,
    fun c fuel u g hrun => ?_⟩
  · have hterms : ∀ s, c.Reached f t s → s ∈ hfinite.toFinset :=
      fun s hs => hfinite.mem_toFinset.mpr hs
    obtain ⟨r, g, hends⟩ := evaluate_of_budget (Context.budgets_of_finite hterms)
    exact ⟨r, g, _, hends⟩
  · have hreports : Finishes f False (fun u => c.Cycles f t u ∨ c.HostCycles f t u)
        (evaluate c fuel t) := evaluateWith_cycles .refl (List.forall_mem_nil _)
    exact ((hreports f rfl).2 _ _ hrun).2 _ rfl u rfl

/-- Two terms that offer each other, and a third that offers the sum of a fourth with itself. -/
def seesaw : ResolverTable :=
  ⟨[(.atom "a", .ok [.atom "b"]), (.atom "b", .ok [.atom "a"]),
    (.atom "c", .ok [.compound "+" [.atom "d", .atom "d"]]),
    (.atom "d", .ok [.constant (.int 2)])]⟩

def seesawContext : Context := ⟨.standard, seesaw.resolver, {}⟩

/-- The evaluation of either term comes to an end, one with the report of a cycle. The other
resolves one term twice, one time after the other, and has a value. -/
theorem evaluation_ends_seesaw :
    (∃ r g depth, ∀ fuel, depth ≤ fuel →
      (evaluate seesawContext fuel (.atom "c")).run Formula.rainy = some (r, g)) ∧
    (evaluate seesawContext 4 (.atom "c")).run Formula.rainy =
      some (.ok [.certain (.number (.int 4))], Formula.rainy) ∧
    (∃ r g, ∀ fuel, 6 ≤ fuel →
      (evaluate seesawContext fuel (.atom "a")).run Formula.rainy = some (r, g)) ∧
    (seesawContext.Cycles Formula.rainy (.atom "a") (.atom "a") ∨
      seesawContext.HostCycles Formula.rainy (.atom "a") (.atom "a")) := by
  obtain ⟨-, htable, -, hcycle⟩ := evaluation_ends Formula.rainy (.atom "a")
  obtain ⟨hfinite, -, -⟩ := htable seesawContext seesaw rfl
  obtain ⟨hends, htable', -, -⟩ := evaluation_ends Formula.rainy (.atom "c")
  obtain ⟨-, r, g, ha⟩ := htable seesawContext seesaw rfl
  exact ⟨hends seesawContext (htable' seesawContext seesaw rfl).1, rfl,
    ⟨r, g, fun fuel hfuel => ha fuel (Nat.le_trans (by decide) hfuel)⟩,
    hcycle seesawContext 3 (.atom "a") Formula.rainy rfl⟩

end Grounding
