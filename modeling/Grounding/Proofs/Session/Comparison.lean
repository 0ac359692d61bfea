import Grounding.Proofs.Session.Call
import Grounding.Proofs.Session.Operation

/-!
# Calls of comparisons

A comparison of ground terms whose sides have values, within the limit on their number, answers once
for every pair of a left and a right value, with the left one outermost. Each answer has the guard
that its pair decides.
-/

namespace Grounding

open GroundingM

variable {f f₁ f₂ g : Formula} {c : Context} {fuel : Nat} {k : Comparison} {left right : Term}
  {ls rs : List GuardedValue}

theorem find?_comparison (k : Comparison) :
    BuiltinTable.standard.find? k.name 2 = some k.builtin := by
  cases k <;> rfl

theorem check_comparison (name : String) (hleft : left.isGround) (hright : right.isGround) :
    Mode.check name "gg" [left, right] = .ok () := by
  have hg : Mode.ofLetter? 'g' = some .ground := rfl
  show Mode.checkFrom name "gg" 1 ['g', 'g'] [left, right] = .ok ()
  simp only [Mode.checkFrom, hg, Mode.accepts, hleft, hright, if_true]

theorem checkProductSize_pair {limit : Nat} (h : ls.length * rs.length ≤ limit) :
    ∃ size, checkProductSize [ls, rs] limit = .ok size := by
  have hsize : productSize [ls, rs] ≤ ls.length * rs.length := by
    simp only [productSize, List.foldl_cons, List.foldl_nil, Nat.one_mul]
    exact Nat.le_trans (Nat.min_le_left _ _) (Nat.mul_le_mul_right _ (Nat.min_le_left _ _))
  exact ⟨_, if_neg (Nat.not_lt.mpr (Nat.le_trans hsize h))⟩

/-- The results of a comparison are those of its pairs, decided after both sides are evaluated. -/
theorem run_results (hl : (evaluate c fuel left).run f = some (.ok ls, f₁))
    (hr : (evaluate c fuel right).run f₁ = some (.ok rs, f₂))
    (hsize : ls.length * rs.length ≤ c.settings.maxCombinations) :
    (k.results (c.scope fuel) left right).run f =
      ((ls ×ˢ rs).mapM fun (a, b) =>
        k.pairResult c.settings [left, right] a b).run f₂ := by
  obtain ⟨size, hcheck⟩ := checkProductSize_pair hsize
  have hcheck' : (ofExcept (checkProductSize [ls, rs] c.settings.maxCombinations) :
      GroundingM Nat).run f₂ = some (.ok size, f₂) := by rw [run_ofExcept, hcheck]
  unfold Comparison.results
  rw [show (c.scope fuel).evaluate = evaluate c fuel from rfl, run_bind_ok hl, run_bind_ok hr]
  exact run_bind_ok hcheck' _

theorem run_call_comparison {results : Results} (hleft : left.isGround) (hright : right.isGround)
    (h : (k.results (c.scope fuel) left right).run f = some (.ok results, g)) :
    (BuiltinTable.standard.call (c.scope fuel) k.name [left, right]).run f =
      some (.ok (.completed results), g) := by
  have hrun : (k.builtin.run (c.scope fuel) [left, right]).run f = some (.ok results, g) := h
  rw [BuiltinTable.run_call (find?_comparison k), show k.builtin.mode = "gg" from rfl,
    check_comparison k.name hleft hright, hrun]
  rfl

/-- A comparison answers once for each pair of values, in the order of the pairs. The guard of an
answer holds in a world where both guards of the pair hold and the comparison does. The atom that a
pair depends on is registered under its identifier, where every later operation finds it again. -/
theorem comparison_answers (hf : f.Reachable) (hleft : left.isGround) (hright : right.isGround)
    (hl : (evaluate c fuel left).run f = some (.ok ls, f₁))
    (hr : (evaluate c fuel right).run f₁ = some (.ok rs, f₂))
    (hsize : ls.length * rs.length ≤ c.settings.maxCombinations) :
    ∃ results g, (BuiltinTable.standard.call (c.scope fuel) k.name [left, right]).run f =
        some (.ok (.completed results), g) ∧
      results.length = ls.length * rs.length ∧
      List.Forall₂ (fun (p : GuardedValue × GuardedValue) result =>
        (∀ w, g.holds w result.2 = (g.holds w p.1.guard && g.holds w p.2.guard &&
          k.holdsIn c.settings.keepBuiltins g w p.1.value p.2.value)) ∧
        ∀ t, k.identifier? c.settings.keepBuiltins p.1.value p.2.value = some t →
          ∃ id, ∀ h, g.Reaches h → h.findAtom? t = some id) (ls ×ˢ rs) results := by
  obtain ⟨hc₁, hmeansl⟩ := evaluate_means hf.wellFormed fuel left _ _ hl
  have hf₁ := hc₁.wellFormed hf.wellFormed
  obtain ⟨hc₂, hmeansr⟩ := evaluate_means hf₁ fuel right _ _ hr
  have hf₂ := hc₂.wellFormed hf₁
  obtain ⟨results, g, hrun⟩ := Total.mapM (fun p : GuardedValue × GuardedValue =>
    pairResult_total k c.settings [left, right] p.1 p.2) (ls ×ˢ rs) f₂
  obtain ⟨hcg, hdecides⟩ := pairResults_performs hf₂
    (fun v hv => hc₂.grows.knows ((hmeansl ls rfl).known v hv)) (hmeansr rs rfl).known _ _ hrun
  have hdecides := hdecides results rfl
  refine ⟨results, g, run_call_comparison hleft hright ((run_results hl hr hsize).trans hrun), ?_, ?_⟩
  · rw [← hdecides.length_eq, List.length_product]
  · refine hdecides.imp fun p result hp => ⟨hp.holds, fun t ht => ?_⟩
    obtain ⟨id, hid⟩ := Option.isSome_iff_exists.mp (hp.registered t ht)
    exact ⟨id, fun h hgh => (hgh.chain (hcg.wellFormed hf₂)).grows.atoms t id hid⟩

/-- Two sites compared with one number: one answer is decided, the other left to a condition. -/
theorem comparison_answers_rainy : ∃ results g,
    (BuiltinTable.standard.call (standardContext.scope 1) Comparison.less.name
        [.atom "x", .constant (.int 3)]).run Formula.rainy = some (.ok (.completed results), g) ∧
      results.length = 2 := by
  obtain ⟨f₁, hl⟩ : ∃ f₁, (evaluate standardContext 1 (.atom "x")).run Formula.rainy = some
      (.ok [⟨.number (.int 2), .node ⟨0⟩⟩, ⟨.symbolic (.coordinate "x#3" 0), .always⟩], f₁) :=
    ⟨_, rfl⟩
  have hr : (evaluate standardContext 1 (.constant (.int 3))).run f₁ =
      some (.ok [.certain (.number (.int 3))], f₁) := rfl
  obtain ⟨results, g, hrun, hlength, -⟩ :=
    comparison_answers (k := .less) Formula.rainy_reachable rfl rfl hl hr (by decide)
  exact ⟨results, g, hrun, hlength⟩

end Grounding
