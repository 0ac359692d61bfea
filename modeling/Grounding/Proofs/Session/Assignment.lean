import Grounding.Proofs.Session.Call
import Grounding.Proofs.Session.Everywhere
import Grounding.Proofs.Session.Operation

/-!
# Calls of `is`

A call of `is` answers with every defined value that the expression has in some world, under a guard
that holds there, as long as no tuple of values raises an error. The tuples range over all sites: a
tuple that holds in no world, or in other worlds only, counts like any other. If one raises an error
the call has no answers at all.
-/

namespace Grounding

open GroundingM

variable {f g : Formula} {c : Context} {fuel : Nat} {t x : Term}

theorem run_isResults {vs : List GuardedValue}
    (h : (evaluate c fuel t).run f = some (.ok vs, g)) :
    (Builtin.isBuiltin.run (c.scope fuel) [x, t]).run f =
      some (.ok (vs.filterMap fun v => v.value.term?.map fun u => ([u, t], v.guard)), g) :=
  run_bind_ok h _

theorem run_isResults_error {e : Error}
    (h : (evaluate c fuel t).run f = some (.error e, g)) :
    (Builtin.isBuiltin.run (c.scope fuel) [x, t]).run f = some (.error e, g) :=
  run_bind_error h _

/-- A call of `is` on a ground expression does what its rule does. -/
theorem run_call_is (hground : t.isGround) {r : Except Error Results}
    (h : (Builtin.isBuiltin.run (c.scope fuel) [x, t]).run f = some (r, g)) :
    (BuiltinTable.standard.call (c.scope fuel) "is" [x, t]).run f =
      some (Answers.ofRun r, g) := by
  have hfind : BuiltinTable.standard.find? "is" [x, t].length = some Builtin.isBuiltin := rfl
  rw [BuiltinTable.run_call hfind, show Builtin.isBuiltin.mode = "*g" from rfl, check_assignment,
    if_pos hground, h]
  rfl

/-- The guarded values that are present in a world are the values there, whatever depth they are
computed with. -/
theorem mem_valuesIn_iff (hf : f.WellFormed) {vs : List GuardedValue}
    (hrun : (evaluate c fuel t).run f = some (.ok vs, g)) {w : World} {depth : Nat}
    {values : List Value} (hvalues : valuesIn c f w depth t = some values) {value : Value} :
    value ∈ values ↔ ∃ v ∈ vs, v.value = value ∧ g.holds w v.guard := by
  obtain ⟨-, hmeans⟩ := evaluate_means hf fuel t _ _ hrun
  have hpresent : valuesIn c f w fuel t = some (g.present w vs) := (hmeans vs rfl).present w
  have hdeep := plainValues_stable (Nat.le_max_left fuel depth) hpresent
  rw [plainValues_stable (Nat.le_max_right fuel depth) hvalues] at hdeep
  obtain rfl := Option.some.inj hdeep
  rw [Formula.present, List.mem_map]
  constructor
  · rintro ⟨v, hv, rfl⟩
    obtain ⟨hv, hholds⟩ := List.mem_filter.mp hv
    exact ⟨v, hv, rfl, hholds⟩
  · rintro ⟨v, hv, rfl, hholds⟩
    exact ⟨v, List.mem_filter.mpr ⟨hv, hholds⟩, rfl⟩

theorem mem_isResults_iff {vs : List GuardedValue} {u : Term} {guard : Guard} :
    ([u, t], guard) ∈ (vs.filterMap fun v => v.value.term?.map fun u => ([u, t], v.guard)) ↔
      ∃ v ∈ vs, v.value.term? = some u ∧ v.guard = guard := by
  simp only [List.mem_filterMap, Option.map_eq_some_iff, Prod.mk.injEq, List.cons.injEq, and_true]
  constructor
  · rintro ⟨v, hv, _, hu, rfl, rfl⟩
    exact ⟨v, hv, hu, rfl⟩
  · rintro ⟨v, hv, hu, rfl⟩
    exact ⟨v, hv, u, hu, rfl, rfl⟩

/-- Evaluation gives an expression values in every world. -/
theorem valuesIn_of_run (hf : f.WellFormed) {vs : List GuardedValue}
    (hrun : (evaluate c fuel t).run f = some (.ok vs, g)) (w : World) :
    ∃ here, valuesIn c f w fuel t = some here ∧ here.Sublist (plain vs) := by
  obtain ⟨-, hmeans⟩ := evaluate_means hf fuel t _ _ hrun
  exact ⟨g.present w vs, (hmeans vs rfl).present w, List.filter_sublist.map _⟩

/-- On a ground expression over point masses, with no limit reached: if the evaluation over all
sites raises no error, the call answers. The expression then has values in every world, some of
those over all sites, and the answers whose guard holds there bind the defined ones among them. If
the evaluation over all sites raises an error, in whatever tuple, the call has no answers: it fails
with this error as the reason if the error is recoverable, and is aborted by it otherwise. -/
theorem is_answers (hf : f.WellFormed) (hresolve : c.resolve = Resolver.identity)
    (hground : t.isGround) (ht : f.OverPointMasses c.functions t) (hfuel : t.height ≤ fuel)
    (hlimit : ∀ e g, (BuiltinTable.standard.call (c.scope fuel) "is" [x, t]).run f =
      some (.error e, g) → ¬ e.IsExplosion) :
    (∀ values, f.valuesAnywhere c.functions t = .ok values → ∃ results g,
      (BuiltinTable.standard.call (c.scope fuel) "is" [x, t]).run f =
          some (.ok (.completed results), g) ∧
        ∀ w, (∃ here, valuesIn c f w fuel t = some here ∧ here.Sublist values) ∧
          ∀ depth here, valuesIn c f w depth t = some here →
            ∀ u, (∃ value ∈ here, value.term? = some u) ↔
              ∃ guard, ([u, t], guard) ∈ results ∧ g.holds w guard) ∧
    (∀ e, f.valuesAnywhere c.functions t = .error e → ∃ g,
      (BuiltinTable.standard.call (c.scope fuel) "is" [x, t]).run f =
        some (if e.isRecoverable then .ok (.failed e) else .error e, g)) := by
  obtain ⟨r, g, hrun, -, hagrees⟩ := evaluateWith_computes hresolve ht hfuel f .refl
  cases r with
  | ok vs =>
    have hvalues : f.valuesAnywhere c.functions t = .ok (plain vs) := hagrees
    refine ⟨fun values hok => ⟨_, g, run_call_is hground (run_isResults hrun), fun w => ⟨?_, ?_⟩⟩,
      fun e herror => ?_⟩
    · cases hvalues.symm.trans hok
      exact valuesIn_of_run hf hrun w
    · intro depth here hhere u
      constructor
      · rintro ⟨value, hvalue, hu⟩
        obtain ⟨v, hv, rfl, hholds⟩ := (mem_valuesIn_iff hf hrun hhere).mp hvalue
        exact ⟨v.guard, mem_isResults_iff.mpr ⟨v, hv, hu, rfl⟩, hholds⟩
      · rintro ⟨guard, hmem, hholds⟩
        obtain ⟨v, hv, hu, rfl⟩ := mem_isResults_iff.mp hmem
        exact ⟨v.value, (mem_valuesIn_iff hf hrun hhere).mpr ⟨v, hv, rfl, hholds⟩, hu⟩
    · cases hvalues.symm.trans herror
  | error e =>
    have hcall := run_call_is (x := x) hground (run_isResults_error hrun)
    have herror : f.valuesAnywhere c.functions t = .error e := by
      refine hagrees.resolve_left fun hexplosion => ?_
      obtain ⟨size, limit, rfl⟩ := hexplosion
      exact hlimit _ _ hcall ⟨size, limit, rfl⟩
    refine ⟨fun values hok => ?_, fun e' he' => ?_⟩
    · cases herror.symm.trans hok
    · cases herror.symm.trans he'
      exact ⟨g, hcall⟩

namespace Formula

/-- A variable that is zero if it rains, and two in any case. -/
def showers : Formula :=
  let (rain, f) := empty.addAtom (.atom "rain") none .fact
  let (_, f) := f.addSite (.atom "x") (some (.compound pointMassFunctor [.constant (.int 0)]))
    (.node rain)
  (f.addSite (.atom "x") (some (.compound pointMassFunctor [.constant (.int 2)])) .always).2

theorem showers_reachable : showers.Reachable := by
  have hrain : Reachable (empty.addAtom (.atom "rain") none .fact).2 :=
    .step (.atom (.atom "rain") none .fact) .refl trivial rfl
  have hzero := Reaches.step
    (.site (.atom "x") (some (.compound pointMassFunctor [.constant (.int 0)])) (.node ⟨0⟩))
    hrain (by decide) rfl
  exact .step (.site (.atom "x") (some (.compound pointMassFunctor [.constant (.int 2)])) .always)
    hzero trivial rfl

theorem sites?_showers : showers.sites? (.atom "x") = some [⟨1⟩, ⟨2⟩] := rfl

theorem showers_overPointMasses {t : Term} {function : ArithmeticFunction}
    (hcalled : standardContext.functions.calledBy? t = some function) {n : Number}
    (hargs : t.args = [.constant n, .atom "x"]) :
    showers.OverPointMasses standardContext.functions t := by
  refine .application hcalled fun a ha => ?_
  rw [hargs] at ha
  rcases List.mem_pair.mp ha with rfl | rfl
  · exact .leaf Bool.false_ne_true
  · refine .realization rfl rfl fun s hs => ?_
    obtain ⟨sites, hsites, hs⟩ := hs
    rw [sites?_showers] at hsites
    cases hsites
    rcases List.mem_pair.mp hs with rfl | rfl
    · exact ⟨_, .int 0, rfl, rfl⟩
    · exact ⟨_, .int 2, rfl, rfl⟩

end Formula

/-- With no error in any tuple, a dry world has an answer for its one value. The quotient has an
error in the tuple that holds when it rains, and the call fails with it. -/
theorem is_answers_showers : (∃ results g,
      (BuiltinTable.standard.call (standardContext.scope 2) "is"
          [.var "X", .compound "+" [.constant (.int 4), .atom "x"]]).run Formula.showers =
        some (.ok (.completed results), g) ∧
      ∃ guard, ([.constant (.int 6), .compound "+" [.constant (.int 4), .atom "x"]], guard) ∈
        results ∧ g.holds (fun _ => false) guard) ∧
    ∃ g, (BuiltinTable.standard.call (standardContext.scope 2) "is"
        [.var "X", .compound "//" [.constant (.int 4), .atom "x"]]).run Formula.showers =
      some (.ok (.failed (.arithmetic .divisionByZero)), g) := by
  let sum := Term.compound "+" [.constant (.int 4), .atom "x"]
  let quotient := Term.compound "//" [.constant (.int 4), .atom "x"]
  have hsum : Formula.showers.OverPointMasses standardContext.functions sum :=
    Formula.showers_overPointMasses rfl rfl
  have hquotient : Formula.showers.OverPointMasses standardContext.functions quotient :=
    Formula.showers_overPointMasses rfl rfl
  have hlimit (t : Term) (ht : t = sum ∨ t = quotient) : ∀ e g,
      (BuiltinTable.standard.call (standardContext.scope 2) "is" [.var "X", t]).run
        Formula.showers = some (.error e, g) → ¬ e.IsExplosion := by
    rcases ht with rfl | rfl <;> exact fun e g h => by cases h
  have hwellFormed := Formula.showers_reachable.wellFormed
  obtain ⟨hanswers, -⟩ := is_answers hwellFormed rfl (by decide) hsum (Nat.le_refl 2)
    (hlimit sum (.inl rfl))
  obtain ⟨-, hfails⟩ := is_answers hwellFormed rfl (by decide) hquotient (Nat.le_refl 2)
    (hlimit quotient (.inr rfl))
  obtain ⟨results, g, hcall, hvalues⟩ := hanswers _ rfl
  have hdry : valuesIn standardContext Formula.showers (fun _ => false) 2 sum =
      some [.number (.int 6)] := rfl
  have hanswer := ((hvalues _).2 2 _ hdry (.constant (.int 6))).mp ⟨_, List.mem_cons_self, rfl⟩
  exact ⟨⟨results, g, hcall, hanswer⟩, hfails _ rfl⟩

/-- The quotient is defined in a dry world, but the call fails because it is not when it rains. -/
theorem is_fails_showers :
    Formula.showers.Reachable ∧
    Formula.showers.OverPointMasses standardContext.functions
      (.compound "//" [.constant (.int 4), .atom "x"]) ∧
    valuesIn standardContext Formula.showers (fun _ => false) 2
      (.compound "//" [.constant (.int 4), .atom "x"]) = some [.number (.int 2)] ∧
    ∃ g, (BuiltinTable.standard.call (standardContext.scope 2) "is"
        [.var "X", .compound "//" [.constant (.int 4), .atom "x"]]).run Formula.showers =
      some (.ok (.failed (.arithmetic .divisionByZero)), g) :=
  ⟨Formula.showers_reachable, Formula.showers_overPointMasses rfl rfl, rfl, _, rfl⟩

end Grounding
