import Grounding.Proofs.Number.Value
import Grounding.Proofs.Session.Comparison

/-!
# Calls of comparisons with numbers

A comparison of two numbers answers once. Its answer passes exactly when the values of the numbers
are so related, except that an integer beyond `2 ^ 53` and a float count as equal when the float is
the one the integer is rounded to.
-/

namespace Grounding

open GroundingM

namespace Comparison

/-- The relation between two points of a line. -/
def Relates {α : Type} [LinearOrder α] : Comparison → α → α → Prop
  | .less, x, y => x < y
  | .lessEq, x, y => x ≤ y
  | .greater, x, y => x > y
  | .greaterEq, x, y => x ≥ y
  | .equal, x, y => x = y
  | .notEqual, x, y => x ≠ y

theorem admits_compare {α : Type} [LinearOrder α] (k : Comparison) (x y : α) :
    k.admits (some (compare x y)) = true ↔ k.Relates x y := by
  rcases lt_trichotomy x y with h | h | h
  · have hc : compare x y = .lt := compare_lt_iff_lt.mpr h
    cases k <;> simp [admits, Relates, hc, h, h.le, h.ne, h.not_gt, h.not_ge]
  · subst h
    cases k <;> simp [admits, Relates]
  · have hc : compare x y = .gt := compare_gt_iff_gt.mpr h
    cases k <;> simp [admits, Relates, hc, h, h.le, h.ne', h.not_gt, h.not_ge]

instance {α : Type} [LinearOrder α] (k : Comparison) (x y : α) : Decidable (k.Relates x y) :=
  decidable_of_iff _ (admits_compare k x y)

end Comparison

variable {c : Context} {a b : Number}

/-- A kept comparison has the guard of its atom. -/
theorem run_passingGuard (k : Comparison) (settings : Settings) (a b : Number) (f : Formula) :
    ∃ guard g, (k.passingGuard settings a b .always).run f = some (.ok guard, g) ∧
      guard ≠ .never := by
  unfold Comparison.passingGuard
  cases settings.keepBuiltins with
  | false => exact ⟨.always, f, rfl, nofun⟩
  | true => exact ⟨.node _, _, rfl, nofun⟩

/-- Two certain numbers get one result, which passes if the comparison holds. -/
theorem run_pairResult_numbers (k : Comparison) (settings : Settings) (args : List Term)
    (a b : Number) (f : Formula) :
    ∃ guard g, (k.pairResult settings args (.certain (.number a)) (.certain (.number b))).run f =
        some (.ok (args, guard), g) ∧ (guard ≠ .never ↔ k.holds a b = true) := by
  have hpair : (update (Formula.conjoin .always .always)).run f = some (.ok .always, f) := rfl
  unfold Comparison.pairResult
  rw [show (GuardedValue.certain (.number a)).guard = .always from rfl,
    show (GuardedValue.certain (.number b)).guard = .always from rfl, run_bind_ok hpair]
  cases hk : k.holds a b with
  | true =>
    obtain ⟨guard, g, hrun, hguard⟩ := run_passingGuard k settings a b f
    refine ⟨guard, g, ?_, iff_of_true hguard rfl⟩
    show (if k.holds a b then _ else _ : GroundingM _).run f = _
    rw [if_pos hk, run_bind_ok hrun]
    rfl
  | false =>
    refine ⟨.never, f, ?_, by simp⟩
    show (if k.holds a b then _ else _ : GroundingM _).run f = _
    rw [if_neg (by simp [hk])]
    rfl

/-- Two numbers get one answer. -/
theorem run_call_numbers (k : Comparison) (f : Formula) (fuel : Nat) (a b : Number)
    (hlimit : 0 < c.settings.maxCombinations) :
    ∃ guard g, (BuiltinTable.standard.call (c.scope (fuel + 1)) k.name
        [.constant a, .constant b]).run f =
          some (.ok (.completed [([.constant a, .constant b], guard)]), g) ∧
      (guard ≠ .never ↔ k.holds a b = true) := by
  have hvalue (n : Number) : (evaluate c (fuel + 1) (.constant n)).run f =
      some (.ok [.certain (.number n)], f) := rfl
  obtain ⟨guard, g, hrun, hguard⟩ :=
    run_pairResult_numbers k c.settings [.constant a, .constant b] a b f
  refine ⟨guard, g, run_call_comparison rfl rfl ?_, hguard⟩
  rw [run_results (hvalue a) (hvalue b) hlimit]
  show ([(_, _)].mapM _ : GroundingM Results).run f = _
  rw [List.mapM_cons, run_bind_ok hrun]
  rfl

/-- A comparison of two numbers other than NaN answers once. It passes exactly when their values are
so related, except when rounding to a float makes different values the same: then an integer beyond
`2 ^ 53` and a float are compared as if they were equal. -/
theorem comparison_of_numbers (k : Comparison) (f : Formula) (fuel : Nat) (ha : a.isNaN = false)
    (hb : b.isNaN = false) (hlimit : 0 < c.settings.maxCombinations) :
    ∃ guard g, (BuiltinTable.standard.call (c.scope (fuel + 1)) k.name
        [.constant a, .constant b]).run f =
          some (.ok (.completed [([.constant a, .constant b], guard)]), g) ∧
      (¬ a.Merges b → (guard ≠ .never ↔ k.Relates a.value b.value)) ∧
      (a.Merges b → (guard ≠ .never ↔ k ∈ [.lessEq, .greaterEq, .equal]) ∧
        ∀ i, a = .int i ∨ b = .int i → 2 ^ 53 < i.toInt.natAbs) := by
  obtain ⟨guard, g, hrun, hguard⟩ := run_call_numbers k f fuel a b hlimit
  refine ⟨guard, g, hrun, fun hne => ?_, fun hmerges => ⟨?_, fun i => ?_⟩⟩
  · rw [hguard, Comparison.holds, Number.compareValue_eq_compare_value ha hb hne,
      k.admits_compare]
  · rw [hguard, Comparison.holds, Number.compareValue_of_merges ha hb hmerges]
    cases k <;> decide
  · exact Number.two_pow_lt_of_merges hmerges

/-- The largest integer is below infinity. -/
theorem comparison_of_largest : ∃ guard g,
    (BuiltinTable.standard.call (standardContext.scope 1) Comparison.less.name
        [.constant (.int 0x7fffffffffffffff), .constant (.float .infinity)]).run .empty =
      some (.ok (.completed [([.constant (.int 0x7fffffffffffffff), .constant (.float .infinity)],
        guard)]), g) ∧ guard ≠ .never := by
  obtain ⟨guard, g, hrun, hpasses, -⟩ :=
    comparison_of_numbers (c := standardContext) (a := .int 0x7fffffffffffffff)
      (b := .float .infinity) .less .empty 0 rfl rfl (by decide)
  have hne : ¬ (Number.int 0x7fffffffffffffff).Merges (.float .infinity) := by decide +kernel
  exact ⟨guard, g, hrun, (hpasses hne).mpr (by decide +kernel)⟩

/-- The integer `2 ^ 53 + 1` and the float `2 ^ 53` have different values and pass as equal. -/
theorem equal_of_rounded :
    (BuiltinTable.standard.call (standardContext.scope 1) Comparison.equal.name
        [.constant (.int 0x20000000000001), .constant (.float ⟨0x4340000000000000⟩)]).run .empty =
      some (.ok (.completed [([.constant (.int 0x20000000000001),
        .constant (.float ⟨0x4340000000000000⟩)], .always)]), .empty) ∧
    ¬ Comparison.equal.Relates (Number.int 0x20000000000001).value
      (Number.float ⟨0x4340000000000000⟩).value := by
  constructor <;> decide +kernel

end Grounding
