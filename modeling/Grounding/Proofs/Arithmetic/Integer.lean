import Grounding.Arithmetic.Standard
import Grounding.Proofs.Arithmetic.Remainder
import Grounding.Proofs.Evaluation.Meaning

/-!
# Integer expressions

Expressions over integer constants are computed exactly. An operation whose mathematical result lies
outside the machine word is an error, and so is a division by zero; nothing is wrapped or rounded,
and nothing becomes a float. So an expression has its mathematical value exactly if all parts of it
have one that fits, and else its evaluation is an error of arithmetic. The formula is not touched.
-/

namespace Grounding

open GroundingM

/-- The functions of one argument that keep integers integers. -/
inductive IntUnary where
  | minus
  | plus
  | abs
  | sign
  | floor
  | ceiling
  | round
  | truncate
  | integer
deriving DecidableEq

/-- The functions of two arguments that keep integers integers. -/
inductive IntBinary where
  | add
  | sub
  | mul
  | intDiv
  | mod
  | rem
  | min
  | max
deriving DecidableEq

namespace IntUnary

def name : IntUnary → String
  | .minus => "-"
  | .plus => "+"
  | .abs => "abs"
  | .sign => "sign"
  | .floor => "floor"
  | .ceiling => "ceiling"
  | .round => "round"
  | .truncate => "truncate"
  | .integer => "integer"

/-- The mathematical value. -/
def value (x : Int) : IntUnary → Int
  | .minus => -x
  | .plus | .floor | .ceiling | .round | .truncate | .integer => x
  | .abs => x.natAbs
  | .sign => x.sign

end IntUnary

namespace IntBinary

def name : IntBinary → String
  | .add => "+"
  | .sub => "-"
  | .mul => "*"
  | .intDiv => "//"
  | .mod => "mod"
  | .rem => "rem"
  | .min => "min"
  | .max => "max"

/-- The mathematical value; there is none if the divisor is zero. The quotient is truncated toward
zero, a remainder has the sign of the dividend, and a modulus that of the divisor. -/
def value? (x y : Int) : IntBinary → Option Int
  | .add => some (x + y)
  | .sub => some (x - y)
  | .mul => some (x * y)
  | .intDiv => if y = 0 then none else some (x.tdiv y)
  | .mod => if y = 0 then none else some (x.fmod y)
  | .rem => if y = 0 then none else some (x.tmod y)
  | .min => some (Min.min x y)
  | .max => some (Max.max x y)

end IntBinary

/-- Closed expressions over machine integers. -/
inductive IntExpr where
  | literal (value : Int64)
  | unary (op : IntUnary) (arg : IntExpr)
  | binary (op : IntBinary) (left right : IntExpr)
deriving DecidableEq

namespace IntExpr

def term : IntExpr → Term
  | .literal i => .constant (.int i)
  | .unary op a => .compound op.name [a.term]
  | .binary op a b => .compound op.name [a.term, b.term]

/-- The value over the mathematical integers, unless some divisor is zero. -/
def value? : IntExpr → Option Int
  | .literal i => some i.toInt
  | .unary op a => a.value?.map fun x => op.value x
  | .binary op a b => a.value?.bind fun x => b.value?.bind fun y => op.value? x y

/-- The expression and all parts of it. -/
def subexpressions : IntExpr → List IntExpr
  | .literal i => [.literal i]
  | .unary op a => .unary op a :: a.subexpressions
  | .binary op a b => .binary op a b :: (a.subexpressions ++ b.subexpressions)

/-- In the range of machine integers, from `-2 ^ 63` to below `2 ^ 63`. -/
def Fits (z : Int) : Prop := -0x8000000000000000 ≤ z ∧ z < 0x8000000000000000

/-- No divisor is zero, and every part has a value in the range of machine integers. -/
def Representable (e : IntExpr) : Prop :=
  ∀ s ∈ e.subexpressions, ∃ z, s.value? = some z ∧ Fits z

/-- The value as it is computed, where every operation is checked against the range. -/
def checked? : IntExpr → Option Int64
  | .literal i => some i
  | .unary op a => a.checked?.bind fun x => Number.word? (op.value x.toInt)
  | .binary op a b => a.checked?.bind fun x => b.checked?.bind fun y =>
    (op.value? x.toInt y.toInt).bind Number.word?

theorem word?_eq_some_iff {z : Int} {i : Int64} :
    Number.word? z = some i ↔ Fits z ∧ i.toInt = z := by
  constructor
  · intro h
    have hi := Number.toInt_of_word? h
    refine ⟨?_, hi⟩
    rw [← hi]
    exact ⟨by have := i.le_toInt; omega, by have := i.toInt_lt; omega⟩
  · rintro ⟨-, rfl⟩
    exact Number.word?_toInt i

theorem mem_subexpressions_self (e : IntExpr) : e ∈ e.subexpressions := by
  cases e <;> exact List.mem_cons_self

theorem representable_unary_iff {op : IntUnary} {a : IntExpr} : (unary op a).Representable ↔
    a.Representable ∧ ∃ z, (unary op a).value? = some z ∧ Fits z := by
  rw [Representable, subexpressions, List.forall_mem_cons, and_comm]
  rfl

theorem representable_binary_iff {op : IntBinary} {a b : IntExpr} : (binary op a b).Representable ↔
    (a.Representable ∧ b.Representable) ∧ ∃ z, (binary op a b).value? = some z ∧ Fits z := by
  rw [Representable, subexpressions, List.forall_mem_cons, and_comm, List.forall_mem_append]
  rfl

/-- The value of an expression whose parts fit is a machine integer. -/
theorem Representable.value? {e : IntExpr} (he : e.Representable) :
    ∃ x : Int64, e.value? = some x.toInt := by
  obtain ⟨z, hz, hfits⟩ := he e e.mem_subexpressions_self
  exact ⟨Int64.ofInt z, by rw [hz, (word?_eq_some_iff.mp (if_pos hfits)).2]⟩

/-- The checks are passed exactly if all parts have values in range. -/
theorem checked?_eq_some_iff {e : IntExpr} {i : Int64} :
    e.checked? = some i ↔ e.Representable ∧ e.value? = some i.toInt := by
  induction e generalizing i with
  | literal j =>
    have hrepresentable : (literal j).Representable := by
      intro s hs
      rw [List.mem_singleton.mp hs]
      exact ⟨j.toInt, rfl, (word?_eq_some_iff.mp (Number.word?_toInt j)).1⟩
    simp only [checked?, value?, Option.some.injEq, Int64.toInt_inj, hrepresentable, true_and]
  | unary op a ih =>
    rw [representable_unary_iff, checked?, Option.bind_eq_some_iff]
    constructor
    · rintro ⟨x, hx, hi⟩
      obtain ⟨ha, hvalue⟩ := ih.mp hx
      obtain ⟨hfits, hi⟩ := word?_eq_some_iff.mp hi
      have hz : (unary op a).value? = some (op.value x.toInt) := by rw [value?, hvalue]; rfl
      exact ⟨⟨ha, _, hz, hfits⟩, by rw [hz, hi]⟩
    · rintro ⟨⟨ha, z, hz, hfits⟩, hi⟩
      obtain ⟨x, hx⟩ := ha.value?
      have hzx : (unary op a).value? = some (op.value x.toInt) := by rw [value?, hx]; rfl
      rw [hz] at hi hzx
      cases hi
      refine ⟨x, ih.mpr ⟨ha, hx⟩, ?_⟩
      rw [← Option.some.inj hzx]
      exact word?_eq_some_iff.mpr ⟨hfits, rfl⟩
  | binary op a b iha ihb =>
    rw [representable_binary_iff, checked?, Option.bind_eq_some_iff]
    constructor
    · rintro ⟨x, hx, hi⟩
      obtain ⟨y, hy, hi⟩ := Option.bind_eq_some_iff.mp hi
      obtain ⟨z, hop, hi⟩ := Option.bind_eq_some_iff.mp hi
      obtain ⟨ha, hvaluea⟩ := iha.mp hx
      obtain ⟨hb, hvalueb⟩ := ihb.mp hy
      obtain ⟨hfits, hi⟩ := word?_eq_some_iff.mp hi
      have hz : (binary op a b).value? = some z := by
        rw [value?, hvaluea, hvalueb]
        exact hop
      exact ⟨⟨⟨ha, hb⟩, z, hz, hfits⟩, by rw [hz, hi]⟩
    · rintro ⟨⟨⟨ha, hb⟩, z, hz, hfits⟩, hi⟩
      obtain ⟨x, hx⟩ := ha.value?
      obtain ⟨y, hy⟩ := hb.value?
      have hop : (binary op a b).value? = op.value? x.toInt y.toInt := by
        rw [value?, hx, hy]
        rfl
      rw [hz] at hi hop
      cases hi
      refine ⟨x, iha.mpr ⟨ha, hx⟩, Option.bind_eq_some_iff.mpr ⟨y, ihb.mpr ⟨hb, hy⟩, ?_⟩⟩
      rw [← hop]
      exact word?_eq_some_iff.mpr ⟨hfits, rfl⟩

theorem isSome_checked?_iff {e : IntExpr} : e.checked?.isSome ↔ e.Representable := by
  constructor
  · intro h
    obtain ⟨i, hi⟩ := Option.isSome_iff_exists.mp h
    exact (checked?_eq_some_iff.mp hi).1
  · intro he
    obtain ⟨i, hi⟩ := he.value?
    exact Option.isSome_iff_exists.mpr ⟨i, checked?_eq_some_iff.mpr ⟨he, hi⟩⟩

instance (e : IntExpr) : Decidable e.Representable := decidable_of_iff _ isSome_checked?_iff

end IntExpr

/-- A number or, if there is none, an error of arithmetic. -/
inductive Number.Computes : Except Error Number → Option Int64 → Prop
  | value (i : Int64) : Computes (.ok (.int i)) (some i)
  | fault (fault : ArithmeticFault) : Computes (.error (.arithmetic fault)) none

theorem Number.fitting_computes (name : String) (x y : Int64) (z : Int) :
    Computes (fitting name x y z) (word? z) := by
  unfold fitting
  cases word? z with
  | none => exact .fault _
  | some i => exact .value i

theorem Number.fittingUnary_computes (name : String) (x : Int64) (z : Int) :
    Computes (fittingUnary name x z) (word? z) := by
  unfold fittingUnary
  cases word? z with
  | none => exact .fault _
  | some i => exact .value i

/-- An operation of integer division computes what its rule does on a divisor that is not zero. -/
theorem Number.integral_computes {name : String} {op : Int64 → Int64 → Except Error Number}
    {x y : Int64} {z : Int} (h : y ≠ 0 → Computes (op x y) (word? z)) :
    Computes (integral name op (.int x) (.int y))
      ((if y.toInt = 0 then none else some z).bind word?) := by
  have hzero : y = 0 ↔ y.toInt = 0 := Int64.toInt_inj.symm
  unfold integral
  dsimp only
  split
  · next hy =>
    rw [if_pos (hzero.mp hy)]
    exact .fault _
  · next hy =>
    rw [if_neg (mt hzero.mpr hy)]
    exact h hy

theorem Number.intDiv_computes (x y : Int64) : Computes (intDiv (.int x) (.int y))
    ((if y.toInt = 0 then none else some (x.toInt.tdiv y.toInt)).bind word?) := by
  refine integral_computes fun hy => ?_
  have hquotient : quotient? x y = word? (x.toInt.tdiv y.toInt) := if_neg (toInt_ne_zero hy)
  rw [hquotient]
  cases word? (x.toInt.tdiv y.toInt) with
  | none => exact .fault _
  | some q => exact .value q

theorem Number.mod_computes (x y : Int64) : Computes (mod (.int x) (.int y))
    ((if y.toInt = 0 then none else some (x.toInt.fmod y.toInt)).bind word?) := by
  refine integral_computes fun hy => ?_
  rw [← toInt_flooredRemainder x hy, word?_toInt]
  exact .value _

theorem Number.rem_computes (x y : Int64) : Computes (rem (.int x) (.int y))
    ((if y.toInt = 0 then none else some (x.toInt.tmod y.toInt)).bind word?) := by
  refine integral_computes fun hy => ?_
  rw [← toInt_truncatedRemainder x hy, word?_toInt]
  exact .value _

theorem Number.word?_sign (x : Int64) : word? x.toInt.sign = some (Int64.ofInt x.toInt.sign) := by
  refine if_pos ?_
  have hsign := Int.sign_trichotomy x.toInt
  omega

theorem Number.min_computes (x y : Int64) :
    Computes (min (.int x) (.int y)) (word? (Min.min x.toInt y.toInt)) := by
  have hvalue : (Number.int x).compareValue (.int y) = some .gt ↔ y.toInt < x.toInt := by
    rw [compareValue, Option.some.injEq]
    exact Int.compare_eq_gt
  unfold min
  split
  · next h =>
    rw [Int.min_eq_right (Int.le_of_lt (hvalue.mp h)), word?_toInt]
    exact .value _
  · next h =>
    rw [Int.min_eq_left (by have := mt hvalue.mpr h; omega), word?_toInt]
    exact .value _

theorem Number.max_computes (x y : Int64) :
    Computes (max (.int x) (.int y)) (word? (Max.max x.toInt y.toInt)) := by
  have hvalue : (Number.int x).compareValue (.int y) = some .lt ↔ x.toInt < y.toInt := by
    rw [compareValue, Option.some.injEq]
    exact Int.compare_eq_lt
  unfold max
  split
  · next h =>
    rw [Int.max_eq_right (Int.le_of_lt (hvalue.mp h)), word?_toInt]
    exact .value _
  · next h =>
    rw [Int.max_eq_left (by have := mt hvalue.mpr h; omega), word?_toInt]
    exact .value _

namespace IntUnary

def rule : IntUnary → Number → Except Error Number
  | .minus => Number.neg
  | .plus => .ok
  | .abs => Number.abs
  | .sign => Number.sign
  | .floor => Number.toWhole Binary64.floor
  | .ceiling => Number.toWhole Binary64.ceil
  | .round | .integer => Number.toWhole Binary64.round
  | .truncate => Number.toWhole Binary64.truncate

theorem find?_standard (op : IntUnary) :
    FunctionTable.standard.find? op.name 1 = some (.unary op.name op.rule) := by
  cases op <;> rfl

theorem computes (op : IntUnary) (x : Int64) :
    Number.Computes (op.rule (.int x)) (Number.word? (op.value x.toInt)) := by
  cases op with
  | minus => exact Number.fittingUnary_computes "-" x _
  | abs =>
    rw [rule, Number.abs, value]
    exact Number.fittingUnary_computes "abs" x x.toInt.natAbs
  | sign =>
    rw [value, Number.word?_sign]
    exact .value _
  | plus | floor | ceiling | round | truncate | integer =>
    rw [value, Number.word?_toInt]
    exact .value _

end IntUnary

namespace IntBinary

def rule : IntBinary → Number → Number → Except Error Number
  | .add => Number.add
  | .sub => Number.sub
  | .mul => Number.mul
  | .intDiv => Number.intDiv
  | .mod => Number.mod
  | .rem => Number.rem
  | .min => Number.min
  | .max => Number.max

theorem find?_standard (op : IntBinary) :
    FunctionTable.standard.find? op.name 2 = some (.binary op.name op.rule) := by
  cases op <;> rfl

theorem computes (op : IntBinary) (x y : Int64) :
    Number.Computes (op.rule (.int x) (.int y))
      ((op.value? x.toInt y.toInt).bind Number.word?) := by
  cases op with
  | add => exact Number.fitting_computes "+" x y _
  | sub => exact Number.fitting_computes "-" x y _
  | mul => exact Number.fitting_computes "*" x y _
  | intDiv => exact Number.intDiv_computes x y
  | mod => exact Number.mod_computes x y
  | rem => exact Number.rem_computes x y
  | min => exact Number.min_computes x y
  | max => exact Number.max_computes x y

end IntBinary

theorem tuples_singletons {α : Type} (xs : List α) : tuples (xs.map fun x => [x]) = [xs] := by
  induction xs with
  | nil => rfl
  | cons x xs ih => simp [tuples, ih]

theorem productSize_singletons {α : Type} (xs : List α) :
    productSize (xs.map fun x => [x]) = 1 := by
  induction xs with
  | nil => rfl
  | cons x xs ih => simpa [productSize, sizeBound] using ih

theorem conjoinAll_always {guards : List Guard} (h : ∀ x ∈ guards, x = .always) (f : Formula) :
    Formula.conjoinAll guards f = (.always, f) := by
  have hnever : guards.any Guard.isNever = false :=
    List.any_eq_false.mpr fun x hx => by rw [h x hx]; exact Bool.false_ne_true
  have hnodes : guards.filterMap Guard.node? = [] :=
    List.filterMap_eq_nil_iff.mpr fun x hx => by rw [h x hx]; rfl
  rw [Formula.conjoinAll, hnever, Formula.childrenOf, hnodes]
  rfl

theorem mapM_number? (ns : List Number) :
    (ns.map Value.number).mapM Value.number? = some ns := by
  induction ns with
  | nil => rfl
  | cons n ns ih =>
    rw [List.map_cons, List.mapM_cons, ih]
    rfl

theorem ArithmeticFunction.onValues_numbers (function : ArithmeticFunction) (ns : List Number) :
    function.onValues (ns.map .number) = (function.apply ns).map .number := by
  have hdefined : (ns.map Value.number).any Value.isUndefined = false := by
    rw [List.any_map]
    exact List.any_eq_false.mpr fun n _ => Bool.false_ne_true
  rw [onValues, hdefined, mapM_number?]
  rfl

theorem run_applyToTuple_certain (function : ArithmeticFunction) (ns : List Number) (f : Formula) :
    (applyToTuple function (ns.map fun n => .certain (.number n))).run f =
      some ((function.apply ns).map fun n => .certain (.number n), f) := by
  have hguards : Formula.conjoinAll ((ns.map fun n => GuardedValue.certain (.number n)).map
      (·.guard)) f = (.always, f) :=
    conjoinAll_always (by simp [GuardedValue.certain]) f
  have hguard : (update (Formula.conjoinAll ((ns.map fun n =>
      GuardedValue.certain (.number n)).map (·.guard)))).run f = some (.ok .always, f) := by
    rw [run_update, hguards]
  have hvalues : (ns.map fun n => GuardedValue.certain (.number n)).map (·.value) =
      ns.map .number := by
    rw [List.map_map]
    rfl
  unfold applyToTuple
  rw [run_bind_ok hguard, hvalues, ArithmeticFunction.onValues_numbers]
  cases function.apply ns <;> rfl

/-- Operands of one certain number each make one tuple, under the guard that always holds. -/
theorem run_applyToOperands_certain {settings : Settings} (hlimit : 1 ≤ settings.maxCombinations)
    (function : ArithmeticFunction) (ns : List Number) (f : Formula) :
    (applyToOperands settings function (ns.map fun n => [.certain (.number n)])).run f =
      some ((function.apply ns).map fun n => [.certain (.number n)], f) := by
  have hoperands : ns.map (fun n => [GuardedValue.certain (.number n)]) =
      (ns.map fun n => GuardedValue.certain (.number n)).map fun v => [v] := by
    rw [List.map_map]
    rfl
  have hsize : (ofExcept (checkProductSize (ns.map fun n => [GuardedValue.certain (.number n)])
      settings.maxCombinations) : GroundingM Nat).run f = some (.ok 1, f) := by
    rw [run_ofExcept, checkProductSize, hoperands, productSize_singletons]
    simp only [if_neg (Nat.not_lt.mpr hlimit)]
  unfold applyToOperands
  rw [run_bind_ok hsize, hoperands, tuples_singletons, List.mapM_cons, run_bind,
    run_applyToTuple_certain]
  cases function.apply ns <;> rfl

namespace IntExpr

section Application

variable {c : Context} {fuel : Nat} {resolving : List Term} {name : String} {es : List IntExpr}
  {function : ArithmeticFunction} {z? : Option Int64} {f : Formula}

/-- The expression is evaluated to its checked value, or to an error of arithmetic, and the formula
is not touched. -/
def IsComputed (c : Context) (fuel : Nat) (resolving : List Term) (f : Formula) (e : IntExpr) :
    Prop :=
  ∃ r, (evaluateWith c fuel resolving e.term).run f =
    some (r.map fun n => [.certain (.number n)], f) ∧ Number.Computes r e.checked?

/-- Operands are evaluated from left to right, up to the first that is an error. -/
theorem run_operands (h : ∀ e ∈ es, e.IsComputed c fuel resolving f) :
    (∃ xs, es.mapM checked? = some xs ∧
      ((es.map term).mapM (evaluateWith c fuel resolving)).run f =
        some (.ok ((xs.map Number.int).map fun n => [.certain (.number n)]), f)) ∨
    (es.mapM checked? = none ∧ ∃ fault,
      ((es.map term).mapM (evaluateWith c fuel resolving)).run f =
        some (.error (.arithmetic fault), f)) := by
  induction es with
  | nil => exact .inl ⟨[], rfl, rfl⟩
  | cons e es ih =>
    obtain ⟨r, hrun, hcomputes⟩ := h e List.mem_cons_self
    rw [List.map_cons, List.mapM_cons, List.mapM_cons]
    cases hchecked : e.checked? with
    | none =>
      rw [hchecked] at hcomputes
      cases hcomputes with
      | fault fault => exact .inr ⟨rfl, fault, run_bind_error hrun _⟩
    | some x =>
      rw [hchecked] at hcomputes
      cases hcomputes
      have hrest := ih fun e he => h e (List.mem_cons_of_mem _ he)
      rcases hrest with ⟨xs, hxs, hruns⟩ | ⟨hnone, fault, hruns⟩
      · refine .inl ⟨x :: xs, by rw [hxs]; rfl, ?_⟩
        exact (run_bind_ok hrun _).trans (run_bind_ok hruns _)
      · refine .inr ⟨by rw [hnone]; rfl, fault, ?_⟩
        exact (run_bind_ok hrun _).trans (run_bind_error hruns _)

theorem run_compound (hlimit : 1 ≤ c.settings.maxCombinations)
    (hfind : c.functions.find? name es.length = some function)
    (h : ∀ e ∈ es, e.IsComputed c fuel resolving f)
    (hvalue : ∀ xs, es.mapM checked? = some xs →
      Number.Computes (function.apply (xs.map Number.int)) z?)
    (hfault : es.mapM checked? = none → z? = none) :
    ∃ r, (evaluateWith c (fuel + 1) resolving (.compound name (es.map term))).run f =
      some (r.map fun n => [.certain (.number n)], f) ∧ Number.Computes r z? := by
  have hcalled : c.functions.calledBy? (.compound name (es.map term)) = some function := by
    have hlength : (es.map term).length = es.length := List.length_map term
    rw [← hfind, ← hlength]
    rfl
  rw [evaluateWith, evaluateStep_callable rfl, hcalled]
  rcases run_operands h with ⟨xs, hxs, hruns⟩ | ⟨hnone, fault, hruns⟩
  · exact ⟨_, (run_bind_ok hruns _).trans (run_applyToOperands_certain hlimit function _ f),
      hvalue xs hxs⟩
  · rw [hfault hnone]
    exact ⟨_, run_bind_error hruns _, .fault fault⟩

end Application

theorem mapM_checked?_singleton (a : IntExpr) :
    [a].mapM checked? = a.checked?.map fun x => [x] := by
  cases h : a.checked? <;> simp [h]

theorem mapM_checked?_pair (a b : IntExpr) : [a, b].mapM checked? =
    a.checked?.bind fun x => b.checked?.map fun y => [x, y] := by
  rw [List.mapM_cons, mapM_checked?_singleton]
  cases a.checked? <;> cases b.checked? <;> rfl

theorem isComputed {c : Context} (hfunctions : c.functions = .standard)
    (hlimit : 1 ≤ c.settings.maxCombinations) {e : IntExpr} {fuel : Nat}
    (hfuel : e.term.height ≤ fuel) (resolving : List Term) (f : Formula) :
    e.IsComputed c fuel resolving f := by
  have hpositive := e.term.height_pos
  obtain ⟨fuel, rfl⟩ : ∃ n, fuel = n + 1 := ⟨fuel - 1, by omega⟩
  induction e generalizing fuel with
  | literal i => exact ⟨.ok (.int i), rfl, .value i⟩
  | unary op a ih =>
    have hpositive := a.term.height_pos
    simp only [term, Term.height, Term.heights] at hfuel
    obtain ⟨fuel, rfl⟩ : ∃ n, fuel = n + 1 := ⟨fuel - 1, by omega⟩
    have hfind : c.functions.find? op.name [a].length = some (.unary op.name op.rule) := by
      rw [hfunctions]
      exact op.find?_standard
    refine run_compound hlimit hfind ?operand ?value ?fault
    case operand =>
      intro e he
      rw [List.mem_singleton.mp he]
      exact ih hpositive fuel (by omega)
    case value =>
      intro xs hxs
      rw [mapM_checked?_singleton] at hxs
      obtain ⟨x, hx, rfl⟩ := Option.map_eq_some_iff.mp hxs
      rw [checked?, hx]
      exact op.computes x
    case fault =>
      intro hnone
      rw [mapM_checked?_singleton, Option.map_eq_none_iff] at hnone
      rw [checked?, hnone]
      rfl
  | binary op a b iha ihb =>
    have hpositivea := a.term.height_pos
    have hpositiveb := b.term.height_pos
    simp only [term, Term.height, Term.heights] at hfuel
    obtain ⟨fuel, rfl⟩ : ∃ n, fuel = n + 1 := ⟨fuel - 1, by omega⟩
    have hfind : c.functions.find? op.name [a, b].length = some (.binary op.name op.rule) := by
      rw [hfunctions]
      exact op.find?_standard
    refine run_compound hlimit hfind ?operand ?value ?fault
    case operand =>
      intro e he
      rcases List.mem_pair.mp he with rfl | rfl
      · exact iha hpositivea fuel (by omega)
      · exact ihb hpositiveb fuel (by omega)
    case value =>
      intro xs hxs
      rw [mapM_checked?_pair] at hxs
      obtain ⟨x, hx, hxs⟩ := Option.bind_eq_some_iff.mp hxs
      obtain ⟨y, hy, rfl⟩ := Option.map_eq_some_iff.mp hxs
      rw [checked?, hx, hy]
      exact op.computes x y
    case fault =>
      intro hnone
      rw [mapM_checked?_pair] at hnone
      rw [checked?]
      cases ha : a.checked? with
      | none => rfl
      | some x =>
        rw [ha, Option.bind_some, Option.map_eq_none_iff] at hnone
        rw [hnone]
        rfl

/-- Whatever the resolver, an expression comes to its exact value, as the only one and in any case,
if all parts of it have a value in the range of machine integers and no divisor is zero. Else its
evaluation is an error of arithmetic. Either way the formula stays as it is. -/
theorem evaluate_exact {c : Context} (hfunctions : c.functions = .standard)
    (hlimit : 1 ≤ c.settings.maxCombinations) (e : IntExpr) {fuel : Nat}
    (hfuel : e.term.height ≤ fuel) (f : Formula) :
    (∀ i : Int64, (evaluate c fuel e.term).run f = some (.ok [.certain (.number (.int i))], f) ↔
      e.Representable ∧ e.value? = some i.toInt) ∧
    (e.Representable → ∃ i : Int64, e.value? = some i.toInt) ∧
    (¬ e.Representable →
      ∃ fault, (evaluate c fuel e.term).run f = some (.error (.arithmetic fault), f)) := by
  obtain ⟨r, hrun, hcomputes⟩ := isComputed hfunctions hlimit hfuel [] f
  rw [show evaluate c fuel e.term = evaluateWith c fuel [] e.term from rfl, hrun]
  refine ⟨fun i => ?_, Representable.value?, fun he => ?_⟩
  · rw [← checked?_eq_some_iff]
    cases hchecked : e.checked? with
    | none =>
      rw [hchecked] at hcomputes
      cases hcomputes
      simp [Except.map]
    | some j =>
      rw [hchecked] at hcomputes
      cases hcomputes
      simp [Except.map, GuardedValue.certain]
  · rw [Option.not_isSome_iff_eq_none.mp (mt isSome_checked?_iff.mp he)] at hcomputes
    cases hcomputes with
    | fault fault => exact ⟨fault, rfl⟩

/-- The remainder of the least machine integer by `-1` is exact, and its quotient by `-1` does not
fit, also where the greater of the two is not needed. -/
theorem evaluate_exact_least :
    (evaluate ⟨.standard, Resolver.identity, {}⟩ 3
        (.compound "+" [.compound "mod" [.constant (.int 7), .constant (.int (-2))],
          .compound "rem" [.constant (.int Int64.minValue), .constant (.int (-1))]])).run .empty =
      some (.ok [.certain (.number (.int (-1)))], .empty) ∧
    ∃ fault, (evaluate ⟨.standard, Resolver.identity, {}⟩ 3
        (.compound "min" [.constant (.int 1), .compound "//" [.constant (.int Int64.minValue),
          .constant (.int (-1))]])).run .empty = some (.error (.arithmetic fault), .empty) := by
  let sum : IntExpr := .binary .add (.binary .mod (.literal 7) (.literal (-2)))
    (.binary .rem (.literal Int64.minValue) (.literal (-1)))
  let least : IntExpr := .binary .min (.literal 1)
    (.binary .intDiv (.literal Int64.minValue) (.literal (-1)))
  have hsum := evaluate_exact (c := ⟨.standard, Resolver.identity, {}⟩) rfl (by decide) sum
    (Nat.le_refl 3) .empty
  have hleast := evaluate_exact (c := ⟨.standard, Resolver.identity, {}⟩) rfl (by decide) least
    (Nat.le_refl 3) .empty
  exact ⟨(hsum.1 (-1)).mpr (by decide +kernel), hleast.2.2 (by decide +kernel)⟩

end IntExpr

end Grounding
