import Mathlib.Algebra.Group.Int.Units
import Mathlib.Algebra.Order.Ring.Int
import Mathlib.Algebra.Order.Ring.Rat
import Mathlib.Data.Rat.Cast.Order
import Mathlib.Tactic.FieldSimp
import Mathlib.Tactic.Ring
import Grounding.Proofs.Arithmetic.Division

/-!
# Powers of integers

Repeated squaring checks every product it takes, those of intermediate squares included. None of
them stops the computation unless the power itself is out of range: a square is taken only if it
goes into the result, and a square that does not fit is larger than `2 ^ 63`, so the result does not
fit either. The invariant of the loop is that the accumulator is not zero unless the base is.

Exponents from `2 ^ 32` on are refused. Except for the bases `0`, `1` and `-1` their powers are out
of range in any case.
-/

namespace Grounding

open IntExpr

theorem word?_eq_none_iff {z : Int} : Number.word? z = none ↔ ¬ Fits z := by
  unfold Number.word? Fits
  split <;> simp_all

theorem fits_zero : Fits 0 := by
  unfold Fits
  omega

theorem fits_toInt (i : Int64) : Fits i.toInt := (word?_eq_some_iff.mp (Number.word?_toInt i)).1

/-- A number out of range stays so when it is multiplied by a positive one. -/
theorem not_fits_mul {z w : Int} (hz : ¬ Fits z) (hw : 1 ≤ w) : ¬ Fits (z * w) := by
  unfold Fits at *
  rcases Int.le_total z 0 with hneg | hpos
  · have : z * w ≤ z := mul_le_of_one_le_right hneg hw
    omega
  · have : z ≤ z * w := le_mul_of_one_le_right hpos hw
    omega

/-- No square is `2 ^ 63`: it lies between the squares of `3037000499` and `3037000500`. -/
theorem lt_mul_self_of_not_fits {b : Int} (hb : ¬ Fits (b * b)) : 0x8000000000000000 < b * b := by
  have hnonneg := mul_self_nonneg b
  have hle : 0x8000000000000000 ≤ b * b := by
    unfold Fits at hb
    omega
  rw [← Int.natAbs_mul_self] at hle ⊢
  have hroot : 3037000500 ≤ b.natAbs := by
    by_contra hsmall
    have := Nat.mul_le_mul (show b.natAbs ≤ 3037000499 by omega) (show b.natAbs ≤ 3037000499 by omega)
    omega
  have := Nat.mul_le_mul hroot hroot
  omega

/-- A square out of range has no multiple in range but zero. -/
theorem not_fits_mul_square {b c : Int} (hb : ¬ Fits (b * b)) (hc : c ≠ 0) :
    ¬ Fits (c * (b * b)) := by
  have hsquare := lt_mul_self_of_not_fits hb
  unfold Fits
  rcases Int.lt_or_gt_of_ne hc with hneg | hpos
  · have : c * (b * b) ≤ -1 * (b * b) := mul_le_mul_of_nonneg_right (by omega) (by omega)
    omega
  · have : b * b ≤ c * (b * b) := le_mul_of_one_le_left (by omega) hpos
    omega

namespace Number

variable {acc base : Int64} {n : Nat}

/-- The accumulator takes the base in if the last binary digit of the exponent is one. -/
theorem digit_eq_word? (acc base : Int64) (n : Nat) :
    (if n % 2 = 1 then product? acc base else some acc) =
      word? (acc.toInt * base.toInt ^ (n % 2)) := by
  rcases Nat.mod_two_eq_zero_or_one n with h | h
  · rw [h, if_neg (by decide), pow_zero, mul_one, word?_toInt]
  · rw [h, if_pos rfl, pow_one]
    rfl

/-- The last digit, and the square of the base for the others. -/
theorem mul_pow_eq (a b : Int) (n : Nat) :
    a * b ^ n = a * b ^ (n % 2) * (b * b) ^ (n / 2) := by
  have hn : n % 2 + 2 * (n / 2) = n := Nat.mod_add_div n 2
  calc a * b ^ n = a * b ^ (n % 2 + 2 * (n / 2)) := by rw [hn]
    _ = a * b ^ (n % 2) * (b * b) ^ (n / 2) := by rw [pow_add, pow_mul, pow_two, mul_assoc]

/-- The accumulator overflows only for a base other than zero, and then the product does. -/
theorem not_fits_of_digit (h : ¬ Fits (acc.toInt * base.toInt ^ (n % 2))) :
    ¬ Fits (acc.toInt * base.toInt ^ n) := by
  have hbase : base.toInt ≠ 0 := by
    intro hzero
    rw [hzero] at h
    rcases Nat.mod_two_eq_zero_or_one n with hn | hn
    · rw [hn, pow_zero, mul_one] at h
      exact h (fits_toInt acc)
    · rw [hn, pow_one, mul_zero] at h
      exact h fits_zero
  have hsquare : 1 ≤ base.toInt * base.toInt := mul_self_pos.mpr hbase
  rw [mul_pow_eq]
  exact not_fits_mul h (one_le_pow₀ hsquare)

/-- A square that goes into the product overflows only if the product does. -/
theorem not_fits_of_square (hacc : acc.toInt = 0 → base.toInt = 0) (hn : 2 ≤ n)
    (h : ¬ Fits (base.toInt * base.toInt)) : ¬ Fits (acc.toInt * base.toInt ^ n) := by
  have hbase : base.toInt ≠ 0 := by
    intro hzero
    rw [hzero] at h
    exact h fits_zero
  have hpow : acc.toInt * base.toInt ^ n =
      acc.toInt * base.toInt ^ (n - 2) * (base.toInt * base.toInt) := by
    conv_lhs => rw [show n = n - 2 + 2 by omega, pow_add, pow_two, ← mul_assoc]
  rw [hpow]
  exact not_fits_mul_square h (mul_ne_zero (mt hacc hbase) (pow_ne_zero _ hbase))

/-- The step keeps the accumulator from being zero unless the base is. -/
theorem nonzero_of_step {acc' square : Int64} (h : acc.toInt = 0 → base.toInt = 0)
    (hacc : acc'.toInt = acc.toInt * base.toInt ^ (n % 2))
    (hsquare : square.toInt = base.toInt * base.toInt) : acc'.toInt = 0 → square.toInt = 0 := by
  rw [hacc, hsquare, mul_eq_zero]
  rintro (hzero | hpow)
  · rw [h hzero, mul_zero]
  · rw [eq_zero_of_pow_eq_zero hpow, mul_zero]

/-- Repeated squaring finds the product whenever it is in range, and reports an overflow only if it
is not. -/
theorem squaring?_eq_word? (h : acc.toInt = 0 → base.toInt = 0) :
    squaring? acc base n = word? (acc.toInt * base.toInt ^ n) := by
  induction n using Nat.strong_induction_on generalizing acc base with
  | h n ih =>
    by_cases hzero : n = 0
    · subst hzero
      rw [squaring?, if_pos rfl, pow_zero, mul_one, word?_toInt]
    rw [squaring?, if_neg hzero, digit_eq_word?]
    cases hacc : word? (acc.toInt * base.toInt ^ (n % 2)) with
    | none =>
      exact (word?_eq_none_iff.mpr (not_fits_of_digit (word?_eq_none_iff.mp hacc))).symm
    | some acc' =>
      have hvalue := (word?_eq_some_iff.mp hacc).2
      rw [Option.bind_some]
      -- the last digit takes no square, so an overflow of that square is never seen
      by_cases hone : n = 1
      · subst hone
        rw [if_pos rfl, ← hacc]
      rw [if_neg hone]
      cases hsquare : product? base base with
      | none =>
        have hover := not_fits_of_square h (n := n) (by omega) (word?_eq_none_iff.mp hsquare)
        exact (word?_eq_none_iff.mpr hover).symm
      | some square =>
        have hsquared := (word?_eq_some_iff.mp hsquare).2
        rw [Option.bind_some, ih (n / 2) (by omega) (nonzero_of_step h hvalue hsquared), hvalue,
          hsquared, ← mul_pow_eq]

/-- The checked power is the power, if this is in range. -/
theorem wordPower?_eq_word? (base : Int64) (n : Nat) : wordPower? base n = word? (base.toInt ^ n) := by
  have hone : (1 : Int64).toInt = 0 → base.toInt = 0 := fun h => absurd h (by decide)
  rw [wordPower?, squaring?_eq_word? hone, show (1 : Int64).toInt = 1 from rfl, one_mul]

theorem naturalPower_of_fits (name : String) {base exponent : Int64}
    (hexponent : exponent.toInt < 0x100000000) (h : Fits (base.toInt ^ exponent.toInt.toNat)) :
    ∃ i : Int64, i.toInt = base.toInt ^ exponent.toInt.toNat ∧
      naturalPower name base exponent = .ok (.int i) := by
  refine ⟨Int64.ofInt _, toInt_of_word? (word?_of_fits h), ?_⟩
  unfold naturalPower exponentBound
  rw [if_neg (by omega), wordPower?_eq_word?, word?_of_fits h]

theorem naturalPower_of_not_fits (name : String) {base exponent : Int64}
    (hexponent : exponent.toInt < 0x100000000) (h : ¬ Fits (base.toInt ^ exponent.toInt.toNat)) :
    naturalPower name base exponent = fault (.overflow base name exponent) := by
  unfold naturalPower exponentBound
  rw [if_neg (by omega), wordPower?_eq_word?, word?_eq_none_iff.mpr h]

/-- A base other than `0`, `1` and `-1` leaves the range with the exponent 64 at the latest. -/
theorem not_fits_pow {b : Int} (hb : 2 ≤ b.natAbs) (hn : 64 ≤ n) : ¬ Fits (b ^ n) := by
  have hpow : 0x10000000000000000 ≤ (b ^ n).natAbs := by
    rw [Int.natAbs_pow]
    calc 0x10000000000000000 = 2 ^ 64 := by norm_num
      _ ≤ 2 ^ n := Nat.pow_le_pow_right (by decide) hn
      _ ≤ b.natAbs ^ n := Nat.pow_le_pow_left hb n
  unfold Fits
  omega

/-- Only `1` and `-1` have negative powers that are integers. -/
theorem zpow_eq_intCast {b e z : Int} (hb : b ≠ 0) (he : e < 0) (h : (b : ℚ) ^ e = z) :
    b = 1 ∧ z = 1 ∨ b = -1 ∧ z = if e % 2 = 0 then 1 else -1 := by
  obtain ⟨k, rfl⟩ := Int.eq_negSucc_of_lt_zero he
  have hpow : (b : ℚ) ^ (k + 1) ≠ 0 := pow_ne_zero _ (Int.cast_ne_zero.mpr hb)
  have hone : z * b ^ (k + 1) = 1 := by
    have : (z : ℚ) * (b : ℚ) ^ (k + 1) = 1 := by
      rw [← h, zpow_negSucc, inv_mul_cancel₀ hpow]
    exact_mod_cast this
  have hunit : IsUnit b := by
    refine IsUnit.of_mul_eq_one (z * b ^ k) ?_
    rw [← hone, pow_succ]
    ring
  rcases Int.isUnit_iff.mp hunit with rfl | rfl
  · exact .inl ⟨rfl, by rwa [one_pow, mul_one] at hone⟩
  · refine .inr ⟨rfl, ?_⟩
    rcases Nat.even_or_odd (k + 1) with hk | hk
    · rw [hk.neg_one_pow, mul_one] at hone
      rw [hone, if_pos]
      obtain ⟨m, hm⟩ := hk
      omega
    · rw [hk.neg_one_pow] at hone
      rw [if_neg]
      · omega
      · obtain ⟨m, hm⟩ := hk
        omega

/-- The negative power of an integer is the exact one where that is an integer. -/
theorem inversePower_of_zpow (name : String) {base exponent : Int64} {z : Int}
    (hbase : base.toInt ≠ 0) (hexponent : exponent.toInt < 0)
    (h : (base.toInt : ℚ) ^ exponent.toInt = z) :
    (base = 1 ∨ base = -1) ∧
      ∃ i : Int64, i.toInt = z ∧ inversePower name base exponent = .ok (.int i) := by
  unfold inversePower
  rcases zpow_eq_intCast hbase hexponent h with ⟨hone, rfl⟩ | ⟨hneg, rfl⟩
  · exact ⟨.inl (Int64.toInt_inj.mp hone), 1, rfl, if_pos hone⟩
  · refine ⟨.inr (Int64.toInt_inj.mp hneg), if exponent.toInt % 2 = 0 then 1 else -1, ?_, ?_⟩
    · split <;> rfl
    · rw [if_neg (by omega), if_pos hneg]

/-- Where there is no such integer the negative power is an error. -/
theorem inversePower_of_not_zpow (name : String) {base exponent : Int64}
    (h : base.toInt = 0 ∨ ∀ z : Int, (base.toInt : ℚ) ^ exponent.toInt ≠ z) :
    ∃ fault, inversePower name base exponent = .error (.arithmetic fault) := by
  unfold inversePower
  split
  · next hone =>
    exact absurd (by rw [hone]; simp) ((h.resolve_left (by omega)) 1)
  split
  · next hneg =>
    have hpower := h.resolve_left (by omega)
    rw [hneg] at hpower
    rcases Int.even_or_odd exponent.toInt with he | he
    · exact absurd (by simpa using he.neg_one_zpow) (hpower 1)
    · exact absurd (by simpa using he.neg_one_zpow) (hpower (-1))
  split
  · exact ⟨_, rfl⟩
  · exact ⟨_, rfl⟩

/-- Both powers of integers are the same where the exponent is not negative. -/
theorem apply?_power {name : String} (hname : name ∈ ["**", "^"]) {base exponent : Int64}
    (h : 0 ≤ exponent.toInt) :
    FunctionTable.standard.apply? name [.int base, .int exponent] =
      some (naturalPower name base exponent) := by
  rcases List.mem_pair.mp hname with rfl | rfl
  · exact congrArg some (if_pos h)
  · exact congrArg some (if_pos h)

theorem apply?_integerPower {base exponent : Int64} (h : exponent.toInt < 0) :
    FunctionTable.standard.apply? "^" [.int base, .int exponent] =
      some (inversePower "^" base exponent) :=
  congrArg some (if_neg (by omega))

end Number

/-- Both powers of two integers are exact for exponents from zero to below `2 ^ 32`, and report an
overflow only if the power is out of range. Larger exponents are refused, although the powers of
`0`, `1` and `-1` would fit. A negative power is the exact one if that is an integer, and else an
error. Repeated squaring gives the power whenever it is in range, whatever the exponent. -/
theorem powers_of_integers (base exponent : Int64) :
    (∀ name ∈ ["**", "^"], 0 ≤ exponent.toInt →
      (exponent.toInt < 0x100000000 →
        (Fits (base.toInt ^ exponent.toInt.toNat) → ∃ i : Int64,
          i.toInt = base.toInt ^ exponent.toInt.toNat ∧
          FunctionTable.standard.apply? name [.int base, .int exponent] = some (.ok (.int i))) ∧
        (¬ Fits (base.toInt ^ exponent.toInt.toNat) →
          FunctionTable.standard.apply? name [.int base, .int exponent] =
            some (.error (.arithmetic (.overflow base name exponent))))) ∧
      (0x100000000 ≤ exponent.toInt →
        FunctionTable.standard.apply? name [.int base, .int exponent] =
          some (.error (.arithmetic (.exponentTooLarge exponent))) ∧
        (2 ≤ base.toInt.natAbs → ¬ Fits (base.toInt ^ exponent.toInt.toNat)))) ∧
    (exponent.toInt < 0 →
      (∀ z : Int, base.toInt ≠ 0 → (base.toInt : ℚ) ^ exponent.toInt = z →
        (base = 1 ∨ base = -1) ∧ ∃ i : Int64, i.toInt = z ∧
          FunctionTable.standard.apply? "^" [.int base, .int exponent] = some (.ok (.int i))) ∧
      (base.toInt = 0 ∨ (∀ z : Int, (base.toInt : ℚ) ^ exponent.toInt ≠ z) → ∃ fault,
        FunctionTable.standard.apply? "^" [.int base, .int exponent] =
          some (.error (.arithmetic fault)))) ∧
    ∀ (n : Nat) (i : Int64), Number.wordPower? base n = some i ↔ i.toInt = base.toInt ^ n := by
  refine ⟨fun name hname hnonneg => ⟨fun hsmall => ?_, fun hlarge => ?_⟩, fun hneg => ?_, ?_⟩
  · rw [Number.apply?_power hname hnonneg]
    refine ⟨fun h => ?_, fun h => ?_⟩
    · obtain ⟨i, hi, hpower⟩ := Number.naturalPower_of_fits name hsmall h
      exact ⟨i, hi, congrArg some hpower⟩
    · exact congrArg some (Number.naturalPower_of_not_fits name hsmall h)
  · rw [Number.apply?_power hname hnonneg]
    exact ⟨congrArg some (if_pos hlarge), fun h => Number.not_fits_pow h (by omega)⟩
  · rw [Number.apply?_integerPower hneg]
    refine ⟨fun z hbase h => ?_, fun h => ?_⟩
    · obtain ⟨hunit, i, hi, hpower⟩ := Number.inversePower_of_zpow "^" hbase hneg h
      exact ⟨hunit, i, hi, congrArg some hpower⟩
    · obtain ⟨fault, hpower⟩ := Number.inversePower_of_not_zpow "^" h
      exact ⟨fault, congrArg some hpower⟩
  · intro n i
    rw [Number.wordPower?_eq_word?, word?_eq_some_iff]
    exact ⟨fun h => h.2, fun h => ⟨h ▸ fits_toInt i, h⟩⟩

/-- `-2` reaches the least integer exactly, while `2` leaves the range; `0` to the power `0` is `1`,
and `-1` has negative powers. -/
theorem powers_of_minus_two :
    (∃ i : Int64, i.toInt = (-2) ^ 63 ∧
      FunctionTable.standard.apply? "**" [.int (-2), .int 63] = some (.ok (.int i))) ∧
    FunctionTable.standard.apply? "^" [.int 2, .int 63] =
      some (.error (.arithmetic (.overflow 2 "^" 63))) ∧
    (∃ i : Int64, i.toInt = 1 ∧
      FunctionTable.standard.apply? "**" [.int 0, .int 0] = some (.ok (.int i))) ∧
    ∃ i : Int64, i.toInt = -1 ∧
      FunctionTable.standard.apply? "^" [.int (-1), .int (-3)] = some (.ok (.int i)) := by
  have hleast := (((powers_of_integers (-2) 63).1 "**" (by decide) (by decide)).1 (by decide)).1
    (by unfold Fits; decide +kernel)
  have hover := (((powers_of_integers 2 63).1 "^" (by decide) (by decide)).1 (by decide)).2
    (by unfold Fits; decide +kernel)
  have hzero := (((powers_of_integers 0 0).1 "**" (by decide) (by decide)).1 (by decide)).1
    (by unfold Fits; decide +kernel)
  have hnegative := ((powers_of_integers (-1) (-3)).2.1 (by decide)).1 (-1) (by decide)
    (by norm_num [show (-1 : Int64).toInt = -1 from rfl, show (-3 : Int64).toInt = -3 from rfl])
  exact ⟨hleast, hover, hzero, hnegative.2⟩

/-- The power of `1` with the exponent `2 ^ 32` is `1`, and is refused. -/
theorem power_of_one_refused :
    (1 : Int64).toInt ^ (0x100000000 : Int64).toInt.toNat = 1 ∧ Fits 1 ∧
    ∀ name ∈ ["**", "^"], FunctionTable.standard.apply? name [.int 1, .int 0x100000000] =
      some (.error (.arithmetic (.exponentTooLarge 0x100000000))) := by
  refine ⟨one_pow _, by unfold Fits; omega, ?_⟩
  rintro name hname
  rcases List.mem_pair.mp hname with rfl | rfl <;> rfl

end Grounding
