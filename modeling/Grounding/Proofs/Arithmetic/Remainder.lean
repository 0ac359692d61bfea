import Grounding.Arithmetic.Operations

/-!
# Remainders in the machine word

A quotient truncated toward zero is at most half of the dividend unless the divisor is `1` or `-1`,
and by these the remainder is zero. So the checked remainder is the exact one wherever it exists,
and where the quotient does not fit the exact remainder is the zero that stands in for it. Adding
the divisor to a remainder of the other sign cannot leave the machine word.
-/

namespace Grounding.Number

variable {x y : Int64}

theorem toInt_ne_zero (hy : y ≠ 0) : y.toInt ≠ 0 := mt (fun h => Int64.toInt_inj.mp h) hy

theorem natAbs_tdiv_le_half (x : Int) {y : Int} (hy : 2 ≤ y.natAbs) :
    (x.tdiv y).natAbs ≤ x.natAbs / 2 := by
  rw [Int.natAbs_tdiv]
  exact Nat.div_le_div_left hy (by decide)

theorem natAbs_tmod_lt (x : Int) {y : Int} (hy : y ≠ 0) : (x.tmod y).natAbs < y.natAbs := by
  rw [Int.natAbs_tmod]
  exact Nat.mod_lt _ (Int.natAbs_pos.mpr hy)

/-- Where the quotient does not fit, the division has no remainder. -/
theorem tmod_eq_zero_of_word? (hword : word? (x.toInt.tdiv y.toInt) = none) :
    x.toInt.tmod y.toInt = 0 := by
  have hlow := x.le_toInt
  have hhigh := x.toInt_lt
  rcases Nat.lt_or_ge y.toInt.natAbs 2 with hsmall | hlarge
  · rcases (show y.toInt = 0 ∨ y.toInt = 1 ∨ y.toInt = -1 by omega) with hy | hy | hy
    · -- a quotient by zero is zero, and fits
      rw [hy, Int.tdiv_zero] at hword
      cases hword
    · rw [hy, Int.tmod_one]
    · rw [hy, Int.tmod_neg, Int.tmod_one]
  · have hhalf := natAbs_tdiv_le_half x.toInt hlarge
    unfold word? at hword
    split at hword
    · cases hword
    · omega

/-- The remainder is exact, also that of the least integer by `-1`. -/
theorem toInt_truncatedRemainder (x : Int64) (hy : y ≠ 0) :
    (truncatedRemainder x y).toInt = x.toInt.tmod y.toInt := by
  have hy0 := toInt_ne_zero hy
  unfold truncatedRemainder remainder? quotient?
  rw [if_neg hy0]
  cases hword : word? (x.toInt.tdiv y.toInt) with
  | none =>
    rw [tmod_eq_zero_of_word? hword]
    rfl
  | some q =>
    have hlt := natAbs_tmod_lt x.toInt hy0
    have hlow := y.le_toInt
    have hhigh := y.toInt_lt
    have hfits : word? (x.toInt.tmod y.toInt) = some (Int64.ofInt (x.toInt.tmod y.toInt)) :=
      if_pos (by omega)
    rw [Option.bind_some, hfits]
    exact toInt_of_word? hfits

/-- A remainder with the sign of the divisor from one with the sign of the dividend. -/
theorem fmod_eq_ite (x y : Int) : x.fmod y =
    if x.tmod y ≠ 0 ∧ ¬ (x.tmod y < 0 ↔ y < 0) then x.tmod y + y else x.tmod y := by
  rw [Int.fmod_eq_tmod]
  by_cases hdvd : y ∣ x
  · rw [if_pos hdvd, if_neg fun h => h.1 (Int.tmod_eq_zero_of_dvd hdvd), Int.add_zero]
  · have hsign := Int.sign_tmod x y
    rw [if_neg hdvd] at hsign ⊢
    have hnonzero : x.tmod y ≠ 0 := fun h => hdvd (Int.dvd_of_tmod_eq_zero h)
    have hneg : x.tmod y < 0 ↔ x < 0 := by
      rw [← Int.sign_eq_neg_one_iff_neg, hsign, Int.sign_eq_neg_one_iff_neg]
    simp only [hneg]
    split <;> split <;> split <;> omega

theorem toInt_flooredRemainder (x : Int64) (hy : y ≠ 0) :
    (flooredRemainder x y).toInt = x.toInt.fmod y.toInt := by
  have hy0 := toInt_ne_zero hy
  have hr := toInt_truncatedRemainder x hy
  have hlt := natAbs_tmod_lt x.toInt hy0
  have hlow := y.le_toInt
  have hhigh := y.toInt_lt
  unfold flooredRemainder
  dsimp only
  have hzero : truncatedRemainder x y ≠ 0 ↔ x.toInt.tmod y.toInt ≠ 0 := by
    rw [← hr]
    exact not_congr Int64.toInt_inj.symm
  have hneg : truncatedRemainder x y < 0 ↔ x.toInt.tmod y.toInt < 0 := by
    rw [← hr]
    exact Int64.lt_iff_toInt_lt
  have hyneg : y < 0 ↔ y.toInt < 0 := Int64.lt_iff_toInt_lt
  rw [fmod_eq_ite]
  simp only [hzero, hneg, hyneg]
  split
  · rw [Int64.toInt_add, hr]
    -- the two have different signs, so the sum lies between them
    exact Int.bmod_eq_of_le (by omega) (by omega)
  · exact hr

end Grounding.Number
