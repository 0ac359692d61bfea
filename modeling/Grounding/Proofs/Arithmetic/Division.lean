import Grounding.Proofs.Arithmetic.Integer

/-!
# Division of integers

Whether two integers divide without remainder is read off the checked remainder, and the checked
remainder exists exactly where the checked quotient does. So where the remainder is zero the
quotient fits the machine word, and division reports no overflow. The one exact quotient that does
not fit, that of the least integer by `-1`, has no checked remainder either: it counts as inexact
and becomes a float.
-/

namespace Grounding

open IntExpr

/-- What the function of this name, if the table has one for so many arguments, makes of them. -/
def FunctionTable.apply? (table : FunctionTable) (name : String) (args : List Number) :
    Option (Except Error Number) :=
  (table.find? name args.length).map (·.apply args)

namespace Binary64

/-- Only the integer zero becomes a zero. -/
theorem isZero_ofInt (z : Int) : (ofInt z).isZero = true ↔ z = 0 := by
  have hone : (ofInt 1).totalKey = 0x3ff0000000000000 := by decide +kernel
  have hneg : (ofInt (-1)).totalKey = -0x3ff0000000000001 := by decide +kernel
  have hkey : (ofInt z).isZero = true → (ofInt z).totalKey = 0 ∨ (ofInt z).totalKey = -1 := by
    intro h
    have hmagnitude : (ofInt z).magnitude = 0 := of_decide_eq_true h
    unfold totalKey
    rw [hmagnitude]
    split
    · exact .inr rfl
    · exact .inl rfl
  constructor
  · intro h
    rcases Int.lt_trichotomy z 0 with hlt | rfl | hgt
    · have hle := totalKey_ofInt_mono (y := z) (z := -1) (by omega)
      have := hkey h
      omega
    · rfl
    · have hle := totalKey_ofInt_mono (y := 1) (z := z) (by omega)
      have := hkey h
      omega
  · rintro rfl
    decide +kernel

end Binary64

namespace Number

variable {x y : Int64}

theorem word?_of_fits {z : Int} (h : Fits z) : word? z = some (Int64.ofInt z) := if_pos h

/-- A quotient truncated toward zero is in range, except that of the least integer by `-1`. -/
theorem fits_tdiv_iff (x : Int64) (hy : y.toInt ≠ 0) :
    Fits (x.toInt.tdiv y.toInt) ↔ ¬ (x = Int64.minValue ∧ y = -1) := by
  have hlow := x.le_toInt
  have hhigh := x.toInt_lt
  rw [← Int64.toInt_inj, ← Int64.toInt_inj, show Int64.minValue.toInt = -0x8000000000000000 from rfl,
    show (-1 : Int64).toInt = -1 from rfl, Fits]
  by_cases hone : y.toInt = 1
  · rw [hone, Int.tdiv_one]
    omega
  by_cases hneg : y.toInt = -1
  · rw [hneg, Int.tdiv_neg, Int.tdiv_one]
    omega
  have := natAbs_tdiv_le_half x.toInt (y := y.toInt) (by omega)
  omega

/-- The operands count as divisible where the quotient is exact and in range. -/
theorem remainder?_eq_some_zero_iff (hy : y.toInt ≠ 0) :
    remainder? x y = some 0 ↔ Fits (x.toInt.tdiv y.toInt) ∧ y.toInt ∣ x.toInt := by
  have hzero : word? (x.toInt.tmod y.toInt) = some 0 ↔ y.toInt ∣ x.toInt := by
    rw [word?_eq_some_iff, show (0 : Int64).toInt = 0 from rfl, Int.dvd_iff_tmod_eq_zero]
    refine ⟨fun h => h.2.symm, fun h => ⟨?_, h.symm⟩⟩
    rw [h, Fits]
    omega
  unfold remainder? quotient?
  rw [if_neg hy, Option.bind_eq_some_iff]
  constructor
  · rintro ⟨q, hq, hr⟩
    exact ⟨(word?_eq_some_iff.mp hq).1, hzero.mp hr⟩
  · rintro ⟨hfits, hdvd⟩
    exact ⟨_, word?_of_fits hfits, hzero.mpr hdvd⟩

theorem div_of_zero (x : Int64) (hy : y.toInt = 0) :
    div (.int x) (.int y) = fault .divisionByZero :=
  if_pos ((Binary64.isZero_ofInt _).mpr hy)

theorem div_of_ne_zero (x : Int64) (hy : y.toInt ≠ 0) : div (.int x) (.int y) =
    if remainder? x y = some 0 then
      match quotient? x y with
      | some q => .ok (.int q)
      | none => fault (.overflow x "/" y)
    else .ok (.float ((Binary64.ofInt x.toInt).div (.ofInt y.toInt))) :=
  if_neg (mt (Binary64.isZero_ofInt _).mp hy)

/-- An exact quotient in range is the result. -/
theorem div_of_exact {q : Int} (hy : y.toInt ≠ 0) (hx : x.toInt = y.toInt * q) (hq : Fits q) :
    ∃ i : Int64, i.toInt = q ∧ div (.int x) (.int y) = .ok (.int i) := by
  have htdiv : x.toInt.tdiv y.toInt = q := by
    rw [hx]
    exact Int.mul_tdiv_cancel_left q hy
  have hremainder : remainder? x y = some 0 :=
    (remainder?_eq_some_zero_iff hy).mpr ⟨htdiv.symm ▸ hq, q, hx⟩
  have hquotient : quotient? x y = some (Int64.ofInt q) := by
    unfold quotient?
    rw [if_neg hy, htdiv, word?_of_fits hq]
  refine ⟨Int64.ofInt q, toInt_of_word? (word?_of_fits hq), ?_⟩
  rw [div_of_ne_zero x hy, if_pos hremainder, hquotient]

/-- Operands that do not count as divisible are divided as floats. -/
theorem div_of_inexact (hy : y.toInt ≠ 0)
    (h : ¬ (Fits (x.toInt.tdiv y.toInt) ∧ y.toInt ∣ x.toInt)) :
    div (.int x) (.int y) = .ok (.float ((Binary64.ofInt x.toInt).div (.ofInt y.toInt))) := by
  rw [div_of_ne_zero x hy, if_neg (mt (remainder?_eq_some_zero_iff hy).mp h)]

end Number

theorem apply?_division (a b : Number) :
    FunctionTable.standard.apply? "/" [a, b] = some (Number.div a b) := rfl

/-- Division of two integers is an error by zero, the exact quotient where there is one in range,
and the quotient as floats where there is none. The least integer divided by `-1` is exact but not
in range, and becomes the float `2 ^ 63`. -/
theorem division_of_integers (x y : Int64) :
    (y = 0 → FunctionTable.standard.apply? "/" [.int x, .int y] =
      some (.error (.arithmetic .divisionByZero))) ∧
    (∀ q : Int, y ≠ 0 → x.toInt = y.toInt * q → Fits q →
      ∃ i : Int64, i.toInt = q ∧
        FunctionTable.standard.apply? "/" [.int x, .int y] = some (.ok (.int i))) ∧
    (∀ q : Int, y ≠ 0 → x.toInt = y.toInt * q → ¬ Fits q →
      (x = Int64.minValue ∧ y = -1) ∧
        FunctionTable.standard.apply? "/" [.int x, .int y] =
          some (.ok (.float ⟨0x43e0000000000000⟩))) ∧
    (y ≠ 0 → ¬ y.toInt ∣ x.toInt →
      FunctionTable.standard.apply? "/" [.int x, .int y] =
        some (.ok (.float ((Binary64.ofInt x.toInt).div (.ofInt y.toInt))))) := by
  have hne : y ≠ 0 → y.toInt ≠ 0 := mt fun h => Int64.toInt_inj.mp h
  simp only [apply?_division, Option.some.injEq]
  refine ⟨?zero, ?exact, ?least, ?inexact⟩
  case zero =>
    rintro rfl
    exact Number.div_of_zero x rfl
  case exact => exact fun q hy hx hq => Number.div_of_exact (hne hy) hx hq
  case least =>
    intro q hy hx hq
    have htdiv : x.toInt.tdiv y.toInt = q := by
      rw [hx]
      exact Int.mul_tdiv_cancel_left q (hne hy)
    obtain ⟨rfl, rfl⟩ : x = Int64.minValue ∧ y = -1 := by
      by_contra hother
      exact hq (htdiv ▸ (Number.fits_tdiv_iff x (hne hy)).mpr hother)
    refine ⟨⟨rfl, rfl⟩, ?_⟩
    rw [Number.div_of_inexact (hne hy) fun h => hq (htdiv ▸ h.1)]
    decide +kernel
  case inexact => exact fun hy hdvd => Number.div_of_inexact (hne hy) fun h => hdvd h.2

/-- The least integer has an exact half, and no exact third. -/
theorem division_of_least :
    (∃ i : Int64, i.toInt = -0x4000000000000000 ∧ FunctionTable.standard.apply? "/"
      [.int Int64.minValue, .int 2] = some (.ok (.int i))) ∧
    FunctionTable.standard.apply? "/" [.int Int64.minValue, .int 3] =
      some (.ok (.float ((Binary64.ofInt Int64.minValue.toInt).div (.ofInt 3)))) :=
  ⟨(division_of_integers Int64.minValue 2).2.1 (-0x4000000000000000) (by decide) (by decide)
    (by unfold Fits; decide),
    (division_of_integers Int64.minValue 3).2.2.2 (by decide) (by decide)⟩

/-- The exact quotient of the least integer by `-1` is `2 ^ 63`. It is out of range, and is not
reported as an overflow. -/
theorem division_leaves_integers :
    Int64.minValue.toInt = (-1 : Int64).toInt * 0x8000000000000000 ∧ ¬ Fits 0x8000000000000000 ∧
    FunctionTable.standard.apply? "/" [.int Int64.minValue, .int (-1)] =
      some (.ok (.float ⟨0x43e0000000000000⟩)) := by
  refine ⟨by decide, by unfold Fits; decide, ?_⟩
  decide +kernel

end Grounding
