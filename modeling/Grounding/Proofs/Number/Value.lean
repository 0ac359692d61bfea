import Mathlib.Algebra.Order.Field.Basic
import Mathlib.Algebra.Order.Ring.Rat
import Mathlib.Data.Rat.Cast.Order
import Mathlib.Order.WithBot
import Mathlib.Tactic.FieldSimp
import Mathlib.Tactic.NormNum
import Mathlib.Tactic.Ring
import Grounding.Number.Order

/-!
# The value of a number

Every number that is not a NaN has a place on the line of the rationals with an end on each side. In
units of `2 ^ -1074` this place is an integer, also for the infinities when they stand where the
next float after the largest one would.

The arithmetic comparison of two floats or of two integers is the order of their values. An integer
is compared with a float through the nearest float, and rounding keeps the order but can make a
difference disappear: then the comparison says that different values are the same.
-/

namespace Grounding

theorem compare_congr {α β : Type} [LinearOrder α] [LinearOrder β] {a b : α} {c d : β}
    (hlt : a < b ↔ c < d) (hgt : b < a ↔ d < c) : compare a b = compare c d := by
  rcases lt_trichotomy a b with h | h | h
  · rw [compare_lt_iff_lt.mpr h, compare_lt_iff_lt.mpr (hlt.mp h)]
  · rw [h, lt_self_iff_false, false_iff, not_lt] at hlt hgt
    rw [compare_eq_iff_eq.mpr h, compare_eq_iff_eq.mpr (le_antisymm hgt hlt)]
  · rw [compare_gt_iff_gt.mpr h, compare_gt_iff_gt.mpr (hgt.mp h)]

namespace Binary64

/-- The absolute value of a finite float, by the fields of its encoding. -/
def absValue (x : Binary64) : ℚ :=
  let exponent := x.magnitude / hiddenBit
  let fraction : ℚ := (x.magnitude % hiddenBit : Nat) / (2 : ℚ) ^ 52
  if exponent = 0 then 2 ^ (-1022 : ℤ) * fraction
  else 2 ^ ((exponent : ℤ) - 1023) * (1 + fraction)

/-- The value of a float that is not a NaN. -/
def value (x : Binary64) : WithBot (WithTop ℚ) :=
  if x.isInfinite then if x.negative then ⊥ else ⊤
  else ((if x.negative then -x.absValue else x.absValue : ℚ) : WithTop ℚ)

/-- The units of the float with these magnitude bits. -/
def unitsOf (m : Nat) : Nat :=
  (if m < hiddenBit then m else m % hiddenBit + hiddenBit) <<< (m / hiddenBit - 1)

variable {m n e s : Nat} {x y : Binary64} {z : Int}

theorem units_eq_unitsOf (x : Binary64) : x.units = unitsOf x.magnitude := rfl

/-- A significand with its hidden bit, or one without at the lowest place. -/
theorem unitsOf_place (hs : s < 2 * hiddenBit) (he : e = 0 ∨ hiddenBit ≤ s) :
    unitsOf (e * hiddenBit + s) = s * 2 ^ e := by
  unfold unitsOf
  rw [Nat.shiftLeft_eq]
  unfold hiddenBit at *
  split
  · have he' : e = 0 := by omega
    subst he'
    congr 2 <;> omega
  · congr 2 <;> omega

/-- Every magnitude is a place and a significand. -/
theorem exists_place (m : Nat) : ∃ e s, m = e * hiddenBit + s ∧ s < 2 * hiddenBit ∧
    (e = 0 ∨ hiddenBit ≤ s) := by
  unfold hiddenBit
  by_cases h : m < 0x10000000000000
  · exact ⟨0, m, by omega, by omega, .inl rfl⟩
  · exact ⟨m / 0x10000000000000 - 1, m % 0x10000000000000 + 0x10000000000000, by omega, by omega,
      .inr (by omega)⟩

theorem lastPlace_place (hs : s < 2 * hiddenBit) (he : e = 0 ∨ hiddenBit ≤ s) :
    lastPlace (s * 2 ^ e) 1 = e := by
  unfold lastPlace
  rw [Nat.div_one]
  rw [show 2 * hiddenBit = 2 ^ 53 from rfl] at hs
  rw [show hiddenBit = 2 ^ 52 from rfl] at he
  rcases Nat.eq_zero_or_pos s with rfl | hpos
  · have he' : e = 0 := by omega
    rw [he']
    rfl
  have hne : s * 2 ^ e ≠ 0 := Nat.mul_ne_zero (by omega) (by positivity)
  rcases he with rfl | he
  · have := (Nat.log2_lt hne).mpr (show s * 2 ^ 0 < 2 ^ 53 by omega)
    omega
  · have hlog : (s * 2 ^ e).log2 = 52 + e := by
      rw [Nat.log2_eq_iff hne, Nat.pow_add, show 52 + e + 1 = 53 + e by omega, Nat.pow_add]
      exact ⟨Nat.mul_le_mul_right _ he, (Nat.mul_lt_mul_right (Nat.two_pow_pos e)).mpr hs⟩
    omega

theorem roundQuotient_mul {d : Nat} (hd : 0 < d) (q : Nat) : roundQuotient (q * d) d = q := by
  simp [roundQuotient, Nat.mul_div_cancel q hd, hd]

/-- Rounding the units of a float that is not a NaN gives it back. -/
theorem roundMagnitude_unitsOf (h : m ≤ infiniteMagnitude) : roundMagnitude (unitsOf m) 1 = m := by
  obtain ⟨e, s, rfl, hs, he⟩ := exists_place m
  simp only [roundMagnitude, unitsOf_place hs he, lastPlace_place hs he, Nat.one_shiftLeft,
    roundQuotient_mul (Nat.two_pow_pos e)]
  exact Nat.min_eq_left h

theorem unitsOf_lt_iff (hm : m ≤ infiniteMagnitude) (hn : n ≤ infiniteMagnitude) :
    unitsOf m < unitsOf n ↔ m < n := by
  have hlt {m n : Nat} (hm : m ≤ infiniteMagnitude) (hn : n ≤ infiniteMagnitude)
      (h : unitsOf m ≤ unitsOf n) : m ≤ n := by
    have hround := roundMagnitude_mono (d := 1) Nat.one_pos h
    rwa [roundMagnitude_unitsOf hm, roundMagnitude_unitsOf hn] at hround
  constructor
  · intro h
    refine Nat.lt_of_le_of_ne (hlt hm hn (Nat.le_of_lt h)) ?_
    rintro rfl
    exact Nat.lt_irrefl _ h
  · intro h
    by_contra hle
    exact absurd (hlt hn hm (Nat.not_lt.mp hle)) (Nat.not_le.mpr h)

/-- The magnitude that a number of units is rounded to, with its sign. -/
def roundKey (z : Int) : Int :=
  if z < 0 then -(roundMagnitude z.natAbs 1 : Int) else roundMagnitude z.natAbs 1

theorem roundKey_mono {y z : Int} (h : y ≤ z) : roundKey y ≤ roundKey z := by
  have mono {m n : Nat} (hmn : m ≤ n) : roundMagnitude m 1 ≤ roundMagnitude n 1 :=
    roundMagnitude_mono Nat.one_pos hmn
  unfold roundKey
  split <;> split
  · have := mono (m := z.natAbs) (n := y.natAbs) (by omega)
    omega
  · omega
  · omega
  · have := mono (m := y.natAbs) (n := z.natAbs) (by omega)
    omega

theorem valueKey_ofInt (z : Int) : (ofInt z).valueKey = roundKey (z * unitsPerOne) := by
  have h := roundMagnitude_lt (z.natAbs * unitsPerOne) 1
  have hunits : 0 < (unitsPerOne : Int) := by decide
  have hsign : z * unitsPerOne < 0 ↔ z < 0 := by
    constructor
    · exact fun h => neg_of_mul_neg_left h (by omega)
    · exact fun h => mul_neg_of_neg_of_pos h hunits
  simp only [valueKey, ofInt, ofRatio, negative_ofParts h, magnitude_ofParts h, roundKey, hsign,
    decide_eq_true_eq, Int.natAbs_mul, Int.natAbs_natCast]

theorem magnitude_le (h : x.isNaN = false) : x.magnitude ≤ infiniteMagnitude := by
  simpa [isNaN] using h

theorem roundKey_signedUnits (h : x.isNaN = false) : roundKey x.signedUnits = x.valueKey := by
  have hround := roundMagnitude_unitsOf (magnitude_le h)
  rw [← units_eq_unitsOf] at hround
  unfold roundKey signedUnits valueKey
  cases x.negative with
  | false => simp [hround]
  | true =>
    simp only [if_true, Int.natAbs_neg, Int.natAbs_natCast, hround]
    split
    · rfl
    · have hzero : x.units = 0 := by omega
      rw [hzero] at hround
      have : x.magnitude = 0 := by rw [← hround]; decide
      omega

/-- The floats that are no NaN stand in the order of their units. -/
theorem signedUnits_lt_iff (hx : x.isNaN = false) (hy : y.isNaN = false) :
    x.signedUnits < y.signedUnits ↔ x.valueKey < y.valueKey := by
  have hlt := unitsOf_lt_iff (magnitude_le hx) (magnitude_le hy)
  have hgt := unitsOf_lt_iff (magnitude_le hy) (magnitude_le hx)
  have hzx := unitsOf_lt_iff (n := x.magnitude) (Nat.zero_le _) (magnitude_le hx)
  have hzy := unitsOf_lt_iff (n := y.magnitude) (Nat.zero_le _) (magnitude_le hy)
  rw [show unitsOf 0 = 0 from rfl] at hzx hzy
  rw [← units_eq_unitsOf, ← units_eq_unitsOf] at hlt hgt
  rw [← units_eq_unitsOf] at hzx hzy
  unfold signedUnits valueKey
  cases x.negative <;> cases y.negative <;> simp only [if_true, if_false, Bool.false_eq_true] <;> omega

/-- Every integer up to `2 ^ 53` is a float. -/
theorem exists_unitsOf (h : n ≤ 2 ^ 53) : ∃ m ≤ infiniteMagnitude, unitsOf m = n * unitsPerOne := by
  rcases Nat.eq_zero_or_pos n with rfl | hpos
  · exact ⟨0, by decide, by decide⟩
  rcases Nat.eq_or_lt_of_le h with rfl | hlt
  · exact ⟨1075 * hiddenBit + hiddenBit, by decide, by decide⟩
  have hne : n ≠ 0 := by omega
  have hlog : n.log2 < 53 := (Nat.log2_lt hne).mpr hlt
  -- the significand is the integer, moved up until it has the hidden bit
  have hlow : hiddenBit ≤ n * 2 ^ (52 - n.log2) :=
    calc hiddenBit = 2 ^ (n.log2 + (52 - n.log2)) := by
          rw [Nat.add_sub_of_le (by omega)]
          rfl
      _ = 2 ^ n.log2 * 2 ^ (52 - n.log2) := Nat.pow_add ..
      _ ≤ n * 2 ^ (52 - n.log2) := Nat.mul_le_mul_right _ (Nat.log2_self_le hne)
  have hhigh : n * 2 ^ (52 - n.log2) < 2 * hiddenBit :=
    calc n * 2 ^ (52 - n.log2) < 2 ^ (n.log2 + 1) * 2 ^ (52 - n.log2) :=
          (Nat.mul_lt_mul_right (Nat.two_pow_pos _)).mpr Nat.lt_log2_self
      _ = 2 ^ (n.log2 + 1 + (52 - n.log2)) := (Nat.pow_add ..).symm
      _ = 2 * hiddenBit := by
          rw [show n.log2 + 1 + (52 - n.log2) = 53 by omega]
          rfl
  refine ⟨(1022 + n.log2) * hiddenBit + n * 2 ^ (52 - n.log2), ?_, ?_⟩
  · unfold hiddenBit at *
    unfold infiniteMagnitude
    omega
  · have hexp : 52 - n.log2 + (1022 + n.log2) = 1074 := by omega
    rw [unitsOf_place hhigh (.inr hlow), Nat.mul_assoc, ← Nat.pow_add, hexp,
      unitsPerOne, Nat.one_shiftLeft]

theorem signedUnits_ofInt (h : z.natAbs ≤ 2 ^ 53) : (ofInt z).signedUnits = z * unitsPerOne := by
  obtain ⟨m, hm, hunits⟩ := exists_unitsOf h
  have hlt := roundMagnitude_lt (z.natAbs * unitsPerOne) 1
  rw [signedUnits, units_eq_unitsOf, ofInt, ofRatio, negative_ofParts hlt, magnitude_ofParts hlt,
    ← hunits, roundMagnitude_unitsOf hm, hunits]
  simp only [decide_eq_true_eq, Nat.cast_mul]
  split
  · rw [← neg_mul]
    congr 1
    omega
  · congr 1
    omega

theorem cast_unitsPerOne : (unitsPerOne : ℚ) = 2 ^ 52 * 2 ^ 1022 := by
  have hshift (k : Nat) : ((1 <<< k : Nat) : ℚ) = 2 ^ k := by
    rw [Nat.one_shiftLeft, Nat.cast_pow, Nat.cast_ofNat]
  have hsplit : unitsPerOne = (1 <<< 52) * (1 <<< 1022) := rfl
  rw [hsplit, Nat.cast_mul, hshift, hshift]

theorem absValue_eq_units (x : Binary64) : x.absValue = (x.units : ℚ) / unitsPerOne := by
  obtain ⟨e, s, hm, hs, he⟩ := exists_place x.magnitude
  rw [units_eq_unitsOf, hm, unitsOf_place hs he, cast_unitsPerOne]
  unfold absValue
  unfold hiddenBit at *
  by_cases hsub : x.magnitude / 0x10000000000000 = 0
  · have he : e = 0 := by omega
    have hs : x.magnitude % 0x10000000000000 = s := by omega
    simp only [hsub, he, hs, if_true, pow_zero, Nat.mul_one, zpow_neg, zpow_ofNat]
    field_simp
  · have hs : s = x.magnitude % 0x10000000000000 + 2 ^ 52 := by omega
    have hexp : ((x.magnitude / 0x10000000000000 : Nat) : ℤ) - 1023 = (e : ℤ) - (1022 : ℕ) := by
      omega
    simp only [hsub, if_false, hexp, hs]
    rw [zpow_sub₀ two_ne_zero, zpow_natCast, zpow_natCast, Nat.cast_mul, Nat.cast_add,
      Nat.cast_pow, Nat.cast_pow, Nat.cast_ofNat]
    field_simp
    ring

theorem value_of_isInfinite (h : x.isInfinite = true) :
    x.value = if x.negative then ⊥ else ⊤ := if_pos h

theorem value_of_isFinite (h : x.isInfinite = false) :
    x.value = (((x.signedUnits : ℚ) / unitsPerOne : ℚ) : WithTop ℚ) := by
  rw [value, if_neg (by simp [h]), absValue_eq_units, signedUnits]
  split
  · rw [Int.cast_neg, Int.cast_natCast, neg_div]
  · rw [Int.cast_natCast]

end Binary64

namespace Number

def isNaN : Number → Bool
  | .int _ => false
  | .float x => x.isNaN

/-- The value of a number that is not a NaN. -/
def value : Number → WithBot (WithTop ℚ)
  | .int i => ((i.toInt : ℚ) : WithTop ℚ)
  | .float x => x.value

/-- The number in units of `2 ^ -1074`; an infinity stands where the next finite float would. -/
def units : Number → Int
  | .int i => i.toInt * Binary64.unitsPerOne
  | .float x => x.signedUnits

/-- The units at which the infinities stand. -/
def infiniteUnits : Nat := Binary64.unitsOf Binary64.infiniteMagnitude

variable {a b : Number}

/-- The values of numbers and their places in units of `2 ^ -1074`. -/
theorem value_cases (h : a.isNaN = false) :
    (a.value = ⊤ ∧ a.units = infiniteUnits) ∨ (a.value = ⊥ ∧ a.units = -infiniteUnits) ∨
    (a.value = (((a.units : ℚ) / Binary64.unitsPerOne : ℚ) : WithTop ℚ) ∧
      a.units.natAbs < infiniteUnits) := by
  cases a with
  | int i =>
    refine .inr (.inr ⟨?_, ?_⟩)
    · have hne : (Binary64.unitsPerOne : ℚ) ≠ 0 := by
        rw [Binary64.cast_unitsPerOne]
        positivity
      rw [value, units, Int.cast_mul, Int.cast_natCast, mul_div_cancel_right₀ _ hne]
    · have hbound : 0x8000000000000000 * Binary64.unitsPerOne < infiniteUnits := by decide
      have hle := i.le_toInt
      have hlt := i.toInt_lt
      rw [units, Int.natAbs_mul, Int.natAbs_natCast]
      exact Nat.lt_of_le_of_lt (Nat.mul_le_mul_right _ (by omega)) hbound
  | float x =>
    have hle := Binary64.magnitude_le h
    have hsign : x.signedUnits = x.units ∨ x.signedUnits = -x.units := by
      unfold Binary64.signedUnits
      split <;> simp
    cases hinf : x.isInfinite with
    | true =>
      have hunits : x.units = infiniteUnits := by
        rw [Binary64.units_eq_unitsOf, show x.magnitude = _ from of_decide_eq_true hinf]
        rfl
      rw [value, Binary64.value_of_isInfinite hinf, units, Binary64.signedUnits, hunits]
      cases x.negative <;> simp
    | false =>
      refine .inr (.inr ⟨Binary64.value_of_isFinite hinf, ?_⟩)
      have hmagnitude : x.magnitude < Binary64.infiniteMagnitude := by
        have := of_decide_eq_false hinf
        omega
      have hunits := (Binary64.unitsOf_lt_iff hle le_rfl).mpr hmagnitude
      rw [← Binary64.units_eq_unitsOf] at hunits
      rw [units]
      unfold infiniteUnits
      omega

/-- Values are ordered as their places are. -/
theorem value_lt_iff (ha : a.isNaN = false) (hb : b.isNaN = false) :
    a.value < b.value ↔ a.units < b.units := by
  have hpos : (0 : ℚ) < Binary64.unitsPerOne := by
    rw [Binary64.cast_unitsPerOne]
    positivity
  have hinf : 0 < infiniteUnits := by decide
  rcases value_cases ha with ⟨hva, hua⟩ | ⟨hva, hua⟩ | ⟨hva, hua⟩ <;>
    rcases value_cases hb with ⟨hvb, hub⟩ | ⟨hvb, hub⟩ | ⟨hvb, hub⟩ <;>
    rw [hva, hvb]
  case inl.inl | inl.inr.inl | inl.inr.inr => exact iff_of_false not_top_lt (by omega)
  case inr.inl.inr.inl | inr.inr.inr.inl => exact iff_of_false not_lt_bot (by omega)
  case inr.inl.inl => exact iff_of_true bot_lt_top (by omega)
  case inr.inl.inr.inr => exact iff_of_true (WithBot.bot_lt_coe _) (by omega)
  case inr.inr.inl =>
    exact iff_of_true (WithBot.coe_lt_coe.mpr (WithTop.coe_lt_top _)) (by omega)
  case inr.inr.inr.inr =>
    rw [WithBot.coe_lt_coe, WithTop.coe_lt_coe, div_lt_div_iff_of_pos_right hpos, Int.cast_lt]

theorem value_eq_iff (ha : a.isNaN = false) (hb : b.isNaN = false) :
    a.value = b.value ↔ a.units = b.units := by
  have hlt := value_lt_iff ha hb
  have hgt := value_lt_iff hb ha
  constructor
  · intro h
    rw [h, lt_self_iff_false, false_iff, not_lt] at hlt hgt
    exact le_antisymm hgt hlt
  · intro h
    rw [h, lt_self_iff_false, iff_false, not_lt] at hlt hgt
    exact le_antisymm hgt hlt

theorem compare_value (ha : a.isNaN = false) (hb : b.isNaN = false) :
    Ord.compare a.value b.value = Ord.compare a.units b.units :=
  compare_congr (value_lt_iff ha hb) (value_lt_iff hb ha)

/-- One of the numbers is an integer and the other one a float, and rounding the integer makes their
different values the same. -/
def Merges (a b : Number) : Prop :=
  a.isInt ≠ b.isInt ∧ a.toBinary64.value = b.toBinary64.value ∧ a.value ≠ b.value

instance (a b : Number) : Decidable (a.Merges b) := inferInstanceAs (Decidable (_ ∧ _ ∧ _))

theorem isNaN_toBinary64 (h : a.isNaN = false) : a.toBinary64.isNaN = false := by
  cases a with
  | int i =>
    refine decide_eq_false (Nat.not_lt.mpr ?_)
    rw [toBinary64, Binary64.ofInt, Binary64.ofRatio,
      Binary64.magnitude_ofParts (Binary64.roundMagnitude_lt _ _)]
    exact Nat.min_le_right _ _
  | float x => exact h

theorem roundKey_units (h : a.isNaN = false) :
    Binary64.roundKey a.units = a.toBinary64.valueKey := by
  cases a with
  | int i => exact (Binary64.valueKey_ofInt i.toInt).symm
  | float x => exact Binary64.roundKey_signedUnits h

theorem units_lt_of_valueKey_lt (ha : a.isNaN = false) (hb : b.isNaN = false)
    (h : a.toBinary64.valueKey < b.toBinary64.valueKey) : a.units < b.units := by
  rw [← roundKey_units ha, ← roundKey_units hb] at h
  by_contra hle
  exact absurd (Binary64.roundKey_mono (not_lt.mp hle)) (not_le.mpr h)

theorem value_eq_iff_valueKey {x y : Binary64} (hx : x.isNaN = false) (hy : y.isNaN = false) :
    x.value = y.value ↔ x.valueKey = y.valueKey := by
  have hlt := Binary64.signedUnits_lt_iff hx hy
  have hgt := Binary64.signedUnits_lt_iff hy hx
  have hvalue : x.value = y.value ↔ x.signedUnits = y.signedUnits :=
    value_eq_iff (a := .float x) (b := .float y) hx hy
  rw [hvalue]
  omega

/-- Beside a float a number is compared through its float. -/
theorem compareValue_toBinary64 (ha : a.isNaN = false) (hb : b.isNaN = false)
    (hfloat : a.isInt = false ∨ b.isInt = false) :
    a.compareValue b = some (Ord.compare a.toBinary64.valueKey b.toBinary64.valueKey) := by
  have hna := isNaN_toBinary64 ha
  have hnb := isNaN_toBinary64 hb
  have hcompare : a.compareValue b = a.toBinary64.compareValue b.toBinary64 := by
    cases a with
    | int i =>
      cases b with
      | int j => simp [isInt] at hfloat
      | float y => rfl
    | float x => rfl
  rw [hcompare, Binary64.compareValue, hna, hnb]
  rfl

theorem compareValue_of_merges (ha : a.isNaN = false) (hb : b.isNaN = false) (h : a.Merges b) :
    a.compareValue b = some .eq := by
  obtain ⟨hint, hvalue, -⟩ := h
  have hkey := (value_eq_iff_valueKey (isNaN_toBinary64 ha) (isNaN_toBinary64 hb)).mp hvalue
  have hfloat : a.isInt = false ∨ b.isInt = false := by
    cases hia : a.isInt
    · exact .inl rfl
    · exact .inr (by simpa [hia] using hint)
  rw [compareValue_toBinary64 ha hb hfloat, hkey, compare_eq_iff_eq.mpr rfl]

theorem Merges.symm (h : a.Merges b) : b.Merges a := ⟨h.1.symm, h.2.1.symm, h.2.2.symm⟩

/-- Unless two numbers merge, rounding keeps a difference between them. -/
theorem valueKey_lt_of_units_lt (ha : a.isNaN = false) (hb : b.isNaN = false)
    (hfloat : a.isInt = false ∨ b.isInt = false) (hmerges : ¬ a.Merges b) (h : a.units < b.units) :
    a.toBinary64.valueKey < b.toBinary64.valueKey := by
  have hround := Binary64.roundKey_mono (le_of_lt h)
  rw [roundKey_units ha, roundKey_units hb] at hround
  refine lt_of_le_of_ne hround fun hkey => ?_
  have hvalue : a.value ≠ b.value := fun hvalue => by
    have := (value_eq_iff ha hb).mp hvalue
    omega
  have hrounded :=
    (value_eq_iff_valueKey (isNaN_toBinary64 ha) (isNaN_toBinary64 hb)).mpr hkey
  by_cases hint : a.isInt = b.isInt
  · -- floats are not rounded
    cases a with
    | int i =>
      rw [← hint] at hfloat
      rcases hfloat with h | h <;> cases h
    | float x =>
      cases b with
      | int j => cases hint
      | float y => exact hvalue hrounded
  · exact hmerges ⟨hint, hrounded, hvalue⟩

/-- Numbers are compared by their values, unless rounding makes the values the same. -/
theorem compareValue_eq_compare_value (ha : a.isNaN = false) (hb : b.isNaN = false)
    (h : ¬ a.Merges b) : a.compareValue b = some (Ord.compare a.value b.value) := by
  rw [compare_value ha hb]
  by_cases hints : a.isInt = true ∧ b.isInt = true
  · cases a with
    | float x => cases hints.1
    | int i =>
      cases b with
      | float y => cases hints.2
      | int j =>
        have hpos : (0 : Int) < Binary64.unitsPerOne := by decide
        exact congrArg some (compare_congr (mul_lt_mul_iff_left₀ hpos).symm
          (mul_lt_mul_iff_left₀ hpos).symm)
  · have hfloat : a.isInt = false ∨ b.isInt = false := by simpa [imp_iff_not_or] using hints
    rw [compareValue_toBinary64 ha hb hfloat]
    exact congrArg some (compare_congr
      ⟨units_lt_of_valueKey_lt ha hb, valueKey_lt_of_units_lt ha hb hfloat h⟩
      ⟨units_lt_of_valueKey_lt hb ha, valueKey_lt_of_units_lt hb ha hfloat.symm
        fun hba => h hba.symm⟩)

/-- Only an integer beyond `2 ^ 53` can merge with a float. -/
theorem two_pow_lt_of_merges {i : Int64} (h : a.Merges b) (hi : a = .int i ∨ b = .int i) :
    2 ^ 53 < i.toInt.natAbs := by
  have key {b : Number} (h : (Number.int i).Merges b) : 2 ^ 53 < i.toInt.natAbs := by
    by_contra hle
    have hi : (Number.int i).isNaN = false := rfl
    have hvalue : (Number.int i).value = (Number.int i).toBinary64.value :=
      (value_eq_iff (b := .float (Number.int i).toBinary64) hi (isNaN_toBinary64 hi)).mpr
        (Binary64.signedUnits_ofInt (not_lt.mp hle)).symm
    obtain ⟨hint, hrounded, hne⟩ := h
    cases b with
    | int j => exact hint rfl
    | float y => exact hne (hvalue.trans hrounded)
  rcases hi with rfl | rfl
  · exact key h
  · exact key h.symm

end Number

end Grounding
