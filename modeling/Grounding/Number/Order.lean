import Grounding.Number.Basic

/-!
# The order of numbers is lawful

Rounding to binary64 keeps the order of the numbers it rounds, so comparing an integer with a float
through the nearest float agrees with comparing integers by value. Hence `Number.compare` is a total
order in which only equal numbers compare equal.
-/

namespace Grounding

namespace Binary64

theorem negative_ofParts {s : Bool} {m : Nat} (h : m < signBit) : (ofParts s m).negative = s := by
  unfold signBit at h
  simp only [negative, ofParts, signBit, UInt64.toNat_ofNat']
  cases s <;> simp <;> omega

theorem magnitude_ofParts {s : Bool} {m : Nat} (h : m < signBit) : (ofParts s m).magnitude = m := by
  unfold signBit at h
  simp only [magnitude, ofParts, signBit, UInt64.toNat_ofNat']
  cases s <;> simp <;> omega

theorem roundQuotient_mono {m n d : Nat} (hd : 0 < d) (h : m ≤ n) :
    roundQuotient m d ≤ roundQuotient n d := by
  have hq : m / d ≤ n / d := Nat.div_le_div_right h
  have hm := Nat.div_add_mod m d
  have hn := Nat.div_add_mod n d
  have hmlt := Nat.mod_lt m hd
  have hnlt := Nat.mod_lt n hd
  simp only [roundQuotient]
  by_cases he : m / d = n / d
  · rw [he] at hm ⊢
    split <;> split <;> (try split) <;> (try split) <;> omega
  · have h1 : m / d + 1 ≤ n / d := by omega
    split <;> split <;> (try split) <;> (try split) <;> omega

theorem div_le_roundQuotient (n d : Nat) : n / d ≤ roundQuotient n d := by
  simp only [roundQuotient]
  split <;> (try split) <;> omega

theorem roundQuotient_le (n d : Nat) : roundQuotient n d ≤ n / d + 1 := by
  simp only [roundQuotient]
  split <;> (try split) <;> omega

theorem roundQuotient_le_two_mul_hiddenBit (n d : Nat) :
    roundQuotient n (d <<< lastPlace n d) ≤ 2 * hiddenBit := by
  refine Nat.le_trans (roundQuotient_le _ _) (Nat.succ_le_of_lt ?_)
  rw [show 2 * hiddenBit = 1 <<< 53 from rfl, Nat.shiftLeft_eq, Nat.shiftLeft_eq, Nat.one_mul,
    ← Nat.div_div_eq_div_mul, Nat.div_lt_iff_lt_mul (Nat.two_pow_pos _), ← Nat.pow_add]
  refine Nat.lt_of_lt_of_le Nat.lt_log2_self (Nat.pow_le_pow_right (by decide) ?_)
  simp only [lastPlace]
  omega

theorem hiddenBit_le_roundQuotient {n d : Nat} (h : 0 < lastPlace n d) :
    hiddenBit ≤ roundQuotient n (d <<< lastPlace n d) := by
  refine Nat.le_trans ?_ (div_le_roundQuotient _ _)
  rw [show hiddenBit = 1 <<< 52 from rfl, Nat.shiftLeft_eq, Nat.shiftLeft_eq, Nat.one_mul,
    ← Nat.div_div_eq_div_mul, Nat.le_div_iff_mul_le (Nat.two_pow_pos _), ← Nat.pow_add]
  have hq : n / d ≠ 0 := fun h0 => by simp [lastPlace, h0] at h
  refine Nat.le_trans (Nat.pow_le_pow_right (by decide) ?_) (Nat.log2_self_le hq)
  simp only [lastPlace] at h ⊢
  omega

theorem lastPlace_mono {m n d : Nat} (h : m ≤ n) : lastPlace m d ≤ lastPlace n d := by
  have hq : m / d ≤ n / d := Nat.div_le_div_right h
  simp only [lastPlace]
  by_cases h0 : m / d = 0
  · simp [h0]
  · have hpos : 0 < m / d := Nat.pos_of_ne_zero h0
    have hlog : (m / d).log2 ≤ (n / d).log2 :=
      (Nat.le_log2 (by omega)).2 (Nat.le_trans (Nat.log2_self_le h0) hq)
    omega

/-- Rounding keeps the order of the magnitudes. -/
theorem roundMagnitude_mono {m n d : Nat} (hd : 0 < d) (h : m ≤ n) :
    roundMagnitude m d ≤ roundMagnitude n d := by
  have key : lastPlace m d * hiddenBit + roundQuotient m (d <<< lastPlace m d) ≤
      lastPlace n d * hiddenBit + roundQuotient n (d <<< lastPlace n d) := by
    rcases Nat.eq_or_lt_of_le (lastPlace_mono (d := d) h) with he | hlt
    · rw [he]
      have hpos : 0 < d <<< lastPlace n d := by
        rw [Nat.shiftLeft_eq]
        exact Nat.mul_pos hd (Nat.two_pow_pos _)
      exact Nat.add_le_add_left (roundQuotient_mono hpos h) _
    · have h1 := roundQuotient_le_two_mul_hiddenBit m d
      have h2 := hiddenBit_le_roundQuotient (n := n) (d := d) (by omega)
      unfold hiddenBit at *
      omega
  simp only [roundMagnitude]
  omega

theorem roundMagnitude_lt (n d : Nat) : roundMagnitude n d < signBit :=
  Nat.lt_of_le_of_lt (Nat.min_le_right _ _) (by decide)

theorem totalKey_ofInt (z : Int) :
    (ofInt z).totalKey =
      if z < 0 then -(roundMagnitude (z.natAbs * unitsPerOne) 1 : Int) - 1
      else roundMagnitude (z.natAbs * unitsPerOne) 1 := by
  have h := roundMagnitude_lt (z.natAbs * unitsPerOne) 1
  simp only [totalKey, ofInt, ofRatio, negative_ofParts h, magnitude_ofParts h, decide_eq_true_eq]

/-- The floats nearest to two integers are in the order of the integers. -/
theorem totalKey_ofInt_mono {y z : Int} (h : y ≤ z) : (ofInt y).totalKey ≤ (ofInt z).totalKey := by
  have mono {a b : Nat} (hab : a ≤ b) :
      roundMagnitude (a * unitsPerOne) 1 ≤ roundMagnitude (b * unitsPerOne) 1 :=
    roundMagnitude_mono (by decide) (Nat.mul_le_mul_right _ hab)
  rw [totalKey_ofInt, totalKey_ofInt]
  split <;> split
  · have := mono (a := z.natAbs) (b := y.natAbs) (by omega)
    omega
  · omega
  · omega
  · have := mono (a := y.natAbs) (b := z.natAbs) (by omega)
    omega

end Binary64

namespace Number

/-- The position of the number among the floats, the first part of its place in the order. -/
def roundedKey : Number → Int
  | .int i => (Binary64.ofInt i.toInt).totalKey
  | .float x => x.totalKey

/-- The second part: integers by value, and a float after every integer. -/
def tieKey : Number → Int
  | .int i => i.toInt
  | .float _ => 0x8000000000000000

theorem swap_compare (a b : Number) : (a.compare b).swap = b.compare a := by
  cases a <;> cases b <;>
    simp [compare, Binary64.compareTotal, Ordering.swap_then, ← Std.OrientedOrd.eq_swap]

theorem compare_eq_lt_iff {a b : Number} :
    a.compare b = .lt ↔
      a.roundedKey < b.roundedKey ∨ a.roundedKey = b.roundedKey ∧ a.tieKey < b.tieKey := by
  cases a with
  | int i =>
    cases b with
    | int j =>
      simp only [compare, roundedKey, tieKey, Std.compare_eq_lt]
      rcases Int.lt_or_le i.toInt j.toInt with h | h
      · have := Binary64.totalKey_ofInt_mono (Int.le_of_lt h)
        omega
      · have := Binary64.totalKey_ofInt_mono h
        omega
    | float y =>
      have := i.toInt_lt
      simp only [compare, roundedKey, tieKey, Binary64.compareTotal, Ordering.then_eq_lt,
        Std.compare_eq_lt, Std.LawfulEqOrd.compare_eq_iff_eq, and_true]
      omega
  | float x =>
    cases b with
    | int j =>
      have := j.toInt_lt
      simp only [compare, roundedKey, tieKey, Binary64.compareTotal, Ordering.then_eq_lt,
        Std.compare_eq_lt, reduceCtorEq, and_false, or_false]
      omega
    | float y => simp [compare, roundedKey, tieKey, Binary64.compareTotal, Std.compare_eq_lt]

theorem compare_lt_trans {a b c : Number} (hab : a.compare b = .lt) (hbc : b.compare c = .lt) :
    a.compare c = .lt := by
  rw [compare_eq_lt_iff] at *
  omega

end Number

end Grounding
