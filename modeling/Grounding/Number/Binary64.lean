/-!
# Binary64 numbers

A float is kept as the 64 bits of its IEEE 754 encoding, so equality is equality of bits: the two
zeros differ and a NaN equals itself. Every finite float is a whole number of units of `2 ^ -1074`,
and all exact arithmetic of this library is done on those units in `Nat` and `Int`.

Two orders live here. `compareTotal` orders all bit patterns, with `-NaN` first and `NaN` last.
`compareValue` compares the numbers, treats the zeros as equal and leaves a NaN unordered.
-/

namespace Grounding

/-- An IEEE 754 binary64 number, given by its bits. -/
structure Binary64 where
  bits : UInt64
deriving DecidableEq

namespace Binary64

/-- The weight of the sign bit, `2 ^ 63`. -/
def signBit : Nat := 0x8000000000000000

/-- The weight of the hidden bit of a normal significand, `2 ^ 52`. -/
def hiddenBit : Nat := 0x10000000000000

/-- The bits below the sign bit, as a number. -/
def magnitude (x : Binary64) : Nat := x.bits.toNat % signBit

/-- Whether the sign bit is set. -/
def negative (x : Binary64) : Bool := signBit ≤ x.bits.toNat

/-- The magnitude bits of an infinity; larger ones belong to NaNs. -/
def infiniteMagnitude : Nat := 0x7ff0000000000000

/-- The float with the given sign and magnitude bits. -/
def ofParts (negative : Bool) (magnitude : Nat) : Binary64 :=
  ⟨UInt64.ofNat (magnitude + if negative then signBit else 0)⟩

def isNaN (x : Binary64) : Bool := infiniteMagnitude < x.magnitude

def isInfinite (x : Binary64) : Bool := x.magnitude = infiniteMagnitude

def isFinite (x : Binary64) : Bool := x.magnitude < infiniteMagnitude

def isZero (x : Binary64) : Bool := x.magnitude = 0

def zero : Binary64 := ⟨0⟩

def one : Binary64 := ⟨0x3ff0000000000000⟩

def infinity : Binary64 := ⟨0x7ff0000000000000⟩

/-- The quiet NaN with a clear sign bit. -/
def nan : Binary64 := ⟨0x7ff8000000000000⟩

/-- The NaN that an operation without a value produces: the quiet one with the sign bit set. -/
def invalid : Binary64 := ⟨0xfff8000000000000⟩

/-- Flips the sign bit, also of a NaN. -/
def neg (x : Binary64) : Binary64 := ofParts (!x.negative) x.magnitude

/-- Clears the sign bit, also of a NaN. -/
def abs (x : Binary64) : Binary64 := ofParts false x.magnitude

/-- The significand of a finite float, with the hidden bit of a normal one. -/
def significand (x : Binary64) : Nat :=
  if x.magnitude < hiddenBit then x.magnitude else x.magnitude % hiddenBit + hiddenBit

/-- The power of two by which the significand counts units of `2 ^ -1074`. -/
def scale (x : Binary64) : Nat := x.magnitude / hiddenBit - 1

/-- How many units of `2 ^ -1074` the absolute value of a finite float has. -/
def units (x : Binary64) : Nat := x.significand <<< x.scale

/-- The units of a finite float, with its sign. -/
def signedUnits (x : Binary64) : Int := if x.negative then -(x.units : Int) else x.units

/-- The number of units in one. -/
def unitsPerOne : Nat := 1 <<< 1074

/-- Whether a finite float is a whole number. -/
def isWhole (x : Binary64) : Bool := x.isFinite && x.units % unitsPerOne = 0

/-- The position of a bit pattern in the total order. -/
def totalKey (x : Binary64) : Int :=
  if x.negative then -(x.magnitude : Int) - 1 else x.magnitude

/-- Orders all bit patterns; the order of the numbers, refined by `-0` before `0`. -/
def compareTotal (x y : Binary64) : Ordering := compare x.totalKey y.totalKey

/-- The magnitude with its sign; equal for the two zeros and ordered as the numbers are. -/
def valueKey (x : Binary64) : Int := if x.negative then -(x.magnitude : Int) else x.magnitude

/-- Compares two numbers, unless one of them is a NaN. -/
def compareValue (x y : Binary64) : Option Ordering :=
  if x.isNaN || y.isNaN then none else some (compare x.valueKey y.valueKey)

/-- Whether the first number is below the second; never for a NaN. -/
def lt (x y : Binary64) : Bool := x.compareValue y = some .lt

/-- Whether the first number is not above the second; never for a NaN. -/
def le (x y : Binary64) : Bool := x.lt y || x.compareValue y = some .eq

theorem magnitude_lt (x : Binary64) : x.magnitude < signBit := Nat.mod_lt _ (by decide)

theorem toNat_bits (x : Binary64) :
    x.bits.toNat = x.magnitude + if x.negative then signBit else 0 := by
  have h := x.bits.toNat_lt
  simp only [magnitude, negative, decide_eq_true_eq]
  unfold signBit
  split <;> omega

/-- A float is its sign and its magnitude. -/
theorem eq_of_parts {x y : Binary64} (hs : x.negative = y.negative)
    (hm : x.magnitude = y.magnitude) : x = y := by
  have h : x.bits.toNat = y.bits.toNat := by rw [toNat_bits, toNat_bits, hs, hm]
  cases x; cases y; exact congrArg _ (UInt64.toNat_inj.1 h)

/-- Distinct floats stand at distinct positions of the total order. -/
theorem eq_of_totalKey_eq {x y : Binary64} (h : x.totalKey = y.totalKey) : x = y := by
  have hx := x.magnitude_lt
  have hy := y.magnitude_lt
  unfold totalKey at h
  apply eq_of_parts
  · cases hsx : x.negative <;> cases hsy : y.negative <;> simp_all <;> omega
  · cases hsx : x.negative <;> cases hsy : y.negative <;> simp_all <;> omega

theorem compareTotal_eq_iff {x y : Binary64} : x.compareTotal y = .eq ↔ x = y := by
  rw [compareTotal, Std.LawfulEqOrd.compare_eq_iff_eq]
  exact ⟨eq_of_totalKey_eq, fun h => h ▸ rfl⟩

end Binary64

end Grounding
