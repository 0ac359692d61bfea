import Grounding.Number.Decimal
import Grounding.Number.Rounding

/-!
# Numbers

A number is a 64-bit integer or a float. Equality is structural: `1` and `1.0` are different
numbers. `compare` is the standard order of numbers as terms: by value, an integer before the float
of the same value. `compareValue` is the arithmetic comparison, which reads an integer as the
nearest float as soon as the other side is a float.
-/

namespace Grounding

/-- An integer constant or a float constant. -/
inductive Number where
  | int (value : Int64)
  | float (value : Binary64)
deriving DecidableEq

namespace Number

/-- The integer as a machine word, if it lies in `[-2 ^ 63, 2 ^ 63)`. -/
def word? (z : Int) : Option Int64 :=
  if -0x8000000000000000 ≤ z ∧ z < 0x8000000000000000 then some (Int64.ofInt z) else none

/-- The number as a float, an integer going to the nearest one. -/
def toBinary64 : Number → Binary64
  | .int i => .ofInt i.toInt
  | .float x => x

def isInt : Number → Bool
  | .int _ => true
  | .float _ => false

/-- The arithmetic comparison; a NaN compares with nothing. -/
def compareValue : Number → Number → Option Ordering
  | .int a, .int b => some (Ord.compare a.toInt b.toInt)
  | a, b => a.toBinary64.compareValue b.toBinary64

/-- The standard order: by value in the total order of floats, an integer before a float. -/
def compare : Number → Number → Ordering
  | .int a, .int b => Ord.compare a.toInt b.toInt
  | .float x, .float y => x.compareTotal y
  | .int a, .float y => ((Binary64.ofInt a.toInt).compareTotal y).then .lt
  | .float x, .int b => (x.compareTotal (.ofInt b.toInt)).then .gt

instance : Ord Number := ⟨compare⟩

/-- The text of a number: an integer in decimal, a whole float with all digits and `.0`, any other
float with the fewest digits that read back. -/
def text : Number → String
  | .int i => toString i.toInt
  | .float x => x.pointText

theorem toInt_of_word? {z : Int} {i : Int64} (h : word? z = some i) : i.toInt = z := by
  unfold word? at h
  split at h
  · obtain rfl := Option.some.inj h
    exact Int64.toInt_ofInt_of_le (by omega) (by omega)
  · cases h

theorem word?_toInt (i : Int64) : word? i.toInt = some i := by
  have h₁ := i.le_toInt
  have h₂ := i.toInt_lt
  simp only [word?]
  rw [if_pos (by omega), Int64.ofInt_toInt]

/-- The standard order tells any two different numbers apart. -/
theorem compare_eq_iff {a b : Number} : a.compare b = .eq ↔ a = b := by
  cases a <;> cases b <;>
    simp [compare, Binary64.compareTotal_eq_iff, Int64.toInt_inj, Ordering.then_eq_eq]

end Number

end Grounding
