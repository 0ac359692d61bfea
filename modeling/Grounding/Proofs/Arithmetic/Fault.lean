import Grounding.Arithmetic.Standard
import Grounding.Proofs.Computation

/-!
# Faults of the standard functions

A standard function that gets as many numbers as its arity says either has a value or fails with a
fault of arithmetic, or because it was given a float where it takes integers.
-/

namespace Grounding

/-- The errors of a rule on numbers. -/
inductive Error.Arithmetical : Error → Prop
  | fault (fault : ArithmeticFault) : Arithmetical (.arithmetic fault)
  | expectsIntegers (name : String) (a b : Number) :
    Arithmetical (.incorrectArgument (.expectsIntegers name a b))

namespace Number

/-- The result is a number or an arithmetical error. -/
def FaultsOnly (r : Except Error Number) : Prop := ∀ e, r = .error e → e.Arithmetical

@[simp]
theorem faultsOnly_ok (n : Number) : FaultsOnly (.ok n) := fun _ h => by cases h

@[simp]
theorem faultsOnly_fault (f : ArithmeticFault) : FaultsOnly (fault f) :=
  fun _ h => by cases h; exact .fault f

theorem faultsOnly_fitting (name : String) (x y : Int64) (z : Int) :
    FaultsOnly (fitting name x y z) := by
  unfold fitting
  split <;> simp

theorem faultsOnly_fittingUnary (name : String) (x : Int64) (z : Int) :
    FaultsOnly (fittingUnary name x z) := by
  unfold fittingUnary
  split <;> simp

theorem faultsOnly_checked (name : String) (onInts : Int → Int → Int)
    (onFloats : Binary64 → Binary64 → Binary64) (a b : Number) :
    FaultsOnly (checked name onInts onFloats a b) := by
  unfold checked
  split
  · exact faultsOnly_fitting _ _ _ _
  · exact faultsOnly_ok _

theorem faultsOnly_div (a b : Number) : FaultsOnly (div a b) := by
  unfold div
  split
  · exact faultsOnly_fault _
  · split
    · split
      · split <;> simp
      · exact faultsOnly_ok _
    · exact faultsOnly_ok _

theorem faultsOnly_integral (name : String) {op : Int64 → Int64 → Except Error Number}
    (h : ∀ x y, FaultsOnly (op x y)) (a b : Number) : FaultsOnly (integral name op a b) := by
  unfold integral
  split
  · split
    · exact faultsOnly_fault _
    · exact h _ _
  · exact fun _ h => by cases h; exact .expectsIntegers name a b

theorem faultsOnly_intDiv (a b : Number) : FaultsOnly (intDiv a b) := by
  refine faultsOnly_integral "//" (fun x y => ?_) a b
  split <;> simp

theorem faultsOnly_neg (a : Number) : FaultsOnly (neg a) := by
  cases a with
  | int => exact faultsOnly_fittingUnary _ _ _
  | float => exact faultsOnly_ok _

theorem faultsOnly_abs (a : Number) : FaultsOnly (abs a) := by
  unfold abs
  split
  · exact faultsOnly_fittingUnary _ _ _
  · exact faultsOnly_ok _

theorem faultsOnly_sign (a : Number) : FaultsOnly (sign a) := by
  cases a <;> exact faultsOnly_ok _

theorem faultsOnly_toWhole (near : Binary64 → Int) (a : Number) : FaultsOnly (toWhole near a) := by
  cases a with
  | int => exact faultsOnly_ok _
  | float =>
    unfold toWhole
    dsimp only
    split
    · exact faultsOnly_ok _
    · exact faultsOnly_fault _

theorem faultsOnly_naturalPower (name : String) (base exponent : Int64) :
    FaultsOnly (naturalPower name base exponent) := by
  unfold naturalPower
  split
  · exact faultsOnly_fault _
  · split <;> simp

theorem faultsOnly_inversePower (name : String) (base exponent : Int64) :
    FaultsOnly (inversePower name base exponent) := by
  unfold inversePower
  split
  · exact faultsOnly_ok _
  · split
    · exact faultsOnly_ok _
    · split <;> simp

theorem faultsOnly_floatPower (name : String) (base exponent : Binary64) :
    FaultsOnly (floatPower name base exponent) := by
  unfold floatPower
  split
  · exact faultsOnly_fault _
  · dsimp only
    split <;> simp

theorem faultsOnly_power (name : String) (a b : Number) : FaultsOnly (power name a b) := by
  unfold power
  split
  · split
    · exact faultsOnly_naturalPower _ _ _
    · exact faultsOnly_floatPower _ _ _
  · exact faultsOnly_floatPower _ _ _

theorem faultsOnly_integerPower (name : String) (a b : Number) :
    FaultsOnly (integerPower name a b) := by
  unfold integerPower
  split
  · split
    · exact faultsOnly_naturalPower _ _ _
    · exact faultsOnly_inversePower _ _ _
  · exact faultsOnly_floatPower _ _ _

theorem faultsOnly_elementary (name : String) (domain : Binary64 → Bool)
    (value : Binary64 → Binary64) (a : Number) : FaultsOnly (elementary name domain value a) := by
  unfold elementary
  dsimp only
  split
  · exact faultsOnly_fault _
  · split <;> simp

end Number

open Number

/-- On as many numbers as the arity says, the function gives a number or an arithmetical error. -/
def ArithmeticFunction.Sound (function : ArithmeticFunction) : Prop :=
  ∀ numbers, numbers.length = function.arity → FaultsOnly (function.apply numbers)

namespace ArithmeticFunction

theorem sound_nullary (name : String) (value : Number) : (nullary name value).Sound := by
  intro numbers h
  obtain rfl := List.length_eq_zero_iff.mp h
  exact faultsOnly_ok value

theorem sound_unary {name : String} {rule : Number → Except Error Number}
    (h : ∀ a, FaultsOnly (rule a)) : (unary name rule).Sound := by
  intro numbers hlength
  obtain ⟨a, rfl⟩ := List.length_eq_one_iff.mp hlength
  exact h a

theorem sound_binary {name : String} {rule : Number → Number → Except Error Number}
    (h : ∀ a b, FaultsOnly (rule a b)) : (binary name rule).Sound := by
  intro numbers hlength
  obtain ⟨a, b, rfl⟩ := List.length_eq_two.mp hlength
  exact h a b

end ArithmeticFunction

namespace FunctionTable

open Grounding.ArithmeticFunction Grounding.GroundingM

theorem mem_functions_ofList {functions : List ArithmeticFunction} {function : ArithmeticFunction}
    (h : function ∈ (ofList functions).functions) : function ∈ functions := by
  have hregister (table : FunctionTable) (function : ArithmeticFunction) :
      (table.register function).functions ⊆ function :: table.functions :=
    List.cons_subset_cons function (List.filter_subset_self _)
  exact (mem_of_mem_foldl hregister h).resolve_left List.not_mem_nil

theorem sound_floatFunction (name : String) (domain : Binary64 → Bool)
    (value : Binary64 → Binary64) : (floatFunction name domain value).Sound :=
  sound_unary (faultsOnly_elementary name domain value)

theorem sound_standardFunctions : ∀ function ∈ standardFunctions, function.Sound := by
  have hchecked (name : String) (onInts : Int → Int → Int)
      (onFloats : Binary64 → Binary64 → Binary64) :
      (binary name (checked name onInts onFloats)).Sound := sound_binary (faultsOnly_checked _ _ _)
  have hremainder (name : String) (op : Int64 → Int64 → Int64) :
      (binary name (integral name fun x y => .ok (.int (op x y)))).Sound :=
    sound_binary (faultsOnly_integral name fun _ _ => faultsOnly_ok _)
  have htotal (name : String) (op : Number → Number → Number) :
      (binary name fun a b => .ok (op a b)).Sound := sound_binary fun _ _ => faultsOnly_ok _
  have hwhole (name : String) (near : Binary64 → Int) : (unary name (toWhole near)).Sound :=
    sound_unary (faultsOnly_toWhole near)
  simp only [standardFunctions, List.forall_mem_cons]
  refine ⟨hchecked "+" _ _, hchecked "-" _ _, hchecked "*" _ _, sound_binary faultsOnly_div,
    sound_binary faultsOnly_intDiv, hremainder "mod" _, hremainder "rem" _,
    sound_binary (faultsOnly_power _), sound_binary (faultsOnly_integerPower _),
    htotal "min" _, htotal "max" _, htotal "atan2" _,
    sound_unary faultsOnly_neg, sound_unary faultsOnly_ok, sound_unary faultsOnly_abs,
    sound_unary faultsOnly_sign, sound_unary fun _ => faultsOnly_ok _, ?_⟩
  refine ⟨sound_floatFunction _ _ _, sound_floatFunction _ _ _, sound_floatFunction _ _ _,
    sound_floatFunction _ _ _, sound_floatFunction _ _ _, sound_floatFunction _ _ _,
    sound_floatFunction _ _ _, sound_floatFunction _ _ _, sound_floatFunction _ _ _, ?_⟩
  exact ⟨hwhole "floor" _, hwhole "ceiling" _, hwhole "round" _, hwhole "truncate" _,
    hwhole "integer" _, sound_nullary _ _, sound_nullary _ _, sound_nullary _ _,
    sound_nullary _ _, List.forall_mem_nil _⟩

end FunctionTable

end Grounding
