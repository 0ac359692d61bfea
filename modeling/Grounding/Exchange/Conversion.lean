import Grounding.Error
import Grounding.Exchange.NativeValue

/-!
# Conversion between terms and native values

Compound terms, atoms, numbers, lists and variables have counterparts on both sides. Strings and
dictionaries are no terms, and symbolic terms exist only inside of this library. A proper list of
cells becomes a native list.
-/

namespace Grounding

namespace NativeValue

mutual

/-- The term of a native value. -/
def toTerm : NativeValue → Except Error Term
  | .functor name args => (toTerms args).map (.compound name)
  | .atom name => .ok (.atom name)
  | .int value => .ok (.constant (.int value))
  | .float value => .ok (.constant (.float value))
  | .list items => (toTerms items).map .ofList
  | .var name => .ok (.var name)
  | value => .error (.conversion (.noTermForm value.kind value.shown))

/-- The terms of native values; the first that has none decides. -/
def toTerms : List NativeValue → Except Error (List Term)
  | [] => .ok []
  | v :: vs => do return (← v.toTerm) :: (← toTerms vs)

end

end NativeValue

namespace Term

mutual

/-- The native value of a term. Whether the term is a proper list is asked first, and its items are
converted one by one; any other cell is a functor like all others. -/
def toNative (t : Term) : Except Error NativeValue :=
  match _ : t.list? with
  | some items => (toNatives items).map .list
  | none =>
    match t with
    | .constant (.int value) => .ok (.int value)
    | .constant (.float value) => .ok (.float value)
    | .atom name => .ok (.atom name)
    | .compound functor args => (toNatives args).map (.functor functor)
    | .var name => .ok (.var name)
    | .symbolic .. | .density _ | .realized .. | .coordinate .. =>
      .error (.conversion (.noNativeForm t))
termination_by sizeOf t
decreasing_by
  · exact sizeOf_lt_of_list? ‹_›
  · simp only [compound.sizeOf_spec]
    omega

/-- The native values of terms; the first that has none decides. -/
def toNatives (ts : List Term) : Except Error (List NativeValue) :=
  match ts with
  | [] => .ok []
  | t :: ts => do return (← t.toNative) :: (← toNatives ts)
termination_by sizeOf ts
decreasing_by
  all_goals
    simp only [List.cons.sizeOf_spec]
    omega

end

/-- A proper list is converted item by item. -/
theorem toNative_of_list? {t : Term} {items : List Term} (h : t.list? = some items) :
    t.toNative = (toNatives items).map .list := by
  rw [toNative]
  split
  · next h' =>
    cases h.symm.trans h'
    rfl
  · next h' => cases h.symm.trans h'

/-- A compound term that is no proper list is converted argument by argument. -/
theorem toNative_of_not_list {functor : String} {args : List Term}
    (h : (compound functor args).list? = none) :
    (compound functor args).toNative = (toNatives args).map (.functor functor) := by
  rw [toNative]
  split
  · next h' => cases h.symm.trans h'
  · rfl

@[simp]
theorem toNative_int (value : Int64) : (constant (.int value)).toNative = .ok (.int value) := by
  rw [toNative]
  rfl

@[simp]
theorem toNative_float (value : Binary64) :
    (constant (.float value)).toNative = .ok (.float value) := by
  rw [toNative]
  rfl

@[simp]
theorem toNative_nil : nil.toNative = .ok (.list []) := by
  rw [toNative_of_list? (show nil.list? = some [] from rfl), toNatives]
  rfl

theorem toNative_atom {name : String} (h : name ≠ nilName) :
    (atom name).toNative = .ok (.atom name) := by
  have hlist : (atom name).list? = none := if_neg h
  rw [toNative]
  split
  · next h' => cases hlist.symm.trans h'
  · rfl

@[simp]
theorem toNative_var (name : String) : (var name).toNative = .ok (.var name) := by
  rw [toNative]
  rfl

theorem toNative_of_isSymbolic {t : Term} (h : t.isSymbolic) :
    t.toNative = .error (.conversion (.noNativeForm t)) := by
  rw [toNative]
  cases t with
  | symbolic | density | realized | coordinate => rfl
  | constant | atom | compound | var => cases h

@[simp]
theorem toNatives_nil : toNatives [] = .ok [] := by rw [toNatives]

end Term

end Grounding
