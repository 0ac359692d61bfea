import Std.Data.ExtTreeSet
import Grounding.Number.Basic

/-!
# Terms

A term is ordinary logic data (numbers, atoms, compound terms, variables) or one of the four
symbolic forms. A symbolic form stands for a quantity that exists only once a continuous random
variable is realized. It names the realizations it depends on, and the evaluator carries it without
looking inside.

Lists are compound terms: cells with the functor `.` that end in the atom `[]`.
-/

namespace Grounding

/-- A finite set of names. -/
abbrev NameSet := Std.ExtTreeSet String

/-- A logic term, ordinary or symbolic. -/
inductive Term where
  | constant (value : Number)
  | atom (name : String)
  | compound (functor : String) (args : List Term)
  | var (name : String)
  /-- An expression left open, with the names of the realizations it depends on. -/
  | symbolic (functor : String) (args : List Term) (names : NameSet)
  /-- The density of the realization `name`. -/
  | density (name : String)
  /-- The distribution `functor(args)` realized under `name` as a point or vector. -/
  | realized (functor : String) (args : List Term) (name : String) (dimensions : Nat)
  /-- One coordinate of the value realized under `name`. -/
  | coordinate (name : String) (index : Nat)

namespace Term

def isVar : Term → Bool
  | .var _ => true
  | _ => false

/-- Whether the term is an atom or a compound term. -/
def isCallable : Term → Bool
  | .atom _ | .compound .. => true
  | _ => false

/-- Whether the term is one of the forms that the evaluator carries as they are. -/
def isSymbolic : Term → Bool
  | .symbolic .. | .density _ | .realized .. | .coordinate .. => true
  | _ => false

mutual

/-- Whether no variable occurs anywhere in the term. -/
def isGround : Term → Bool
  | .var _ => false
  | .compound _ args | .symbolic _ args _ | .realized _ args _ _ => allGround args
  | _ => true

/-- Whether every term of the list is ground. -/
def allGround : List Term → Bool
  | [] => true
  | t :: ts => t.isGround && allGround ts

end

def number? : Term → Option Number
  | .constant n => some n
  | _ => none

/-- The functor of a term with arguments; an atom is its own functor. -/
def functor? : Term → Option String
  | .atom f | .compound f _ | .symbolic f _ _ | .realized f _ _ _ => some f
  | _ => none

def args : Term → List Term
  | .compound _ args | .symbolic _ args _ | .realized _ args _ _ => args
  | _ => []

mutual

/-- The nesting depth of the arguments, counting the term itself. -/
def height : Term → Nat
  | .compound _ args | .symbolic _ args _ | .realized _ args _ _ => heights args + 1
  | _ => 1

/-- The greatest height in the list. -/
def heights : List Term → Nat
  | [] => 0
  | t :: ts => max t.height (heights ts)

end

theorem height_pos (t : Term) : 0 < t.height := by
  cases t <;> simp only [height] <;> omega

theorem height_le_heights {a : Term} {ts : List Term} (ha : a ∈ ts) : a.height ≤ heights ts := by
  induction ts with
  | nil => cases ha
  | cons t ts ih =>
    rw [heights]
    rcases List.mem_cons.mp ha with rfl | ha
    · omega
    · have := ih ha
      omega

theorem height_lt_of_mem_args {a t : Term} (ha : a ∈ t.args) : a.height < t.height := by
  cases t with
  | compound | symbolic | realized =>
    have hle := height_le_heights ha
    simp only [args, height] at hle ⊢
    omega
  | _ => cases ha

/-- The functor of a list cell. -/
def cellFunctor : String := "."

/-- The name of the atom that ends a list. -/
def nilName : String := "[]"

/-- The empty list. -/
def nil : Term := .atom nilName

/-- The list cell with this head and tail. -/
def cell (head tail : Term) : Term := .compound cellFunctor [head, tail]

/-- The proper list of these items. -/
def ofList (items : List Term) : Term := items.foldr cell nil

/-- The items of a proper list. -/
def list? : Term → Option (List Term)
  | .atom name => if name = nilName then some [] else none
  | .compound functor [head, tail] =>
    if functor = cellFunctor then tail.list?.map (head :: ·) else none
  | _ => none

def isList (t : Term) : Bool := t.list?.isSome

theorem list?_ofList (items : List Term) : (ofList items).list? = some items := by
  induction items with
  | nil => rfl
  | cons x xs ih =>
    show (if cellFunctor = cellFunctor then (ofList xs).list?.map (x :: ·) else none) = _
    rw [if_pos rfl, ih]
    rfl

/-- The items of a proper list are smaller than the list. -/
theorem sizeOf_lt_of_list? {t : Term} {items : List Term} (h : t.list? = some items) :
    sizeOf items < sizeOf t := by
  fun_induction list? t generalizing items with
  | case1 =>
    cases h
    rw [List.nil.sizeOf_spec, atom.sizeOf_spec]
    decide
  | case3 head tail ih =>
    obtain ⟨rest, hrest, rfl⟩ := Option.map_eq_some_iff.mp h
    have := ih hrest
    simp only [List.cons.sizeOf_spec, compound.sizeOf_spec]
    omega
  | case2 | case4 | case5 => cases h

mutual

/-- The names of the realizations the term depends on. -/
def names : Term → NameSet
  | .symbolic _ _ names => names
  | .density name | .realized _ _ name _ | .coordinate name _ => {name}
  | .compound _ args => namesOf args
  | .constant _ | .atom _ | .var _ => ∅

/-- The names of the realizations that some term of the list depends on. -/
def namesOf : List Term → NameSet
  | [] => ∅
  | t :: ts => t.names ∪ namesOf ts

end

/-- An expression left open; it depends on what its arguments depend on. -/
def mkSymbolic (functor : String) (args : List Term) : Term :=
  .symbolic functor args (namesOf args)

/-- The coordinates of the value realized under a name. -/
def coordinates (name : String) (dimensions : Nat) : List Term :=
  (List.range dimensions).map (.coordinate name)

/-- The coordinates of a realized value; no other term has any. -/
def dimensionValues : Term → List Term
  | .realized _ _ name dimensions => coordinates name dimensions
  | _ => []

/-- What kind of term this is, in words. -/
def kind : Term → String
  | .constant (.int _) => "Number (integer)"
  | .constant (.float _) => "Number (float)"
  | .atom _ => "Atom"
  | .compound .. => "Compound"
  | .var _ => "Variable"
  | .symbolic .. => "Symbolic expression"
  | .density _ => "Density"
  | .realized .. => "Realized value"
  | .coordinate .. => "Realized value dimension"

end Term

end Grounding
