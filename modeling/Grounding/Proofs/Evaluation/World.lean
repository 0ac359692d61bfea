import Mathlib.Data.List.Forall2
import Grounding.Evaluation.Basic
import Grounding.Proofs.Formula.World

/-!
# Evaluation in a world

In a world every expression has a plain list of values. `valuesIn` computes it with no guards and
without touching the formula: a function is applied to every choice of one value for each argument,
and a random variable has a value for each of its sites whose body holds in the world. It knows
neither cycles nor limits. The depth bounds the nesting of steps, and more depth never changes an
answer.
-/

namespace Grounding

namespace Formula

/-- The coordinates of the realization of this name; a realization that nobody fixed is a point. -/
def coordinatesOf (f : Formula) (name : String) : List Term :=
  match f.descriptor? name with
  | some d => d.coordinates
  | none => Term.coordinates name 1

def siteValue (f : Formula) (v : Term) (site : NodeId) : Value :=
  match f.probability? site with
  | none => .undefined
  | some distribution =>
    match pointMass? distribution with
    | some n => .number n
    | none => .symbolic (pointOrVector (f.coordinatesOf (realizationName v site)))

/-- The values of a random variable at the sites whose body holds in the world. -/
def realizedIn (f : Formula) (w : World) (v : Term) : Option (List Value) :=
  (f.sites? v).map fun sites =>
    (sites.filter fun site => f.holds w (f.body site)).map (f.siteValue v)

/-- The values whose guard holds in the world. -/
def present (f : Formula) (w : World) (vs : List GuardedValue) : List Value :=
  (vs.filter fun v => f.holds w v.guard).map (·.value)

end Formula

/-- The value of a function on one choice of operands: it is undefined if some operand is, numbers
are computed, and an application to anything else is left open. -/
def plainValue (function : ArithmeticFunction) (operands : List Value) : Except Error Value :=
  if .undefined ∈ operands then .ok .undefined
  else if ∀ v ∈ operands, v.number?.isSome then
    (function.apply (operands.filterMap Value.number?)).map .number
  else
    let terms := operands.filterMap Value.term?
    .ok (.symbolic (.symbolic function.name terms (Term.namesOf terms)))

/-- A function on every choice of one value for each operand. -/
def plainApplication (function : ArithmeticFunction) (operands : List (List Value)) :
    Option (List Value) :=
  (tuples operands).mapM fun tuple => (plainValue function tuple).toOption

/-- The values of all alternatives of a term, where `realized` gives those of the random variables.
-/
def plainAlternatives (c : Context) (realized next : Term → Option (List Value)) (t : Term) :
    Option (List Value) := do
  let alternatives ← (c.resolve t).toOption
  let values ← alternatives.mapM fun a => (realized a).or (next a)
  return values.flatten

/-- One step of evaluation without guards; `next` evaluates what the term leads to. -/
def plainStep (c : Context) (realized next : Term → Option (List Value)) (t : Term) :
    Option (List Value) :=
  match t with
  | .constant n => some [.number n]
  | .var _ => none
  | .symbolic .. | .density _ | .realized .. | .coordinate .. => some [.symbolic t]
  | .atom _ | .compound .. =>
    match c.functions.calledBy? t with
    | some function => do plainApplication function (← t.args.mapM next)
    | none => plainAlternatives c realized next t

/-- The values of an expression without guards, with a bound on the nesting of the steps. -/
def plainValues (c : Context) (realized : Term → Option (List Value)) :
    (depth : Nat) → Term → Option (List Value)
  | 0 => fun _ => none
  | depth + 1 => plainStep c realized (plainValues c realized depth)

def valuesIn (c : Context) (f : Formula) (w : World) : (depth : Nat) → Term → Option (List Value) :=
  plainValues c (f.realizedIn w)

theorem mapM_eq_some_iff {α β : Type} {k : α → Option β} {as : List α} {bs : List β} :
    as.mapM k = some bs ↔ List.Forall₂ (fun a b => k a = some b) as bs := by
  induction as generalizing bs with
  | nil => simp [eq_comm]
  | cons a as ih =>
    simp only [List.mapM_cons, Option.bind_eq_bind, Option.bind_eq_some_iff, ih,
      List.forall₂_cons_left_iff, Option.pure_def, Option.some.injEq]
    constructor
    · rintro ⟨b, hb, bs', hbs, rfl⟩
      exact ⟨b, bs', hb, hbs, rfl⟩
    · rintro ⟨b, bs', hb, hbs, rfl⟩
      exact ⟨b, hb, bs', hbs, rfl⟩

theorem mapM_mono {α β : Type} {k k' : α → Option β} (hk : ∀ a b, k a = some b → k' a = some b)
    {as : List α} {bs : List β} (h : as.mapM k = some bs) : as.mapM k' = some bs :=
  mapM_eq_some_iff.mpr ((mapM_eq_some_iff.mp h).imp hk)

/-- A traversal answers if every step does, and then with what the steps give. -/
theorem mapM_eq_ite {α β : Type} (k : α → Option β) (as : List α) :
    as.mapM k = if ∀ a ∈ as, (k a).isSome then some (as.filterMap k) else none := by
  induction as with
  | nil => simp
  | cons a as ih =>
    simp only [List.mapM_cons, ih, List.filterMap_cons, List.forall_mem_cons]
    cases k a with
    | none => simp
    | some b =>
      by_cases h : ∀ a ∈ as, (k a).isSome
      · rw [if_pos h, if_pos ⟨rfl, h⟩]
        rfl
      · rw [if_neg h, if_neg fun hall => h hall.2]
        rfl

/-- The evaluator puts a function on operands as it is to be put on them. -/
theorem ArithmeticFunction.onValues_eq_plainValue (function : ArithmeticFunction)
    (operands : List Value) : function.onValues operands = plainValue function operands := by
  have hundefined : operands.any Value.isUndefined ↔ .undefined ∈ operands := by
    rw [List.any_eq_true]
    constructor
    · rintro ⟨v, hv, hdefined⟩
      cases v with
      | undefined => exact hv
      | number | symbolic => cases hdefined
    · exact fun h => ⟨_, h, rfl⟩
  unfold onValues plainValue
  simp only [hundefined]
  split
  · rfl
  · rw [mapM_eq_ite]
    by_cases h : ∀ v ∈ operands, v.number?.isSome
    · simp only [if_pos h]
    · simp only [if_neg h, Term.mkSymbolic]

variable {c : Context} {realized next next' : Term → Option (List Value)} {t : Term}
  {vs : List Value}

theorem plainAlternatives_mono (hnext : ∀ t vs, next t = some vs → next' t = some vs)
    (h : plainAlternatives c realized next t = some vs) :
    plainAlternatives c realized next' t = some vs := by
  obtain ⟨alternatives, hresolve, h⟩ := Option.bind_eq_some_iff.mp h
  obtain ⟨values, hvalues, hvs⟩ := Option.bind_eq_some_iff.mp h
  have hvalues' : alternatives.mapM (fun a => (realized a).or (next' a)) = some values := by
    refine mapM_mono (fun a us ha => ?_) hvalues
    cases hr : realized a with
    | some _ => rw [hr] at ha; exact ha
    | none => rw [hr] at ha; exact hnext a us ha
  rw [plainAlternatives, hresolve, Option.bind_eq_bind, Option.bind_some, hvalues']
  exact hvs

theorem plainStep_callable (ht : t.isCallable) :
    plainStep c realized next t = match c.functions.calledBy? t with
      | some function => (t.args.mapM next).bind (plainApplication function)
      | none => plainAlternatives c realized next t := by
  cases t with
  | atom | compound => rfl
  | constant | var | symbolic | density | realized | coordinate => cases ht

theorem plainStep_mono (hnext : ∀ t vs, next t = some vs → next' t = some vs)
    (h : plainStep c realized next t = some vs) : plainStep c realized next' t = some vs := by
  by_cases ht : t.isCallable
  · rw [plainStep_callable ht] at h ⊢
    cases hf : c.functions.calledBy? t with
    | some function =>
      rw [hf] at h
      obtain ⟨operands, hoperands, happly⟩ := Option.bind_eq_some_iff.mp h
      exact Option.bind_eq_some_iff.mpr ⟨operands, mapM_mono hnext hoperands, happly⟩
    | none =>
      rw [hf] at h
      exact plainAlternatives_mono hnext h
  · cases t with
    | atom | compound => exact absurd rfl ht
    | constant | var | symbolic | density | realized | coordinate => exact h

/-- More depth never changes an answer. -/
theorem plainValues_stable {depth depth' : Nat} (hle : depth ≤ depth')
    (h : plainValues c realized depth t = some vs) : plainValues c realized depth' t = some vs := by
  induction depth generalizing depth' t vs with
  | zero => cases h
  | succ depth ih =>
    obtain ⟨k, rfl⟩ : ∃ k, depth' = k + 1 := ⟨depth' - 1, by omega⟩
    exact plainStep_mono (fun t vs ht => ih (by omega) ht) h

/-- Choosing among the elements with a property is choosing, and keeping the choices that consist
of such elements. -/
theorem tuples_filter {α : Type} (p : α → Bool) (operands : List (List α)) :
    tuples (operands.map (List.filter p)) = (tuples operands).filter (List.all · p) := by
  induction operands with
  | nil => rfl
  | cons xs xss ih =>
    rw [List.map_cons, tuples, tuples, ih, List.filter_flatMap]
    induction xs with
    | nil => rfl
    | cons x xs ihx =>
      rw [List.flatMap_cons, ← ihx, List.filter_cons]
      have hx : (((tuples xss).map (x :: ·)).filter (List.all · p)) =
          if p x then ((tuples xss).filter (List.all · p)).map (x :: ·) else [] := by
        rw [List.filter_map]
        cases hp : p x <;> simp [Function.comp_def, hp]
      rw [hx]
      split <;> simp

theorem tuples_map {α β : Type} (φ : α → β) (operands : List (List α)) :
    tuples (operands.map (List.map φ)) = (tuples operands).map (List.map φ) := by
  induction operands with
  | nil => rfl
  | cons xs xss ih =>
    rw [List.map_cons, tuples, tuples, ih, List.flatMap_map, List.map_flatMap]
    simp only [List.map_map, Function.comp_def, List.map_cons]

/-- The choices among the values present in a world are the values of the tuples present in it. -/
theorem tuples_present (f : Formula) (w : World) (operands : List (List GuardedValue)) :
    tuples (operands.map (f.present w)) =
      ((tuples operands).filter (List.all · fun v => f.holds w v.guard)).map
        (List.map (·.value)) := by
  rw [← tuples_filter, ← tuples_map, List.map_map]
  rfl

theorem present_flatten (f : Formula) (w : World) (vss : List (List GuardedValue)) :
    f.present w vss.flatten = (vss.map (f.present w)).flatten := by
  rw [Formula.present, List.filter_flatten, List.map_flatten, List.map_map]
  rfl

end Grounding
