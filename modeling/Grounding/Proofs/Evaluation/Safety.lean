import Grounding.Proofs.Evaluation.Termination
import Grounding.Proofs.Invariant
import Grounding.Proofs.Term.Part

/-!
# What evaluation never comes to

A function is found under the number of the arguments, and each of them gives one operand of every
tuple. So a function is applied to as many numbers as its arity says: what its rule does on any
other number of them makes no difference to any evaluation. No operand of a tuple that is left open
is undefined, so the open expression has an argument for each operand. And an evaluation without
alternatives stays within the parts of the expression, so it comes to a variable only if there is
one in the expression.
-/

namespace Grounding

open GroundingM

variable {c : Context} {f g : Formula} {t : Term} {name : String} {n : Nat}

/-- The function with another rule for all numbers of arguments but its arity. -/
def ArithmeticFunction.beyond (other : List Number → Except Error Number)
    (function : ArithmeticFunction) : ArithmeticFunction :=
  { function with apply := fun numbers =>
      if numbers.length = function.arity then function.apply numbers else other numbers }

def FunctionTable.beyond (other : ArithmeticFunction → List Number → Except Error Number)
    (table : FunctionTable) : FunctionTable :=
  ⟨table.functions.map fun function => function.beyond (other function)⟩

def Context.beyond (other : ArithmeticFunction → List Number → Except Error Number) (c : Context) :
    Context := { c with functions := c.functions.beyond other }

variable {other : ArithmeticFunction → List Number → Except Error Number}
  {function : ArithmeticFunction}

namespace FunctionTable

theorem find?_beyond (table : FunctionTable) (name : String) (n : Nat) :
    (table.beyond other).find? name n =
      (table.find? name n).map fun function => function.beyond (other function) := by
  unfold find? beyond
  rw [List.find?_map]
  rfl

theorem knowsName_beyond (table : FunctionTable) (name : String) :
    (table.beyond other).knowsName name = table.knowsName name := by
  unfold knowsName beyond
  rw [List.any_map]
  rfl

theorem calledBy?_beyond (table : FunctionTable) (t : Term) : (table.beyond other).calledBy? t =
    (table.calledBy? t).map fun function => function.beyond (other function) := by
  cases t with
  | atom name => exact table.find?_beyond name 0
  | compound name args => exact table.find?_beyond name args.length
  | constant | var | symbolic | density | realized | coordinate => rfl

theorem arity_of_find? {table : FunctionTable} (h : table.find? name n = some function) :
    function.arity = n := by
  have hanswers := List.find?_some h
  unfold ArithmeticFunction.answersTo at hanswers
  simpa using (Bool.and_eq_true_iff.mp hanswers).2

/-- A called function has as many arguments as its arity says. -/
theorem arity_of_calledBy? {table : FunctionTable} (h : table.calledBy? t = some function) :
    t.args.length = function.arity := by
  cases t with
  | atom | compound => exact (arity_of_find? h).symm
  | constant | var | symbolic | density | realized | coordinate => cases h

theorem mem_of_calledBy? {table : FunctionTable} (h : table.calledBy? t = some function) :
    function ∈ table.functions := by
  cases t with
  | atom | compound => exact List.mem_of_find?_eq_some h
  | constant | var | symbolic | density | realized | coordinate => cases h

end FunctionTable

/-- A called function has one operand for each argument of the call. -/
theorem length_of_operands {k : Term → GroundingM (List GuardedValue)}
    {operands : List (List GuardedValue)} (hcalled : c.functions.calledBy? t = some function)
    (hrun : (t.args.mapM k).run f = some (.ok operands, g)) : operands.length = function.arity := by
  have hargs : List.Forall₂ (fun _ _ => True) t.args operands :=
    forall₂_of_run_mapM (fun _ _ _ _ _ => trivial) hrun
  rw [← hargs.length_eq, FunctionTable.arity_of_calledBy? hcalled]

theorem ArithmeticFunction.onValues_beyond {operands : List Value}
    (h : operands.length = function.arity) :
    (function.beyond (other function)).onValues operands = function.onValues operands := by
  unfold onValues beyond
  split
  · rfl
  · split
    · next numbers hnumbers =>
      dsimp only
      rw [if_pos ((mapM_eq_some_iff.mp hnumbers).length_eq.symm.trans h)]
    · rfl

theorem applyToOperands_beyond (settings : Settings) {operands : List (List GuardedValue)}
    (h : operands.length = function.arity) :
    applyToOperands settings (function.beyond (other function)) operands =
      applyToOperands settings function operands := by
  unfold applyToOperands
  congr 1
  funext _
  refine mapM_congr fun tuple htuple => ?_
  unfold applyToTuple
  have hlength : (tuple.map (·.value)).length = function.arity := by
    rw [List.length_map, length_of_mem_tuples htuple, h]
  rw [ArithmeticFunction.onValues_beyond hlength]

theorem evaluateStep_beyond {next next' : List Term → Term → GroundingM (List GuardedValue)}
    (h : ∀ resolving a, next' resolving a = next resolving a) (resolving : List Term) (t : Term) :
    evaluateStep (c.beyond other) next' resolving t = evaluateStep c next resolving t := by
  have hnext : next' = next := funext fun resolving => funext (h resolving)
  subst hnext
  have halternatives : realizationValues (c.beyond other) next' resolving t =
      realizationValues c next' resolving t := by
    have herror : notEvaluable (c.beyond other).functions t = notEvaluable c.functions t := by
      unfold notEvaluable
      simp only [Context.beyond, FunctionTable.knowsName_beyond]
    unfold realizationValues alternativeValues
    rw [herror]
    rfl
  by_cases ht : t.isCallable
  · rw [evaluateStep_callable ht, evaluateStep_callable ht]
    have hcalled : (c.beyond other).functions.calledBy? t =
        (c.functions.calledBy? t).map fun function => function.beyond (other function) :=
      c.functions.calledBy?_beyond t
    rw [hcalled]
    cases hcall : c.functions.calledBy? t with
    | none => exact halternatives
    | some function =>
      exact bind_congr_of_run fun f operands g hrun =>
        applyToOperands_beyond _ (length_of_operands hcall hrun)
  · cases t with
    | atom | compound => exact absurd rfl ht
    | constant | var | symbolic | density | realized | coordinate => rfl

/-- What functions do on other numbers of arguments than their arity makes no difference. -/
theorem evaluateWith_beyond (other : ArithmeticFunction → List Number → Except Error Number)
    (fuel : Nat) (resolving : List Term) (t : Term) :
    evaluateWith (c.beyond other) fuel resolving t = evaluateWith c fuel resolving t := by
  induction fuel generalizing resolving t with
  | zero => rfl
  | succ fuel ih => exact evaluateStep_beyond ih resolving t

theorem forall₂_filterMap {α β : Type} {k : α → Option β} {as : List α}
    (h : ∀ a ∈ as, (k a).isSome) : List.Forall₂ (fun a b => k a = some b) as (as.filterMap k) := by
  induction as with
  | nil => exact .nil
  | cons a as ih =>
    obtain ⟨ha, has⟩ := List.forall_mem_cons.mp h
    obtain ⟨b, hb⟩ := Option.isSome_iff_exists.mp ha
    rw [List.filterMap_cons_some hb]
    exact .cons hb (ih has)

/-- The function comes to the value on operands, as many as its arity says. If the value is left
open, each of the operands has a term, and these are the arguments. -/
structure ArithmeticFunction.Applied (function : ArithmeticFunction) (operands : List Value)
    (v : Value) : Prop where
  length : operands.length = function.arity
  onValues : function.onValues operands = .ok v
  symbolic : ∀ t, v = .symbolic t → ∃ terms : List Term,
    List.Forall₂ (fun operand a => operand.term? = some a) operands terms ∧
      terms.length = function.arity ∧ t = .mkSymbolic function.name terms

/-- An undefined operand makes the value undefined, so none is left where the value is left open. -/
theorem ArithmeticFunction.applied {operands : List Value} {v : Value}
    (hlength : operands.length = function.arity) (hv : function.onValues operands = .ok v) :
    function.Applied operands v where
  length := hlength
  onValues := hv
  symbolic t ht := by
    subst ht
    unfold ArithmeticFunction.onValues at hv
    split at hv
    · cases hv
    · next hdefined =>
      split at hv
      · next numbers _ =>
        cases hn : function.apply numbers with
        | error e => rw [hn] at hv; cases hv
        | ok n => rw [hn] at hv; cases hv
      · cases hv
        have hterm : ∀ operand ∈ operands, (operand.term?).isSome := by
          intro operand hoperand
          cases operand with
          | number | symbolic => rfl
          | undefined => exact absurd (List.any_eq_true.mpr ⟨_, hoperand, rfl⟩) hdefined
        have hterms := forall₂_filterMap hterm
        exact ⟨_, hterms, hterms.length_eq.symm.trans hlength, rfl⟩

theorem onValues_of_run_applyToTuple {tuple : List GuardedValue} {v : GuardedValue}
    (hrun : (applyToTuple function tuple).run f = some (.ok v, g)) :
    function.onValues (tuple.map (·.value)) = .ok v.value := by
  unfold applyToTuple at hrun
  rcases run_bind_cases hrun with ⟨_, -, he⟩ | ⟨guard, f₁, -, hvalue⟩
  · cases he
  rcases run_bind_cases hvalue with ⟨_, -, he⟩ | ⟨value, f₂, hvalue, hend⟩
  · cases he
  cases hend
  exact (eq_of_run_ofExcept hvalue).1

/-- There is one value for each tuple of operands, to which the function comes on this tuple. -/
theorem applied_of_run_applyToOperands {settings : Settings} {operands : List (List GuardedValue)}
    {vs : List GuardedValue} (hlength : operands.length = function.arity)
    (hrun : (applyToOperands settings function operands).run f = some (.ok vs, g)) :
    List.Forall₂ (fun tuple v => function.Applied (tuple.map (·.value)) v.value)
      (tuples operands) vs := by
  unfold applyToOperands at hrun
  rcases run_bind_cases hrun with ⟨_, -, he⟩ | ⟨size, f₁, -, hall⟩
  · cases he
  have hvalues := forall₂_of_run_mapM (fun _ _ _ _ => onValues_of_run_applyToTuple) hall
  have hlengths : ∀ tuple ∈ tuples operands, tuple.length = function.arity :=
    fun tuple htuple => (length_of_mem_tuples htuple).trans hlength
  refine ((List.forall₂_and_left _ _).mpr ⟨hlengths, hvalues⟩).imp fun tuple v h => ?_
  exact ArithmeticFunction.applied ((List.length_map _).trans h.1) h.2

/-- The values of a called function are those on the tuples of the operands, one operand for each
argument. -/
theorem evaluateWith_applied {fuel : Nat} {resolving : List Term} {vs : List GuardedValue}
    (hcalled : c.functions.calledBy? t = some function)
    (hrun : (evaluateWith c (fuel + 1) resolving t).run f = some (.ok vs, g)) :
    ∃ operands f', (t.args.mapM (evaluateWith c fuel resolving)).run f = some (.ok operands, f') ∧
      List.Forall₂ (fun tuple v => function.Applied (tuple.map (·.value)) v.value)
        (tuples operands) vs := by
  have ht : t.isCallable := by
    cases t with
    | atom | compound => rfl
    | constant | var | symbolic | density | realized | coordinate => cases hcalled
  rw [evaluateWith, evaluateStep_callable ht, hcalled] at hrun
  rcases run_bind_cases hrun with ⟨_, -, he⟩ | ⟨operands, f', hoperands, happly⟩
  · cases he
  exact ⟨operands, f', hoperands,
    applied_of_run_applyToOperands (length_of_operands hcalled hoperands) happly⟩

/-- The resolver leads from ground terms to ground terms only. -/
def Context.KeepsGround (c : Context) : Prop :=
  ∀ t as, t.isGround → c.resolve t = .ok as → ∀ a ∈ as, a.isGround

theorem Context.keepsGround_of_identity (h : c.resolve = Resolver.identity) : c.KeepsGround := by
  intro t as ht has
  rw [h] at has
  cases has
  exact List.forall_mem_singleton.mpr ht

/-- What evaluation reaches from a ground term is ground, so it is no variable. -/
theorem Context.Reached.isGround {s : Term} (hc : c.KeepsGround) (h : c.Reached f t s)
    (ht : t.isGround) : s.isGround := by
  induction h with
  | refl => exact ht
  | tail _ hleads ih =>
    cases hleads with
    | argument _ ha => exact Term.isGround_of_mem_args ih ha
    | alternative ha =>
      obtain ⟨-, -, as, has, ha, -, -⟩ := ha
      exact hc _ as ih has _ ha

/-- The variable that an error says is not instantiated. -/
def Error.unbound? : Error → Option String
  | .incorrectArgument (.unbound name) => some name
  | _ => none

/-- If the error is that of a variable, then the host gave it: the resolver for a ground term, or a
function for as many numbers as its arity says. -/
def Context.Blames (c : Context) (e : Error) : Prop :=
  e.unbound?.isSome → (∃ t, t.isGround ∧ c.resolve t = .error e) ∨
    ∃ function ∈ c.functions.functions, ∃ numbers,
      numbers.length = function.arity ∧ function.apply numbers = .error e

theorem blames_of_none {e : Error} (h : e.unbound? = none) : c.Blames e := by
  intro he
  rw [h] at he
  cases he

theorem realizedValues_blames (v : Term) : Raises c.Blames (realizedValues v) := by
  refine .get_bind fun g => ?_
  split
  · refine .mapM fun site _ => .get_bind fun g => ?_
    dsimp only
    split
    · exact .pure _
    · split
      · exact .pure _
      · refine (Raises.attempt fun g e he => ?_).bind fun _ => .pure _
        rcases Formula.newDescriptor_error (Formula.descriptorOf_error he) with rfl | ⟨p, rfl⟩
        · exact blames_of_none rfl
        · exact blames_of_none rfl
  · exact .throw (blames_of_none rfl)

theorem applyToOperands_blames (settings : Settings) {operands : List (List GuardedValue)}
    (hmem : function ∈ c.functions.functions) (hlength : operands.length = function.arity) :
    Raises c.Blames (applyToOperands settings function operands) := by
  refine .ofExcept_bind (fun e he => ?_) fun _ _ => .mapM fun tuple htuple => ?_
  · obtain ⟨size, rfl⟩ := checkProductSize_error he
    exact blames_of_none rfl
  · refine (Raises.update _).bind fun guard => .ofExcept_bind (fun e he _ => ?_) fun _ _ => .pure _
    obtain ⟨numbers, hnumbers, happly⟩ := ArithmeticFunction.onValues_error he
    rw [List.length_map, length_of_mem_tuples htuple, hlength] at hnumbers
    exact .inr ⟨function, hmem, numbers, hnumbers, happly⟩

theorem alternativeValues_blames {next : Term → GroundingM (List GuardedValue)} {a : Term}
    (hnext : Raises c.Blames (next a)) : Raises c.Blames (alternativeValues c next t a) := by
  refine .get_bind fun g => ?_
  split
  · exact realizedValues_blames a
  · split
    · refine .throw (blames_of_none ?_)
      rcases notEvaluable_cases c.functions t with ⟨name, n, h⟩ | h <;> rw [h] <;> rfl
    · exact hnext

/-- No evaluation of a ground term comes to a variable. -/
theorem evaluateWith_blames (hc : c.KeepsGround) (fuel : Nat) (resolving : List Term)
    (ht : t.isGround) : Raises c.Blames (evaluateWith c fuel resolving t) := by
  induction fuel generalizing resolving t with
  | zero => exact .outOfFuel
  | succ fuel ih =>
    rw [evaluateWith]
    by_cases hcallable : t.isCallable
    · rw [evaluateStep_callable hcallable]
      cases hcalled : c.functions.calledBy? t with
      | some function =>
        have hargs := Raises.mapM fun a ha => ih resolving (Term.isGround_of_mem_args ht ha)
        exact hargs.bind_of_run fun f operands g hrun => applyToOperands_blames _
          (FunctionTable.mem_of_calledBy? hcalled) (length_of_operands hcalled hrun)
      | none =>
        dsimp only
        unfold realizationValues
        split
        · exact .throw_bind (blames_of_none rfl)
        · refine .ofExcept_bind (fun e he _ => .inl ⟨t, ht, he⟩) fun as has => ?_
          refine (Raises.mapM fun a ha => alternativeValues_blames ?_).bind fun _ => .pure _
          exact ih (t :: resolving) (hc t as ht has a ha)
    · cases t with
      | atom | compound => exact absurd rfl hcallable
      | var => cases ht
      | constant | symbolic | density | realized | coordinate => exact .pure _

end Grounding
