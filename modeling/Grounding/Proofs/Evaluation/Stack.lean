import Grounding.Proofs.Evaluation.Meaning

/-!
# The stack of terms being resolved

Evaluation hands the terms that are being resolved down to the steps it leads to. An evaluator may
as well keep them on one stack: it puts a term on before its alternatives are evaluated and takes it
off afterwards, whatever came of them. Both come to the same, and the stack is found again as it was
left, also when the evaluation fails.
-/

namespace Grounding

open GroundingM

/-- Computations with a stack of terms beside the formula. An error keeps both. -/
abbrev StackM := ExceptT Error (StateT (List Term) (StateT Formula Option))

namespace StackM

variable {α β : Type}

/-- A computation on the formula, which does not touch the stack. -/
def lift (m : GroundingM α) : StackM α := ExceptT.mk (StateT.lift m.run)

def push (t : Term) : StackM Unit := modify (t :: ·)

def pop : StackM Unit := modify List.tail

/-- What comes of a computation, be it an error, as an answer. -/
def observe (m : StackM α) : StackM (Except Error α) := ExceptT.lift m.run

section Evaluation

variable (c : Context) (next : Term → StackM (List GuardedValue))

def alternativeValues (t alternative : Term) : StackM (List GuardedValue) := do
  if (← lift get).isRandomVariable alternative then lift (realizedValues alternative)
  else if alternative = t then throw (notEvaluable c.functions t)
  else next alternative

/-- The term is on the stack while its alternatives are evaluated, and only then. -/
def realizationValues (t : Term) : StackM (List GuardedValue) := do
  if t ∈ (← get) then throw (.incorrectArgument (.cyclicRealization t))
  push t
  let result ← observe do
    let alternatives ← lift (ofExcept (c.resolve t))
    let values ← alternatives.mapM (alternativeValues c next t)
    return values.flatten
  pop
  lift (ofExcept result)

def evaluateStep (t : Term) : StackM (List GuardedValue) :=
  match t with
  | .constant n => return [.certain (.number n)]
  | .var name => throw (.incorrectArgument (.unbound name))
  | .symbolic .. | .density _ | .realized .. | .coordinate .. =>
    return [.certain (.symbolic t)]
  | .atom _ | .compound .. =>
    match c.functions.calledBy? t with
    | some function => do
      lift (applyToOperands c.settings function (← t.args.mapM next))
    | none => realizationValues c next t

/-- The guarded values of an expression, with the terms that are being resolved on the stack. -/
def evaluate : (fuel : Nat) → Term → StackM (List GuardedValue)
  | 0 => fun _ => lift outOfFuel
  | fuel + 1 => evaluateStep c (evaluate fuel)

end Evaluation

/-- With this stack the computation does what `x` does, and it leaves the stack as it was. -/
def Balanced (stack : List Term) (m : StackM α) (x : GroundingM α) : Prop :=
  ∀ f, (m.run.run stack).run f = (x.run f).map fun (r, g) => ((r, stack), g)

namespace Balanced

variable {stack : List Term} {m : StackM α} {x : GroundingM α}

theorem lift (x : GroundingM α) : Balanced stack (lift x) x := by
  intro f
  show (x.run f).bind _ = _
  cases x.run f <;> rfl

theorem pure (a : α) : Balanced stack (pure a) (pure a) := fun _ => rfl

theorem throw (e : Error) : Balanced stack (throw e : StackM α) (throw e) := fun _ => rfl

theorem get_bind {k : List Term → StackM α} (hk : Balanced stack (k stack) x) :
    Balanced stack (get >>= k) x := hk

theorem bind {k : α → StackM β} {l : α → GroundingM β} (hm : Balanced stack m x)
    (hk : ∀ a, Balanced stack (k a) (l a)) : Balanced stack (m >>= k) (x >>= l) := by
  intro f
  show ((m.run.run stack).run f).bind _ = _
  rw [hm f, run_bind]
  cases x.run f with
  | none => rfl
  | some p =>
    obtain ⟨e | a, g⟩ := p
    · rfl
    · exact hk a g

theorem mapM {k : α → StackM β} {l : α → GroundingM β} (hk : ∀ a, Balanced stack (k a) (l a))
    (xs : List α) : Balanced stack (xs.mapM k) (xs.mapM l) := by
  induction xs with
  | nil => exact pure []
  | cons x xs ih =>
    rw [List.mapM_cons, List.mapM_cons]
    exact (hk x).bind fun b => ih.bind fun bs => pure (b :: bs)

/-- Between `push` and `pop` the stack is one term higher, and the end of the computation, also an
error, waits for `pop`. -/
theorem push_pop {t : Term} (hm : Balanced (t :: stack) m x) :
    Balanced stack (do
      push t
      let result ← observe m
      pop
      StackM.lift (ofExcept result)) x := by
  intro f
  have hrun : ((do
      push t
      let result ← observe m
      pop
      StackM.lift (ofExcept result) : StackM α).run.run stack).run f =
        ((m.run.run (t :: stack)).run f).bind fun p =>
          ((StackM.lift (ofExcept p.1.1) : StackM α).run.run p.1.2.tail).run p.2 := by
    show (((m.run.run (t :: stack)).run f).bind _).bind _ = _
    cases (m.run.run (t :: stack)).run f <;> rfl
  rw [hrun, hm f]
  cases x.run f with
  | none => rfl
  | some p =>
    obtain ⟨_ | _, _⟩ := p <;> rfl

end Balanced

variable {c : Context} {stack : List Term}

theorem alternativeValues_balanced {next : Term → StackM (List GuardedValue)}
    {next' : Term → GroundingM (List GuardedValue)} (t a : Term)
    (h : Balanced stack (next a) (next' a)) :
    Balanced stack (alternativeValues c next t a) (Grounding.alternativeValues c next' t a) := by
  refine (Balanced.lift get).bind fun g => ?_
  split
  · exact .lift _
  · split
    · exact .throw _
    · exact h

theorem evaluateStep_callable {t : Term} (ht : t.isCallable)
    (next : Term → StackM (List GuardedValue)) : evaluateStep c next t =
      match c.functions.calledBy? t with
      | some function => do
        lift (applyToOperands c.settings function (← t.args.mapM next))
      | none => realizationValues c next t := by
  cases t with
  | atom | compound => rfl
  | constant | var | symbolic | density | realized | coordinate => cases ht

theorem realizationValues_balanced {next : Term → StackM (List GuardedValue)}
    {next' : List Term → Term → GroundingM (List GuardedValue)}
    (h : ∀ stack a, Balanced stack (next a) (next' stack a)) (t : Term) :
    Balanced stack (realizationValues c next t) (Grounding.realizationValues c next' stack t) := by
  have hall : Balanced stack (do
      push t
      let result ← observe do
        let alternatives ← lift (ofExcept (c.resolve t))
        let values ← alternatives.mapM (alternativeValues c next t)
        return values.flatten
      pop
      lift (ofExcept result)) (do
      let alternatives ← ofExcept (c.resolve t)
      let values ← alternatives.mapM (Grounding.alternativeValues c (next' (t :: stack)) t)
      return values.flatten) :=
    .push_pop <| (Balanced.lift _).bind fun as => (Balanced.mapM (fun a =>
      alternativeValues_balanced t a (h (t :: stack) a)) as).bind fun _ => .pure _
  refine .get_bind ?_
  unfold Grounding.realizationValues
  split
  · exact (Balanced.throw _).bind fun _ => hall
  · exact hall

theorem evaluateStep_balanced {next : Term → StackM (List GuardedValue)}
    {next' : List Term → Term → GroundingM (List GuardedValue)}
    (h : ∀ stack a, Balanced stack (next a) (next' stack a)) (t : Term) :
    Balanced stack (evaluateStep c next t) (Grounding.evaluateStep c next' stack t) := by
  by_cases ht : t.isCallable
  · rw [evaluateStep_callable ht, Grounding.evaluateStep_callable ht]
    cases c.functions.calledBy? t with
    | some function => exact (Balanced.mapM (h stack) _).bind fun _ => .lift _
    | none => exact realizationValues_balanced h t
  · cases t with
    | atom | compound => exact absurd rfl ht
    | var => exact .throw _
    | constant | symbolic | density | realized | coordinate => exact .pure _

/-- An evaluation on the stack comes to what it comes to when the stack is handed down, and leaves
the stack as it was. -/
theorem evaluate_balanced (fuel : Nat) (stack : List Term) (t : Term) :
    Balanced stack (evaluate c fuel t) (evaluateWith c fuel stack t) := by
  induction fuel generalizing stack t with
  | zero => exact .lift outOfFuel
  | succ fuel ih => exact evaluateStep_balanced ih t

end StackM

end Grounding
