import Grounding.Proofs.Evaluation.Meaning

/-!
# More fuel

Fuel bounds how deep the steps of an evaluation nest and has no other effect: what an evaluation
comes to within some fuel, an answer or an error, it comes to with more.
-/

namespace Grounding

open GroundingM

namespace GroundingM

variable {α β : Type} {x x' : GroundingM α}

/-- Whenever `x` comes to an end, `x'` comes to the same. -/
def Refines (x x' : GroundingM α) : Prop := ∀ f p, x.run f = some p → x'.run f = some p

namespace Refines

theorem refl (x : GroundingM α) : Refines x x := fun _ _ h => h

theorem bind {k k' : α → GroundingM β} (hx : Refines x x') (hk : ∀ a, Refines (k a) (k' a)) :
    Refines (x >>= k) (x' >>= k') := by
  intro f p hrun
  obtain ⟨r, h⟩ := p
  rcases run_bind_cases hrun with ⟨e, hxe, rfl⟩ | ⟨a, g, hxa, hka⟩
  · exact run_bind_error (hx f _ hxe) k'
  · rw [run_bind_ok (hx f _ hxa)]
    exact hk a g _ hka

theorem mapM {k k' : α → GroundingM β} (hk : ∀ a, Refines (k a) (k' a)) (xs : List α) :
    Refines (xs.mapM k) (xs.mapM k') := by
  induction xs with
  | nil => exact refl _
  | cons x xs ih =>
    rw [List.mapM_cons, List.mapM_cons]
    exact (hk x).bind fun b => ih.bind fun bs => refl _

end Refines

end GroundingM

variable {c : Context} {next next' : List Term → Term → GroundingM (List GuardedValue)}

theorem alternativeValues_refines {next next' : Term → GroundingM (List GuardedValue)} (t a : Term)
    (h : Refines (next a) (next' a)) :
    Refines (alternativeValues c next t a) (alternativeValues c next' t a) := by
  refine (Refines.refl get).bind fun g => ?_
  split
  · exact .refl _
  · split
    · exact .refl _
    · exact h

theorem evaluateStep_refines (h : ∀ resolving a, Refines (next resolving a) (next' resolving a))
    (resolving : List Term) (t : Term) :
    Refines (evaluateStep c next resolving t) (evaluateStep c next' resolving t) := by
  by_cases ht : t.isCallable
  · rw [evaluateStep_callable ht, evaluateStep_callable ht]
    cases c.functions.calledBy? t with
    | some function => exact (Refines.mapM (h resolving) _).bind fun _ => .refl _
    | none =>
      have hresolve : Refines (do
          let as ← ofExcept (c.resolve t)
          let values ← as.mapM (alternativeValues c (next (t :: resolving)) t)
          return values.flatten) (do
          let as ← ofExcept (c.resolve t)
          let values ← as.mapM (alternativeValues c (next' (t :: resolving)) t)
          return values.flatten) :=
        (Refines.refl _).bind fun as => (Refines.mapM (fun a =>
          alternativeValues_refines t a (h (t :: resolving) a)) as).bind fun _ => .refl _
      dsimp only
      unfold realizationValues
      split
      · exact (Refines.refl _).bind fun _ => hresolve
      · exact hresolve
  · cases t with
    | atom | compound => exact absurd rfl ht
    | _ => exact .refl _

/-- More fuel never changes what an evaluation comes to. -/
theorem evaluateWith_refines {fuel more : Nat} (h : fuel ≤ more) (resolving : List Term) (t : Term) :
    Refines (evaluateWith c fuel resolving t) (evaluateWith c more resolving t) := by
  induction fuel generalizing more resolving t with
  | zero => exact fun _ _ hrun => by cases hrun
  | succ fuel ih =>
    obtain ⟨more, rfl⟩ : ∃ n, more = n + 1 := ⟨more - 1, by omega⟩
    exact evaluateStep_refines (fun resolving a => ih (by omega) resolving a) resolving t

end Grounding
