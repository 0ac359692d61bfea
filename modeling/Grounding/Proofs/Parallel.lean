import Grounding.Proofs.Computation

/-!
# Two runs side by side

Two computations are run, each on a formula of its own. They are parallel if they end alike: both
lack an answer, both fail with one error, or both answer. The formulas have grown on the way, are
related after the runs as they were before, and the answers are related in the formulas that are
left.

The rules follow the ways of building a computation. What relates two answers has to survive the
growth of both formulas, because later steps go on with the answers of earlier ones.
-/

namespace Grounding.GroundingM

variable {α α' β β' : Type} {R : Formula → Formula → Prop} {f f' : Formula}

/-- How two runs end that were started on `f` and `f'`. -/
inductive Ends (R : Formula → Formula → Prop) (f f' : Formula)
    (Q : α → α' → Formula → Formula → Prop) :
    Option (Except Error α × Formula) → Option (Except Error α' × Formula) → Prop
  | outOfFuel : Ends R f f' Q none none
  | error {g g' : Formula} (e : Error) (hg : f.Extends g) (hg' : f'.Extends g') (hr : R g g') :
      Ends R f f' Q (some (.error e, g)) (some (.error e, g'))
  | ok {a : α} {a' : α'} {g g' : Formula} (hg : f.Extends g) (hg' : f'.Extends g') (hr : R g g')
      (hq : Q a a' g g') : Ends R f f' Q (some (.ok a, g)) (some (.ok a', g'))

/-- From related formulas on, the two computations end alike. -/
def Parallel (R : Formula → Formula → Prop) (f f' : Formula) (x : GroundingM α)
    (y : GroundingM α') (Q : α → α' → Formula → Formula → Prop) : Prop :=
  R f f' → Ends R f f' Q (x.run f) (y.run f')

variable {Q : α → α' → Formula → Formula → Prop} {Q' : β → β' → Formula → Formula → Prop}

/-- What comes after runs from larger formulas comes after runs from smaller ones. -/
theorem Ends.mono {g g' : Formula} {p : Option (Except Error α × Formula)}
    {q : Option (Except Error α' × Formula)} (hfg : f.Extends g) (hfg' : f'.Extends g')
    (h : Ends R g g' Q p q) : Ends R f f' Q p q := by
  cases h with
  | outOfFuel => exact .outOfFuel
  | error e hg hg' hr => exact .error e (hfg.trans hg) (hfg'.trans hg') hr
  | ok hg hg' hr hq => exact .ok (hfg.trans hg) (hfg'.trans hg') hr hq

namespace Parallel

variable {x : GroundingM α} {y : GroundingM α'}

/-- If the first of two parallel runs answers, so does the second. -/
theorem answers (h : Parallel R f f' x y Q) (hr : R f f') {a : α} {g : Formula}
    (hrun : x.run f = some (.ok a, g)) :
    ∃ a' g', y.run f' = some (.ok a', g') ∧ f'.Extends g' ∧ R g g' ∧ Q a a' g g' := by
  have hends := h hr
  rw [hrun] at hends
  generalize hy : y.run f' = q at hends
  cases hends with
  | ok hg hg' hr hq => exact ⟨_, _, rfl, hg', hr, hq⟩

/-- A computation that is parallel to itself, seen as a single run. -/
theorem self {Q : α → α → Formula → Formula → Prop} (h : Parallel Eq f f x x Q) {a : α} {g : Formula}
    (hrun : x.run f = some (.ok a, g)) : Q a a g g := by
  obtain ⟨a', g', hrun', -, -, hq⟩ := h.answers rfl hrun
  rw [hrun] at hrun'
  cases hrun'
  exact hq

theorem post {Q'' : α → α' → Formula → Formula → Prop} (h : Parallel R f f' x y Q)
    (hq : ∀ a a' g g', f.Extends g → f'.Extends g' → R g g' → Q a a' g g' → Q'' a a' g g') :
    Parallel R f f' x y Q'' := by
  intro hr
  have hends := h hr
  generalize x.run f = p, y.run f' = q at hends ⊢
  cases hends with
  | outOfFuel => exact .outOfFuel
  | error e hg hg' hr => exact .error e hg hg' hr
  | ok hg hg' hr hqa => exact .ok hg hg' hr (hq _ _ _ _ hg hg' hr hqa)

/-- What every answer of the first computation satisfies can be added to what relates the answers.
-/
theorem and_left {P : α → Prop} (h : Parallel R f f' x y Q)
    (hp : ∀ a g, x.run f = some (.ok a, g) → P a) :
    Parallel R f f' x y fun a a' g g' => P a ∧ Q a a' g g' := by
  intro hr
  have hends := h hr
  generalize hx : x.run f = p, y.run f' = q at hends ⊢
  cases hends with
  | outOfFuel => exact .outOfFuel
  | error e hg hg' hr => exact .error e hg hg' hr
  | ok hg hg' hr hqa => exact .ok hg hg' hr ⟨hp _ _ hx, hqa⟩

theorem pure {a : α} {a' : α'} (hq : R f f' → Q a a' f f') :
    Parallel R f f' (pure a) (pure a') Q :=
  fun hr => .ok (.refl f) (.refl f') hr (hq hr)

theorem throw (e : Error) : Parallel R f f' (throw e) (throw e) Q :=
  fun hr => .error e (.refl f) (.refl f') hr

theorem outOfFuel : Parallel R f f' outOfFuel outOfFuel Q := fun _ => .outOfFuel

/-- Equal formulas, equal runs. -/
theorem of_follows {P : Edit → Prop} (hx : Follows P x) :
    Parallel Eq f f' x x fun a a' _ _ => a = a' := by
  rintro rfl
  cases hrun : x.run f with
  | none => exact .outOfFuel
  | some p =>
    obtain ⟨_ | a, g⟩ := p
    · exact .error _ (hx _ _ _ hrun).grows (hx _ _ _ hrun).grows rfl
    · exact .ok (hx _ _ _ hrun).grows (hx _ _ _ hrun).grows rfl rfl

theorem ofExcept_bind {r : Except Error β} {k : β → GroundingM α} {l : β → GroundingM α'}
    (hkl : ∀ b, r = .ok b → Parallel R f f' (k b) (l b) Q) :
    Parallel R f f' (ofExcept r >>= k) (ofExcept r >>= l) Q := by
  cases r with
  | error e => exact throw e
  | ok b => exact hkl b rfl

theorem get_bind {k : Formula → GroundingM α} {l : Formula → GroundingM α'}
    (hkl : R f f' → Parallel R f f' (k f) (l f') Q) :
    Parallel R f f' (get >>= k) (get >>= l) Q := fun hr => hkl hr hr

theorem update {op : Formula → α × Formula} {op' : Formula → α' × Formula}
    (hg : f.Extends (op f).2) (hg' : f'.Extends (op' f').2)
    (hop : R f f' → R (op f).2 (op' f').2 ∧ Q (op f).1 (op' f').1 (op f).2 (op' f').2) :
    Parallel R f f' (update op) (update op') Q :=
  fun hr => .ok hg hg' (hop hr).1 (hop hr).2

theorem modify {op op' : Formula → Formula} {Q : Unit → Unit → Formula → Formula → Prop}
    (hg : f.Extends (op f)) (hg' : f'.Extends (op' f'))
    (hop : R f f' → R (op f) (op' f') ∧ Q () () (op f) (op' f')) :
    Parallel R f f' (modify op) (modify op') Q :=
  fun hr => .ok hg hg' (hop hr).1 (hop hr).2

/-- Operations that fail with one error, or both come to a result. -/
theorem attempt {op : Formula → Except Error (α × Formula)}
    {op' : Formula → Except Error (α' × Formula)}
    (hop : R f f' → (∃ e, op f = .error e ∧ op' f' = .error e) ∨
      ∃ a g a' g', op f = .ok (a, g) ∧ op' f' = .ok (a', g') ∧ f.Extends g ∧ f'.Extends g' ∧
        R g g' ∧ Q a a' g g') :
    Parallel R f f' (attempt op) (attempt op') Q := by
  intro hr
  rw [run_attempt, run_attempt]
  rcases hop hr with ⟨e, he, he'⟩ | ⟨a, g, a', g', ha, ha', hg, hg', hgg', hq⟩
  · rw [he, he']
    exact .error e (.refl f) (.refl f') hr
  · rw [ha, ha']
    exact .ok hg hg' hgg' hq

theorem bind {k : α → GroundingM β} {l : α' → GroundingM β'} (hxy : Parallel R f f' x y Q)
    (hkl : ∀ a a' g g', f.Extends g → f'.Extends g' → Q a a' g g' →
      Parallel R g g' (k a) (l a') Q') :
    Parallel R f f' (x >>= k) (y >>= l) Q' := by
  intro hr
  have hends := hxy hr
  rw [run_bind, run_bind]
  generalize x.run f = p, y.run f' = q at hends ⊢
  cases hends with
  | outOfFuel => exact .outOfFuel
  | error e hg hg' hr => exact .error e hg hg' hr
  | ok hg hg' hr hq => exact (hkl _ _ _ _ hg hg' hq hr).mono hg hg'

/-- An operation of the second run only. -/
theorem update_right {op : Formula → β' × Formula} {l : β' → GroundingM α'}
    (hg' : f'.Extends (op f').2) (hop : R f f' → R f (op f').2)
    (hl : Parallel R f (op f').2 x (l (op f').1) Q) :
    Parallel R f f' x (GroundingM.update op >>= l) Q :=
  fun hr => (hl (hop hr)).mono (.refl f) hg'

/-- The computations that handle an error start from what the failing ones have left. -/
theorem tryCatch {k : Error → GroundingM α} {l : Error → GroundingM α'}
    (hxy : Parallel R f f' x y Q)
    (hkl : ∀ e g g', f.Extends g → f'.Extends g' → Parallel R g g' (k e) (l e) Q) :
    Parallel R f f' (tryCatch x k) (tryCatch y l) Q := by
  intro hr
  have hends := hxy hr
  rw [run_tryCatch, run_tryCatch]
  generalize x.run f = p, y.run f' = q at hends ⊢
  cases hends with
  | outOfFuel => exact .outOfFuel
  | error e hg hg' hr => exact (hkl e _ _ hg hg' hr).mono hg hg'
  | ok hg hg' hr hq => exact .ok hg hg' hr hq

/-- Traversals of related lists answer with related lists. -/
theorem mapM {T : α → α' → Prop} {k : α → GroundingM β} {l : α' → GroundingM β'} {as : List α}
    {as' : List α'} (has : List.Forall₂ T as as')
    (hkl : ∀ a a' g g', f.Extends g → f'.Extends g' → T a a' → Parallel R g g' (k a) (l a') Q')
    (hstable : ∀ b b' g g' h h', g.Extends h → g'.Extends h' → Q' b b' g g' → Q' b b' h h') :
    Parallel R f f' (as.mapM k) (as'.mapM l) fun bs bs' g g' =>
      List.Forall₂ (fun b b' => Q' b b' g g') bs bs' := by
  induction has generalizing f f' with
  | nil => exact pure fun _ => .nil
  | cons ha _ ih =>
    rw [List.mapM_cons, List.mapM_cons]
    refine (hkl _ _ f f' (.refl f) (.refl f') ha).bind fun b b' g g' hg hg' hb => ?_
    refine (ih fun a a' h h' hh hh' => hkl a a' h h' (hg.trans hh) (hg'.trans hh')).bind
      fun bs bs' h h' hh hh' hbs => pure fun _ => ?_
    exact .cons (hstable b b' g g' h h' hh hh' hb) hbs

/-- Traversals of one list, with steps that are parallel for its members. -/
theorem mapM_same {k : α → GroundingM β} {l : α → GroundingM β'} {as : List α}
    (hkl : ∀ a ∈ as, ∀ g g', f.Extends g → f'.Extends g' → Parallel R g g' (k a) (l a) Q')
    (hstable : ∀ b b' g g' h h', g.Extends h → g'.Extends h' → Q' b b' g g' → Q' b b' h h') :
    Parallel R f f' (as.mapM k) (as.mapM l) fun bs bs' g g' =>
      List.Forall₂ (fun b b' => Q' b b' g g') bs bs' := by
  have has : List.Forall₂ (fun a a' => a = a' ∧ a ∈ as) as as :=
    List.forall₂_same.mpr fun a ha => ⟨rfl, ha⟩
  refine mapM has (fun a a' g g' hg hg' haa => ?_) hstable
  obtain ⟨rfl, ha⟩ := haa
  exact hkl a ha g g' hg hg'

end Parallel

end Grounding.GroundingM
