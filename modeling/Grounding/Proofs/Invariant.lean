import Grounding.Proofs.Computation

/-!
# Computations under an invariant

A computation maintains an invariant of the formula if every run that starts with it ends with it,
also when the run fails, and every answer has a stated property. The invariant is at hand wherever
the computation reads the formula. `Raises` says of which errors a run can fail, from any formula.
-/

namespace Grounding.GroundingM

variable {α β : Type} {I : Formula → Prop} {Q Q' : α → Prop} {R : β → Prop}

/-- From every formula with `I` the computation comes to formulas with `I`, and answers with `Q`. -/
def Maintains (I : Formula → Prop) (m : GroundingM α) (Q : α → Prop) : Prop :=
  ∀ f r g, I f → m.run f = some (r, g) → I g ∧ ∀ a, r = .ok a → Q a

namespace Maintains

theorem post {m : GroundingM α} (hm : Maintains I m Q) (hq : ∀ a, Q a → Q' a) :
    Maintains I m Q' := by
  intro f r g hf hrun
  obtain ⟨hg, ha⟩ := hm f r g hf hrun
  exact ⟨hg, fun a hr => hq a (ha a hr)⟩

theorem pure {a : α} (ha : Q a) : Maintains I (pure a) Q := by
  intro f r g hf hrun
  cases hrun
  exact ⟨hf, fun _ hr => by cases hr; exact ha⟩

theorem throw {e : Error} : Maintains I (throw e : GroundingM α) Q := by
  intro f r g hf hrun
  cases hrun
  exact ⟨hf, fun _ hr => by cases hr⟩

theorem throw_bind {e : Error} {k : β → GroundingM α} :
    Maintains I (MonadExcept.throw e >>= k) Q := by
  intro f r g hf hrun
  cases hrun
  exact ⟨hf, fun _ hr => by cases hr⟩

theorem outOfFuel : Maintains I (outOfFuel : GroundingM α) Q := by
  intro f r g _ hrun
  cases hrun

theorem ofExcept_bind {r : Except Error β} {k : β → GroundingM α}
    (hk : ∀ b, r = .ok b → Maintains I (k b) Q) :
    Maintains I (MonadExcept.ofExcept r >>= k) Q := by
  cases r with
  | ok b => exact hk b rfl
  | error e => exact throw_bind

theorem bind {x : GroundingM α} {k : α → GroundingM β} (hx : Maintains I x Q)
    (hk : ∀ a, Q a → Maintains I (k a) R) : Maintains I (x >>= k) R := by
  intro f r g hf hrun
  rcases run_bind_cases hrun with ⟨e, hxe, rfl⟩ | ⟨a, f', hxa, hka⟩
  · exact ⟨(hx _ _ _ hf hxe).1, fun _ hr => by cases hr⟩
  · obtain ⟨hf', ha⟩ := hx _ _ _ hf hxa
    exact hk a (ha a rfl) _ _ _ hf' hka

theorem get_bind {k : Formula → GroundingM α} (hk : ∀ f, I f → Maintains I (k f) Q) :
    Maintains I (get >>= k) Q := fun f r g hf hrun => hk f hf f r g hf hrun

theorem update {op : Formula → α × Formula} (hop : ∀ f, I f → I (op f).2 ∧ Q (op f).1) :
    Maintains I (update op) Q := by
  intro f r g hf hrun
  rw [run_update] at hrun
  cases hrun
  exact ⟨(hop f hf).1, fun _ hr => by cases hr; exact (hop f hf).2⟩

theorem attempt {op : Formula → Except Error (α × Formula)}
    (hop : ∀ f a g, I f → op f = .ok (a, g) → I g ∧ Q a) : Maintains I (attempt op) Q := by
  intro f r g hf hrun
  rw [run_attempt] at hrun
  cases hf' : op f with
  | error e =>
    rw [hf'] at hrun
    cases hrun
    exact ⟨hf, fun _ hr => by cases hr⟩
  | ok p =>
    rw [hf'] at hrun
    cases hrun
    obtain ⟨hg, ha⟩ := hop f _ _ hf hf'
    exact ⟨hg, fun _ hr => by cases hr; exact ha⟩

theorem mapM {k : α → GroundingM β} {xs : List α} (hk : ∀ x ∈ xs, Maintains I (k x) R) :
    Maintains I (xs.mapM k) fun bs => ∀ b ∈ bs, R b := by
  induction xs with
  | nil => exact pure (List.forall_mem_nil R)
  | cons x xs ih =>
    rw [List.mapM_cons]
    refine (hk x List.mem_cons_self).bind fun b hb => ?_
    refine (ih fun y hy => hk y (List.mem_cons_of_mem x hy)).bind fun bs hbs => ?_
    exact pure (List.forall_mem_cons.mpr ⟨hb, hbs⟩)

/-- Proper edits of the kind `P` maintain that the formula comes from `f` by such edits. -/
theorem of_follows {P : Edit → Prop} {f : Formula} {m : GroundingM α} (hm : Follows P m)
    (hq : Maintains (fun _ => True) m Q) : Maintains (fun g => f.Trail P g) m Q :=
  fun g _ h hfg hrun => ⟨hfg.trans (hm g _ h hrun), (hq g _ h trivial hrun).2⟩

end Maintains

variable {E : Error → Prop}

/-- Every error with which a run fails is one of `E`. -/
def Raises (E : Error → Prop) (m : GroundingM α) : Prop :=
  ∀ f e g, m.run f = some (.error e, g) → E e

namespace Raises

theorem pure (a : α) : Raises E (pure a : GroundingM α) := by
  intro f e g hrun
  cases hrun

theorem throw {e : Error} (he : E e) : Raises E (throw e : GroundingM α) := by
  intro f e' g hrun
  cases hrun
  exact he

theorem throw_bind {e : Error} {k : β → GroundingM α} (he : E e) :
    Raises E (MonadExcept.throw e >>= k) := by
  intro f e' g hrun
  cases hrun
  exact he

theorem outOfFuel : Raises E (outOfFuel : GroundingM α) := by
  intro f e g hrun
  cases hrun

theorem update (op : Formula → α × Formula) : Raises E (update op) := by
  intro f e g hrun
  cases hrun

theorem modify (op : Formula → Formula) : Raises E (modify op : GroundingM Unit) := by
  intro f e g hrun
  cases hrun

theorem attempt {op : Formula → Except Error (α × Formula)} (hop : ∀ f e, op f = .error e → E e) :
    Raises E (attempt op) := by
  intro f e g hrun
  rw [run_attempt] at hrun
  cases hf : op f with
  | error e' =>
    rw [hf] at hrun
    cases hrun
    exact hop f e hf
  | ok p =>
    rw [hf] at hrun
    cases hrun

/-- The second step only matters on the answers that the first one gives. -/
theorem bind_of_run {x : GroundingM α} {k : α → GroundingM β} (hx : Raises E x)
    (hk : ∀ f a g, x.run f = some (.ok a, g) → Raises E (k a)) : Raises E (x >>= k) := by
  intro f e g hrun
  rcases run_bind_cases hrun with ⟨e', hxe, he⟩ | ⟨a, f', hxa, hka⟩
  · cases he
    exact hx _ _ _ hxe
  · exact hk f a f' hxa _ _ _ hka

theorem bind {x : GroundingM α} {k : α → GroundingM β} (hx : Raises E x)
    (hk : ∀ a, Raises E (k a)) : Raises E (x >>= k) := hx.bind_of_run fun _ a _ _ => hk a

/-- The second step only has to bear what the first one answers. -/
theorem ofExcept_bind {r : Except Error β} {k : β → GroundingM α} (hr : ∀ e, r = .error e → E e)
    (hk : ∀ b, r = .ok b → Raises E (k b)) : Raises E (MonadExcept.ofExcept r >>= k) := by
  cases r with
  | ok b => exact hk b rfl
  | error e => exact throw_bind (hr e rfl)

theorem of_total {m : GroundingM α} (hm : Total m) : Raises E m := by
  intro f e g hrun
  obtain ⟨a, f', ha⟩ := hm f
  rw [ha] at hrun
  cases hrun

theorem get_bind {k : Formula → GroundingM α} (hk : ∀ f, Raises E (k f)) :
    Raises E (get >>= k) := fun f e g hrun => hk f f e g hrun

theorem mapM {k : α → GroundingM β} {xs : List α} (hk : ∀ x ∈ xs, Raises E (k x)) :
    Raises E (xs.mapM k) := by
  induction xs with
  | nil => exact pure []
  | cons x xs ih =>
    rw [List.mapM_cons]
    exact (hk x List.mem_cons_self).bind fun b =>
      (ih fun y hy => hk y (List.mem_cons_of_mem x hy)).bind fun bs => pure (b :: bs)

end Raises

end Grounding.GroundingM
