import Mathlib.Data.List.Forall2
import Grounding.Evaluation.Computation
import Grounding.Proofs.Formula.Edit

/-!
# Running computations

A run of a `do` block splits into runs of its steps. The lemmas here say what each way of building a
computation does with a formula; a proof about a computation never looks below them.

`Follows` and `Performs` are the kinds of statement that are made about computations. A computation
follows a kind of edits if every run, also one that fails half way, changes the formula by proper
edits of this kind only. It performs them from one formula on if the edits fit, and an answer has a
stated property in the formula that the run leaves.
-/

namespace Grounding.GroundingM

variable {α β : Type} {f g : Formula}

theorem run_get_bind (k : Formula → GroundingM α) (f : Formula) :
    (get >>= k).run f = (k f).run f := rfl

theorem run_ofExcept (r : Except Error α) (f : Formula) :
    (ofExcept r : GroundingM α).run f = some (r, f) := by
  cases r <;> rfl

theorem eq_of_run_ofExcept {r r' : Except Error α}
    (h : (ofExcept r : GroundingM α).run f = some (r', g)) : r = r' ∧ f = g := by
  rw [run_ofExcept] at h
  cases h
  exact ⟨rfl, rfl⟩

theorem run_update (op : Formula → α × Formula) (f : Formula) :
    (update op).run f = some (.ok (op f).1, (op f).2) := rfl

theorem run_modify (op : Formula → Formula) (f : Formula) :
    (modify op : GroundingM Unit).run f = some (.ok (), op f) := rfl

theorem run_attempt (op : Formula → Except Error (α × Formula)) (f : Formula) :
    (attempt op).run f =
      match op f with
      | .ok (a, g) => some (.ok a, g)
      | .error e => some (.error e, f) := by
  show (match op f with
    | .ok (a, g) => (do set g; return a : GroundingM α)
    | .error e => throw e).run f = _
  cases op f <;> rfl

theorem run_attempt_ok {op : Formula → Except Error (α × Formula)} {a : α}
    (h : (attempt op).run f = some (.ok a, g)) : op f = .ok (a, g) := by
  rw [run_attempt] at h
  cases hop : op f with
  | error e =>
    rw [hop] at h
    cases h
  | ok p =>
    rw [hop] at h
    cases h
    rfl

/-- The second step goes on with the answer of the first, from the formula that it left. -/
theorem run_bind (x : GroundingM α) (k : α → GroundingM β) (f : Formula) :
    (x >>= k).run f = (x.run f).bind fun p =>
      match p.1 with
      | .ok a => (k a).run p.2
      | .error e => some (.error e, p.2) := by
  show (x.run f).bind _ = _
  congr 1
  funext p
  obtain ⟨_ | _, _⟩ := p <;> rfl

/-- A run of two steps in a row fails in the first step or goes through both. -/
theorem run_bind_cases {x : GroundingM α} {k : α → GroundingM β} {r : Except Error β}
    (h : (x >>= k).run f = some (r, g)) :
    (∃ e, x.run f = some (.error e, g) ∧ r = .error e) ∨
      ∃ a f', x.run f = some (.ok a, f') ∧ (k a).run f' = some (r, g) := by
  rw [run_bind, Option.bind_eq_some_iff] at h
  obtain ⟨⟨_ | a, f'⟩, hx, hk⟩ := h
  · cases hk
    exact .inl ⟨_, hx, rfl⟩
  · exact .inr ⟨a, f', hx, hk⟩

/-- After a first step with an answer, the run goes on from the formula it left. -/
theorem run_bind_ok {x : GroundingM α} {a : α} (hx : x.run f = some (.ok a, g))
    (k : α → GroundingM β) : (x >>= k).run f = (k a).run g := by
  show (x.run f).bind _ = _
  rw [hx]
  rfl

theorem run_bind_error {x : GroundingM α} {e : Error} (hx : x.run f = some (.error e, g))
    (k : α → GroundingM β) : (x >>= k).run f = some (.error e, g) := by
  show (x.run f).bind _ = _
  rw [hx]
  rfl

/-- An error of the first computation is handed to the second, with the formula as it was left. -/
theorem run_tryCatch (x : GroundingM α) (k : Error → GroundingM α) (f : Formula) :
    (tryCatch x k).run f = (x.run f).bind fun p =>
      match p.1 with
      | .ok a => some (.ok a, p.2)
      | .error e => (k e).run p.2 := by
  show (x.run f).bind _ = _
  congr 1
  funext p
  obtain ⟨_ | _, _⟩ := p <;> rfl

section Traversal

variable {k : α → GroundingM β} {f₁ f₂ : Formula} {xs ys : List α} {x : α}

/-- A traversal that answers, seen from one of its steps. -/
theorem run_mapM_cases {bs : List β} (h : ((xs ++ x :: ys).mapM k).run f = some (.ok bs, g)) :
    ∃ as b cs f₁ f₂, (xs.mapM k).run f = some (.ok as, f₁) ∧ (k x).run f₁ = some (.ok b, f₂) ∧
      (ys.mapM k).run f₂ = some (.ok cs, g) ∧ bs = as ++ b :: cs := by
  rw [List.mapM_append, List.mapM_cons] at h
  rcases run_bind_cases h with ⟨_, _, he⟩ | ⟨as, f₁, has, h⟩
  · cases he
  rcases run_bind_cases h with ⟨_, _, he⟩ | ⟨bcs, f₃, hbcs, h⟩
  · cases he
  rcases run_bind_cases hbcs with ⟨_, _, he⟩ | ⟨b, f₂, hb, hbcs⟩
  · cases he
  rcases run_bind_cases hbcs with ⟨_, _, he⟩ | ⟨cs, f₄, hcs, hbcs⟩
  · cases he
  cases hbcs
  cases h
  exact ⟨as, b, cs, f₁, f₂, has, hb, hcs, rfl⟩

/-- What every answer of a step satisfies is satisfied by the answers of a traversal, in order. -/
theorem forall₂_of_run_mapM {R : α → β → Prop} {bs : List β}
    (hk : ∀ a f b g, (k a).run f = some (.ok b, g) → R a b)
    (h : (xs.mapM k).run f = some (.ok bs, g)) : List.Forall₂ R xs bs := by
  induction xs generalizing f bs with
  | nil =>
    cases h
    exact .nil
  | cons x xs ih =>
    have hsplit : (([] ++ x :: xs).mapM k).run f = some (.ok bs, g) := h
    obtain ⟨as, b, cs, f₁, f₂, hnil, hb, hcs, rfl⟩ := run_mapM_cases hsplit
    cases hnil
    exact .cons (hk x _ b _ hb) (ih hcs)

/-- What is made of all answers of a traversal can be made of the answer of each step. -/
theorem map_mapM {γ : Type} (φ : β → γ) (k : α → GroundingM β) (xs : List α) :
    List.map φ <$> xs.mapM k = xs.mapM fun x => φ <$> k x := by
  induction xs with
  | nil => simp
  | cons x xs ih => simp [List.mapM_cons, ← ih]

theorem mapM_congr {k' : α → GroundingM β} (h : ∀ x ∈ xs, k x = k' x) : xs.mapM k = xs.mapM k' := by
  induction xs with
  | nil => rfl
  | cons x xs ih =>
    rw [List.mapM_cons, List.mapM_cons, h x List.mem_cons_self,
      ih fun y hy => h y (List.mem_cons_of_mem x hy)]

/-- What follows a computation only matters on the answers that it gives. -/
theorem bind_congr_of_run {x : GroundingM α} {k k' : α → GroundingM β}
    (h : ∀ f a g, x.run f = some (.ok a, g) → k a = k' a) : x >>= k = x >>= k' := by
  funext f
  show (x >>= k).run f = (x >>= k').run f
  rw [run_bind, run_bind]
  cases hx : x.run f with
  | none => rfl
  | some p =>
    obtain ⟨e | a, g⟩ := p
    · rfl
    · show (k a).run g = (k' a).run g
      rw [h f a g hx]

end Traversal

/-- Where each step inserts its own entry only, every entry is one of the start or of the list. -/
theorem mem_of_mem_foldl {σ α : Type} {entries : σ → List α} {insert : σ → α → σ}
    (h : ∀ table a, entries (insert table a) ⊆ a :: entries table) {as : List α} {table : σ} {x : α}
    (hx : x ∈ entries (as.foldl insert table)) : x ∈ entries table ∨ x ∈ as := by
  induction as generalizing table with
  | nil => exact .inl hx
  | cons a as ih =>
    rcases ih hx with hx | hx
    · rcases List.mem_cons.mp (h table a hx) with rfl | hx
      · exact .inr List.mem_cons_self
      · exact .inl hx
    · exact .inr (List.mem_cons_of_mem a hx)

/-- From every formula the computation comes to an answer. -/
def Total (m : GroundingM α) : Prop := ∀ f, ∃ a g, m.run f = some (.ok a, g)

namespace Total

theorem pure (a : α) : Total (pure a : GroundingM α) := fun f => ⟨a, f, rfl⟩

theorem update (op : Formula → α × Formula) : Total (update op) := fun f => ⟨_, _, run_update op f⟩

theorem bind {x : GroundingM α} {k : α → GroundingM β} (hx : Total x) (hk : ∀ a, Total (k a)) :
    Total (x >>= k) := by
  intro f
  obtain ⟨a, g, hxa⟩ := hx f
  obtain ⟨b, h, hkb⟩ := hk a g
  exact ⟨b, h, (run_bind_ok hxa k).trans hkb⟩

theorem mapM {k : α → GroundingM β} (hk : ∀ a, Total (k a)) (xs : List α) :
    Total (xs.mapM k) := by
  induction xs with
  | nil => exact pure []
  | cons x xs ih =>
    rw [List.mapM_cons]
    exact (hk x).bind fun b => ih.bind fun bs => pure (b :: bs)

end Total

/-- Whatever comes of a run, and whatever guards the formula keeps, it is changed by proper edits of
the kind `P` only. -/
def Follows (P : Edit → Prop) (m : GroundingM α) : Prop :=
  ∀ f r g, m.run f = some (r, g) → f.Trail P g

namespace Follows

open Formula (Trail)

variable {P P' : Edit → Prop} {x : GroundingM α}

theorem mono (hx : Follows P x) (hp : ∀ e, P e → P' e) : Follows P' x :=
  fun f r g h => (hx f r g h).mono hp

theorem pure (a : α) : Follows P (pure a : GroundingM α) := by
  intro f r g h
  cases h
  exact .refl

theorem throw (e : Error) : Follows P (throw e : GroundingM α) := by
  intro f r g h
  cases h
  exact .refl

theorem outOfFuel : Follows P (outOfFuel : GroundingM α) := by
  intro f r g h
  cases h

theorem get : Follows P (get : GroundingM Formula) := by
  intro f r g h
  cases h
  exact .refl

theorem ofExcept (r : Except Error α) : Follows P (ofExcept r : GroundingM α) := by
  cases r with
  | ok a => exact pure a
  | error e => exact throw e

theorem bind {k : α → GroundingM β} (hx : Follows P x) (hk : ∀ a, Follows P (k a)) :
    Follows P (x >>= k) := by
  intro f r g h
  rcases run_bind_cases h with ⟨e, hxe, -⟩ | ⟨a, f', hxa, hka⟩
  · exact hx _ _ _ hxe
  · exact (hx _ _ _ hxa).trans (hk a _ _ _ hka)

theorem update {op : Formula → α × Formula} (hop : ∀ f : Formula, f.Trail P (op f).2) :
    Follows P (update op) := by
  intro f r g h
  rw [run_update] at h
  cases h
  exact hop f

theorem modify {op : Formula → Formula} (hop : ∀ f : Formula, f.Trail P (op f)) :
    Follows P (modify op) := by
  intro f r g h
  rw [run_modify] at h
  cases h
  exact hop f

theorem attempt {op : Formula → Except Error (α × Formula)}
    (hop : ∀ f a g, op f = .ok (a, g) → f.Trail P g) : Follows P (attempt op) := by
  intro f r g h
  rw [run_attempt] at h
  cases hf : op f with
  | error e =>
    rw [hf] at h
    cases h
    exact .refl
  | ok p =>
    rw [hf] at h
    cases h
    exact hop f _ _ hf

theorem tryCatch {k : Error → GroundingM α} (hx : Follows P x) (hk : ∀ e, Follows P (k e)) :
    Follows P (tryCatch x k) := by
  intro f r g h
  rw [run_tryCatch, Option.bind_eq_some_iff] at h
  obtain ⟨⟨_ | a, f'⟩, hrun, h⟩ := h
  · exact (hx _ _ _ hrun).trans (hk _ _ _ _ h)
  · cases h
    exact hx _ _ _ hrun

theorem mapM {k : α → GroundingM β} (hk : ∀ a, Follows P (k a)) (xs : List α) :
    Follows P (xs.mapM k) := by
  induction xs with
  | nil => exact pure []
  | cons x xs ih =>
    rw [List.mapM_cons]
    exact (hk x).bind fun b => ih.bind fun bs => pure (b :: bs)

end Follows

/-- What a relation says of its right side holds of everything on the right. -/
theorem forall_of_forall₂ {R : α → β → Prop} {P : β → Prop} {as : List α} {bs : List β}
    (h : List.Forall₂ R as bs) (hP : ∀ a b, R a b → P b) : ∀ b ∈ bs, P b := by
  induction h with
  | nil => exact fun b hb => by cases hb
  | cons hab _ ih => exact List.forall_mem_cons.mpr ⟨hP _ _ hab, ih⟩

/-- From `f` on, the computation changes the formula by edits of the kind `P`, and every answer
satisfies `Q` in the formula that is left. -/
def Performs (P : Edit → Prop) (f : Formula) (m : GroundingM α) (Q : α → Formula → Prop) : Prop :=
  ∀ r g, m.run f = some (r, g) → f.Chain P g ∧ ∀ a, r = .ok a → Q a g

namespace Performs

open Formula (Chain)

variable {P P' : Edit → Prop} {x : GroundingM α} {Q Q' : α → Formula → Prop}

theorem imp (hx : Performs P f x Q) (hp : ∀ e, P e → P' e)
    (hq : ∀ a g, f.Chain P g → Q a g → Q' a g) : Performs P' f x Q' := by
  intro r g h
  obtain ⟨hc, ha⟩ := hx r g h
  exact ⟨hc.mono hp, fun a hr => hq a g hc (ha a hr)⟩

theorem post (hx : Performs P f x Q) (hq : ∀ a g, f.Chain P g → Q a g → Q' a g) :
    Performs P f x Q' := hx.imp (fun _ => id) hq

theorem mono (hx : Performs P f x Q) (hp : ∀ e, P e → P' e) : Performs P' f x Q :=
  hx.imp hp fun _ _ _ => id

theorem pure {a : α} (ha : Q a f) : Performs P f (pure a) Q := by
  intro r g h
  cases h
  exact ⟨.refl, fun _ hr => by cases hr; exact ha⟩

theorem throw {e : Error} : Performs P f (throw e : GroundingM α) Q := by
  intro r g h
  cases h
  exact ⟨.refl, fun _ hr => by cases hr⟩

theorem outOfFuel : Performs P f (outOfFuel : GroundingM α) Q := by
  intro r g h
  cases h

theorem ofExcept_bind {r : Except Error β} {k : β → GroundingM α}
    (hk : ∀ b, r = .ok b → Performs P f (k b) Q) : Performs P f (ofExcept r >>= k) Q := by
  intro r' g h
  cases r with
  | error e =>
    cases h
    exact ⟨.refl, fun _ hr => by cases hr⟩
  | ok b => exact hk b rfl r' g h

theorem bind {k : α → GroundingM β} {R : β → Formula → Prop} (hx : Performs P f x Q)
    (hk : ∀ a g, f.Chain P g → Q a g → Performs P g (k a) R) : Performs P f (x >>= k) R := by
  intro r g h
  rcases run_bind_cases h with ⟨e, hxe, rfl⟩ | ⟨a, f', hxa, hka⟩
  · exact ⟨(hx _ _ hxe).1, fun _ hr => by cases hr⟩
  · obtain ⟨hc, ha⟩ := hx _ _ hxa
    obtain ⟨hc', hb⟩ := hk a f' hc (ha a rfl) r g hka
    exact ⟨hc.trans hc', hb⟩

theorem get_bind {k : Formula → GroundingM α} (hk : Performs P f (k f) Q) :
    Performs P f (get >>= k) Q := hk

/-- An operation that makes one edit. -/
theorem update {op : Formula → α × Formula} {e : Edit} (he : (op f).2 = e.apply f) (hp : P e)
    (hfit : e.Fits f) (hq : Q (op f).1 (op f).2) : Performs P f (update op) Q := by
  intro r g h
  rw [run_update] at h
  cases h
  exact ⟨he ▸ .single hp hfit, fun _ hr => by cases hr; exact hq⟩

theorem modify {op : Formula → Formula} {Q : Unit → Formula → Prop} (hc : f.Chain P (op f))
    (hq : Q () (op f)) : Performs P f (modify op) Q := by
  intro r g h
  rw [run_modify] at h
  cases h
  exact ⟨hc, fun _ _ => hq⟩

/-- The second computation starts from what the first one left when it failed. -/
theorem tryCatch {k : Error → GroundingM α} (hx : Performs P f x Q)
    (hk : ∀ e g, f.Chain P g → Performs P g (k e) Q) : Performs P f (tryCatch x k) Q := by
  intro r g h
  rw [run_tryCatch, Option.bind_eq_some_iff] at h
  obtain ⟨⟨_ | a, f'⟩, hrun, h⟩ := h
  · obtain ⟨hc, -⟩ := hx _ _ hrun
    obtain ⟨hc', ha⟩ := hk _ f' hc r g h
    exact ⟨hc.trans hc', ha⟩
  · cases h
    exact hx _ _ hrun

/-- An operation that either fails and changes nothing, or makes fitting edits. -/
theorem attempt {op : Formula → Except Error (α × Formula)}
    (hop : ∀ a g, op f = .ok (a, g) → f.Chain P g ∧ Q a g) : Performs P f (attempt op) Q := by
  intro r g h
  rw [run_attempt] at h
  cases hf : op f with
  | error e =>
    rw [hf] at h
    cases h
    exact ⟨.refl, fun _ hr => by cases hr⟩
  | ok p =>
    obtain ⟨a, g'⟩ := p
    rw [hf] at h
    cases h
    obtain ⟨hc, ha⟩ := hop a g hf
    exact ⟨hc, fun _ hr => by cases hr; exact ha⟩

/-- The steps of a traversal see a formula that only the steps before have changed, and what one
step achieves has to survive the edits of the steps after it. -/
theorem mapM {xs : List α} {k : α → GroundingM β} {Q : α → β → Formula → Prop}
    (hk : ∀ a ∈ xs, ∀ g, f.Chain P g → Performs P g (k a) (Q a))
    (hstable : ∀ a b g h, f.Chain P g → g.Chain P h → Q a b g → Q a b h) :
    Performs P f (xs.mapM k) fun bs g => List.Forall₂ (fun a b => Q a b g) xs bs := by
  induction xs generalizing f with
  | nil => exact pure .nil
  | cons a as ih =>
    rw [List.mapM_cons]
    refine (hk a List.mem_cons_self f .refl).bind fun b g hfg hb => ?_
    have has : Performs P g (as.mapM k) fun bs h => List.Forall₂ (fun a b => Q a b h) as bs :=
      ih (fun a' ha' h hgh => hk a' (List.mem_cons_of_mem a ha') h (hfg.trans hgh))
        fun a b h h' hgh => hstable a b h h' (hfg.trans hgh)
    exact has.bind fun bs h hgh hbs => pure (.cons (hstable a b g h hfg hgh hb) hbs)

theorem mapM_forall {xs : List α} {k : α → GroundingM β} {Q : β → Formula → Prop}
    (hk : ∀ a ∈ xs, ∀ g, f.Chain P g → Performs P g (k a) Q)
    (hstable : ∀ b g h, f.Extends g → g.Extends h → Q b g → Q b h) :
    Performs P f (xs.mapM k) fun bs g => ∀ b ∈ bs, Q b g :=
  (mapM hk fun _ b g h hfg hgh => hstable b g h hfg.grows hgh.grows).post
    fun _ _ _ hbs => forall_of_forall₂ hbs fun _ _ h => h

end Performs

end Grounding.GroundingM
