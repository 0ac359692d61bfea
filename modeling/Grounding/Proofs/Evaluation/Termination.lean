import Mathlib.Data.Finset.Card
import Mathlib.Data.Finset.Sort
import Mathlib.Logic.Relation
import Mathlib.Order.Lattice.Nat
import Grounding.Proofs.Evaluation.Meaning

/-!
# Termination of evaluation

Evaluation leads from a called function to its arguments and from any other callable term to its
alternatives. Arguments are lower than the call, and alternatives may be higher than the term, but
no term comes up twice among those that are being resolved. So a budget bounds the nesting of the
steps: what is left of it pays for the height of every alternative, whenever a term is put on the
stack. There is one whenever finitely many terms are reached.

The same induction tells when a cycle is reported: each term on the stack has led to the current one
through one of its alternatives.
-/

namespace Grounding

open GroundingM

variable {c : Context} {f g : Formula} {t s u a : Term} {resolving : List Term} {fuel : Nat}

namespace Context

/-- Evaluating `t` asks for its alternatives and evaluates `a` as one of them. A random variable is
not evaluated further, and a term that offers itself is refused. -/
def Resolves (c : Context) (f : Formula) (t a : Term) : Prop :=
  t.isCallable ∧ c.functions.calledBy? t = none ∧
    ∃ as, c.resolve t = .ok as ∧ a ∈ as ∧ f.isRandomVariable a = false ∧ a ≠ t

/-- One step of evaluation leads from `t` to `a`. -/
inductive Leads (c : Context) (f : Formula) (t a : Term) : Prop
  | argument {function : ArithmeticFunction} (hcalled : c.functions.calledBy? t = some function)
      (ha : a ∈ t.args)
  | alternative (ha : c.Resolves f t a)

/-- Some steps, or none, lead from `t` to `a`. -/
def Reached (c : Context) (f : Formula) : Term → Term → Prop := Relation.ReflTransGen (c.Leads f)

/-- What the host computes for `t` fails with this error: its resolver, or the called function. -/
inductive Gives (c : Context) (t : Term) (e : Error) : Prop
  | resolver (he : c.resolve t = .error e)
  | function {function : ArithmeticFunction} {numbers : List Number}
      (hcalled : c.functions.calledBy? t = some function) (he : function.apply numbers = .error e)

end Context

/-- The term of an error that reports a cycle. -/
def Error.cycle? : Error → Option Term
  | .incorrectArgument (.cyclicRealization t) => some t
  | _ => none

namespace GroundingM

variable {α β : Type} {bounded : Prop} {C : Term → Prop}

/-- From every formula with the sites of `f` the computation comes to an end, if it is to be
bounded. It keeps the sites, and reports cycles of terms in `C` only. -/
def Finishes (f : Formula) (bounded : Prop) (C : Term → Prop) (m : GroundingM α) : Prop :=
  ∀ g, g.sites = f.sites → (bounded → (m.run g).isSome) ∧
    ∀ r h, m.run g = some (r, h) → h.sites = f.sites ∧ ∀ e, r = .error e → ∀ u ∈ e.cycle?, C u

namespace Finishes

theorem pure (a : α) : Finishes f bounded C (pure a) := by
  refine fun g hg => ⟨fun _ => rfl, fun r h hrun => ?_⟩
  cases hrun
  exact ⟨hg, fun _ he => by cases he⟩

theorem throw {e : Error} (he : ∀ u ∈ e.cycle?, C u) :
    Finishes f bounded C (throw e : GroundingM α) := by
  refine fun g hg => ⟨fun _ => rfl, fun r h hrun => ?_⟩
  cases hrun
  exact ⟨hg, fun _ hr => by cases hr; exact he⟩

theorem outOfFuel (h : ¬ bounded) : Finishes f bounded C (outOfFuel : GroundingM α) :=
  fun _ _ => ⟨fun hb => absurd hb h, fun _ _ hrun => by cases hrun⟩

theorem ofExcept_bind {r : Except Error α} {k : α → GroundingM β}
    (hr : ∀ e, r = .error e → ∀ u ∈ e.cycle?, C u)
    (hk : ∀ a, r = .ok a → Finishes f bounded C (k a)) :
    Finishes f bounded C (ofExcept r >>= k) := by
  cases r with
  | ok a => exact hk a rfl
  | error e => exact throw (α := β) (hr e rfl)

theorem get_bind {k : Formula → GroundingM α}
    (hk : ∀ g, g.sites = f.sites → Finishes f bounded C (k g)) :
    Finishes f bounded C (get >>= k) := fun g hg => hk g hg g hg

theorem update {op : Formula → α × Formula} (hop : ∀ g, (op g).2.sites = g.sites) :
    Finishes f bounded C (update op) := by
  refine fun g hg => ⟨fun _ => rfl, fun r h hrun => ?_⟩
  rw [run_update] at hrun
  cases hrun
  exact ⟨(hop g).trans hg, fun _ he => by cases he⟩

theorem modify {op : Formula → Formula} (hop : ∀ g, (op g).sites = g.sites) :
    Finishes f bounded C (modify op) := by
  refine fun g hg => ⟨fun _ => rfl, fun r h hrun => ?_⟩
  rw [run_modify] at hrun
  cases hrun
  exact ⟨(hop g).trans hg, fun _ he => by cases he⟩

theorem attempt {op : Formula → Except Error (α × Formula)}
    (hok : ∀ g a h, op g = .ok (a, h) → h.sites = g.sites)
    (herror : ∀ g e, op g = .error e → ∀ u ∈ e.cycle?, C u) : Finishes f bounded C (attempt op) := by
  intro g hg
  rw [run_attempt]
  cases hop : op g with
  | error e =>
    refine ⟨fun _ => rfl, fun r h hrun => ?_⟩
    cases hrun
    exact ⟨hg, fun _ he => by cases he; exact herror g e hop⟩
  | ok p =>
    refine ⟨fun _ => rfl, fun r h hrun => ?_⟩
    cases hrun
    exact ⟨(hok g _ _ hop).trans hg, fun _ he => by cases he⟩

theorem bind {x : GroundingM α} {k : α → GroundingM β} (hx : Finishes f bounded C x)
    (hk : ∀ a, Finishes f bounded C (k a)) : Finishes f bounded C (x >>= k) := by
  intro g hg
  obtain ⟨hends, hkeeps⟩ := hx g hg
  constructor
  · intro hb
    obtain ⟨⟨e | a, g'⟩, hrun⟩ := Option.isSome_iff_exists.mp (hends hb)
    · rw [run_bind_error hrun]
      rfl
    · rw [run_bind_ok hrun]
      exact (hk a g' (hkeeps _ _ hrun).1).1 hb
  · intro r h hrun
    rcases run_bind_cases hrun with ⟨e, hxe, rfl⟩ | ⟨a, g', hxa, hka⟩
    · exact ⟨(hkeeps _ _ hxe).1, fun e' he => by cases he; exact (hkeeps _ _ hxe).2 e rfl⟩
    · exact (hk a g' (hkeeps _ _ hxa).1).2 r h hka

theorem mapM {k : α → GroundingM β} {xs : List α} (hk : ∀ x ∈ xs, Finishes f bounded C (k x)) :
    Finishes f bounded C (xs.mapM k) := by
  induction xs with
  | nil => exact pure []
  | cons x xs ih =>
    rw [List.mapM_cons]
    exact (hk x List.mem_cons_self).bind fun b =>
      (ih fun y hy => hk y (List.mem_cons_of_mem x hy)).bind fun bs => pure (b :: bs)

end Finishes

theorem finishes_throw_bind {e : Error} {k : α → GroundingM β} (he : ∀ u ∈ e.cycle?, C u) :
    Finishes f bounded C (throw e >>= k) := Finishes.throw (α := β) he

end GroundingM

theorem ArithmeticFunction.onValues_error {function : ArithmeticFunction} {operands : List Value}
    {e : Error} (h : function.onValues operands = .error e) :
    ∃ numbers, numbers.length = operands.length ∧ function.apply numbers = .error e := by
  unfold onValues at h
  split at h
  · cases h
  · split at h
    · next numbers hnumbers =>
      refine ⟨numbers, (mapM_eq_some_iff.mp hnumbers).length_eq.symm, ?_⟩
      cases hn : function.apply numbers with
      | error e' => rw [hn] at h; cases h; rfl
      | ok n => rw [hn] at h; cases h
    · cases h

theorem checkProductSize_error {α : Type} {operands : List (List α)} {limit : Nat} {e : Error}
    (h : checkProductSize operands limit = .error e) :
    ∃ size, e = .combinatorialExplosion size limit := by
  unfold checkProductSize at h
  dsimp only at h
  split at h <;> cases h
  exact ⟨_, rfl⟩

theorem notEvaluable_cases (functions : FunctionTable) (t : Term) :
    (∃ name n, notEvaluable functions t = .unknownFunction name n) ∨
      notEvaluable functions t = .undefinedRealization t := by
  unfold notEvaluable
  split
  · split
    · exact .inl ⟨_, _, rfl⟩
    · exact .inr rfl
  · exact .inr rfl

section Step

variable {bounded : Prop} {C : Term → Prop}

theorem descriptorOf_cycle? {v : Term} {site : NodeId} {e : Error}
    (he : f.descriptorOf v site = .error e) : e.cycle? = none := by
  rcases Formula.newDescriptor_error (Formula.descriptorOf_error he) with rfl | ⟨p, rfl⟩ <;> rfl

theorem realizedValue_finishes (v : Term) (site : NodeId) :
    Finishes f bounded C (realizedValue v site) := by
  refine .get_bind fun g _ => ?_
  dsimp only
  split
  · exact .pure _
  · split
    · exact .pure _
    · refine (Finishes.attempt (fun g d h hd => ?_) fun g e he => ?_).bind fun _ => .pure _
      · exact ((Formula.descriptorOf_chain hd).1.sites_eq fun _ => Edit.ByEvaluation.keepsSites).1
      · exact fun u hu => by rw [descriptorOf_cycle? he] at hu; cases hu

theorem realizedValues_finishes (v : Term) : Finishes f bounded C (realizedValues v) := by
  refine .get_bind fun g _ => ?_
  split
  · exact .mapM fun site _ => realizedValue_finishes v site
  · exact .throw fun _ hu => by cases hu

theorem applyToOperands_finishes (settings : Settings) {function : ArithmeticFunction}
    (happly : ∀ numbers e, function.apply numbers = .error e → ∀ u ∈ e.cycle?, C u)
    (operands : List (List GuardedValue)) :
    Finishes f bounded C (applyToOperands settings function operands) := by
  have hvalues (values : List Value) (e : Error) (he : function.onValues values = .error e) :
      ∀ u ∈ e.cycle?, C u := by
    obtain ⟨numbers, -, hnumbers⟩ := ArithmeticFunction.onValues_error he
    exact happly numbers e hnumbers
  have htuple (tuple : List GuardedValue) : Finishes f bounded C (applyToTuple function tuple) :=
    (Finishes.update fun g => (g.sites_conjoinAll _).1).bind fun _ =>
      .ofExcept_bind (hvalues _) fun _ _ => .pure _
  refine .ofExcept_bind (fun e he => ?_) fun _ _ => .mapM fun tuple _ => htuple tuple
  obtain ⟨size, rfl⟩ := checkProductSize_error he
  exact fun u hu => by cases hu

theorem notEvaluable_cycle? (functions : FunctionTable) (t : Term) :
    (notEvaluable functions t).cycle? = none := by
  rcases notEvaluable_cases functions t with ⟨name, n, h⟩ | h <;> rw [h] <;> rfl

theorem alternativeValues_finishes {next : Term → GroundingM (List GuardedValue)}
    (hnext : f.isRandomVariable a = false → a ≠ t → Finishes f bounded C (next a)) :
    Finishes f bounded C (alternativeValues c next t a) := by
  refine .get_bind fun g hg => ?_
  have hrandom : g.isRandomVariable a = f.isRandomVariable a := by
    rw [Formula.isRandomVariable, Formula.sites?, hg]
    rfl
  rw [hrandom]
  split
  · exact realizedValues_finishes a
  · next hnot =>
    split
    · exact .throw fun u hu => by rw [notEvaluable_cycle?] at hu; cases hu
    · next hne => exact hnext (Bool.eq_false_iff.mpr hnot) hne

variable {next : List Term → Term → GroundingM (List GuardedValue)}

/-- A step finishes if the steps that it leads to do. It reports a cycle if the term is on the
stack, and else passes on what the host reports. -/
theorem evaluateStep_finishes
    (hargument : (c.functions.calledBy? t).isSome → ∀ a ∈ t.args,
      Finishes f bounded C (next resolving a))
    (halternative : t ∉ resolving → ∀ a, c.Resolves f t a →
      Finishes f bounded C (next (t :: resolving) a))
    (hcycle : t ∈ resolving → C t) (hhost : ∀ e, c.Gives t e → ∀ u ∈ e.cycle?, C u) :
    Finishes f bounded C (evaluateStep c next resolving t) := by
  by_cases ht : t.isCallable
  · rw [evaluateStep_callable ht]
    cases hcalled : c.functions.calledBy? t with
    | some function =>
      refine (Finishes.mapM (hargument (hcalled ▸ rfl))).bind fun operands => ?_
      exact applyToOperands_finishes _ (fun _ e he => hhost e (.function hcalled he)) operands
    | none =>
      dsimp only
      unfold realizationValues
      split
      · next hmem =>
        refine finishes_throw_bind fun u hu => ?_
        cases hu
        exact hcycle hmem
      · next hnew =>
        refine .ofExcept_bind (fun e he => hhost e (.resolver he)) fun as has => ?_
        refine (Finishes.mapM fun a ha => alternativeValues_finishes fun hrandom hne => ?_).bind
          fun _ => .pure _
        exact halternative hnew a ⟨ht, hcalled, as, has, ha, hrandom, hne⟩
  · cases t with
    | atom | compound => exact absurd rfl ht
    | var => exact .throw fun _ hu => by cases hu
    | constant | symbolic | density | realized | coordinate => exact .pure _

end Step

namespace Context

/-- Whatever evaluation from `t` puts on the stack, what is left before pays for the height of each
alternative and for what is left then. -/
def Budgets (c : Context) (f : Formula) (t : Term) (left : List Term → Nat) : Prop :=
  ∀ resolving s a, c.Reached f t s → s ∉ resolving → c.Resolves f s a →
    a.height + left (s :: resolving) ≤ left resolving

/-- Finitely many terms on the stack, each of bounded height. -/
theorem budgets_of_finite {terms : Finset Term} (hterms : ∀ s, c.Reached f t s → s ∈ terms) :
    c.Budgets f t fun resolving =>
      terms.sup Term.height * (terms \ resolving.toFinset).card := by
  intro resolving s a hs hnew ha
  have hheight : a.height ≤ terms.sup Term.height :=
    Finset.le_sup (f := Term.height) (hterms a (hs.tail (.alternative ha)))
  have hmem : s ∈ terms \ resolving.toFinset :=
    Finset.mem_sdiff.mpr ⟨hterms s hs, fun h => hnew (List.mem_toFinset.mp h)⟩
  have hcard : (terms \ (s :: resolving).toFinset).card + 1 = (terms \ resolving.toFinset).card := by
    rw [List.toFinset_cons, Finset.sdiff_insert, Finset.card_erase_add_one hmem]
  dsimp only
  rw [← hcard, Nat.mul_succ]
  omega

end Context

/-- Within a budget an evaluation comes to an end. -/
theorem evaluateWith_finishes {left : List Term → Nat} (hleft : c.Budgets f t left)
    (hs : c.Reached f t s) (hfuel : s.height + left resolving ≤ fuel) :
    Finishes f True (fun _ => True) (evaluateWith c fuel resolving s) := by
  induction fuel generalizing s resolving with
  | zero =>
    have hpositive := s.height_pos
    omega
  | succ fuel ih =>
    refine evaluateStep_finishes ?_ ?_ (fun _ => trivial) fun _ _ _ _ => trivial
    · intro hcalled a ha
      obtain ⟨function, hcalled⟩ := Option.isSome_iff_exists.mp hcalled
      have hlower := Term.height_lt_of_mem_args ha
      exact ih (hs.tail (.argument hcalled ha)) (by omega)
    · intro hnew a ha
      have hspent := hleft resolving s a hs hnew ha
      have hpositive := s.height_pos
      exact ih (hs.tail (.alternative ha)) (by omega)

namespace Context

/-- The evaluation of `t` reaches `u`, and reaches it again through one of its alternatives. -/
def Cycles (c : Context) (f : Formula) (t u : Term) : Prop :=
  c.Reached f t u ∧ ∃ a, c.Resolves f u a ∧ c.Reached f a u

/-- A cycle of `u` is reported by the host while `t` is evaluated. -/
def HostCycles (c : Context) (f : Formula) (t u : Term) : Prop :=
  ∃ s e, c.Reached f t s ∧ c.Gives s e ∧ e.cycle? = some u

end Context

/-- An evaluation reports cycles only, if the terms on the stack have led to the current one through
their alternatives. -/
theorem evaluateWith_cycles (hs : c.Reached f t s)
    (hstack : ∀ u ∈ resolving, c.Reached f t u ∧ ∃ a, c.Resolves f u a ∧ c.Reached f a s) :
    Finishes f False (fun u => c.Cycles f t u ∨ c.HostCycles f t u)
      (evaluateWith c fuel resolving s) := by
  induction fuel generalizing s resolving with
  | zero => exact .outOfFuel id
  | succ fuel ih =>
    refine evaluateStep_finishes ?_ ?_ ?_ ?_
    · intro hcalled a ha
      obtain ⟨function, hcalled⟩ := Option.isSome_iff_exists.mp hcalled
      have hleads : c.Leads f s a := .argument hcalled ha
      refine ih (hs.tail hleads) fun u hu => ?_
      obtain ⟨hu, b, hb, hbs⟩ := hstack u hu
      exact ⟨hu, b, hb, hbs.tail hleads⟩
    · intro _ a ha
      have hleads : c.Leads f s a := .alternative ha
      refine ih (hs.tail hleads) (List.forall_mem_cons.mpr ⟨⟨hs, a, ha, .refl⟩, fun u hu => ?_⟩)
      obtain ⟨hu, b, hb, hbs⟩ := hstack u hu
      exact ⟨hu, b, hb, hbs.tail hleads⟩
    · exact fun hmem => .inl (hstack s hmem)
    · exact fun e he u hu => .inr ⟨s, e, hs, he, Option.mem_def.mp hu⟩

end Grounding
