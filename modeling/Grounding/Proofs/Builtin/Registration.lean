import Mathlib.Data.List.Nodup
import Grounding.Proofs.Builtin.Effect

/-!
# What is registered

Evaluation appends conjunctions and fixes points. The builtins that evaluate do the same, and
comparisons and observations append atoms beside: `Appends` says which, so what a comparison
registers is told exactly by its pairs of values.

Nothing is asked of the formula. Guards that name no node are stored and conjoined like any other.
-/

namespace Grounding

open GroundingM

def Node.isAtom : Node → Bool
  | .atom .. => true
  | .conjunction _ => false

/-- The atom that a builtin registers under this identifier. A condition is its own distribution; a
comparison of numbers that is kept has none. -/
def registeredAtom (t : Term) : Node :=
  if t.isSymbolic then .atom t (some t) .condition else .atom t none .builtin

variable {f g h : Formula} {ids ws vs : List Term}

namespace Formula

/-- `g` is `f` with descriptors of points and with nodes appended: the atoms of these identifiers,
in this order, and otherwise conjunctions. -/
structure Appends (f g : Formula) (ids : List Term) : Prop where
  grows : f.Extends g
  nodes : ∃ added, g.nodes.toList = f.nodes.toList ++ added ∧
    added.filter Node.isAtom = ids.map registeredAtom
  findAtom?_eq_none_iff : ∀ t, g.findAtom? t = none ↔ f.findAtom? t = none ∧ t ∉ ids
  points : ∀ name d, g.descriptor? name = some d → f.descriptor? name = some d ∨ d.dimensions = 1
  rest : g = { f with
    nodes := g.nodes, atoms := g.atoms, conjunctions := g.conjunctions
    descriptors := g.descriptors }

namespace Appends

theorem refl (f : Formula) : f.Appends f [] where
  grows := .refl f
  nodes := ⟨[], (List.append_nil _).symm, rfl⟩
  findAtom?_eq_none_iff t := by simp
  points _ _ hd := .inl hd
  rest := rfl

theorem trans (hfg : f.Appends g ws) (hgh : g.Appends h vs) : f.Appends h (ws ++ vs) where
  grows := hfg.grows.trans hgh.grows
  nodes := by
    obtain ⟨added, hadded, hatoms⟩ := hfg.nodes
    obtain ⟨later, hlater, hatoms'⟩ := hgh.nodes
    refine ⟨added ++ later, ?_, ?_⟩
    · rw [hlater, hadded, List.append_assoc]
    · rw [List.filter_append, hatoms, hatoms', List.map_append]
  findAtom?_eq_none_iff t := by
    rw [hgh.findAtom?_eq_none_iff, hfg.findAtom?_eq_none_iff, List.mem_append, not_or, and_assoc]
  points name d hd := by
    rcases hgh.points name d hd with hold | hpoint
    · exact hfg.points name d hold
    · exact .inr hpoint
  rest := by rw [hgh.rest, hfg.rest]

theorem conjoinAll (f : Formula) (guards : List Guard) :
    f.Appends (conjoinAll guards f).2 [] := by
  rcases f.conjoinAll_cases guards with hsame | ⟨hnew, hadded⟩
  · rw [hsame]
    exact refl f
  · rw [hadded]
    exact {
      grows := extends_withConjunction hnew
      nodes := ⟨[.conjunction (childrenOf guards)], Array.toList_push, rfl⟩
      findAtom?_eq_none_iff := fun t => by
        rw [show (f.withConjunction _).findAtom? t = f.findAtom? t from rfl]
        simp
      points := fun _ _ hd => .inl hd
      rest := rfl }

theorem withAtom {t : Term} {p : Option Term} {s : Source} (hnew : f.findAtom? t = none)
    (hnode : .atom t p s = registeredAtom t) : f.Appends (f.withAtom t p s) [t] where
  grows := extends_withAtom hnew p s
  nodes := ⟨[.atom t p s], Array.toList_push, by rw [List.map_singleton, ← hnode]; rfl⟩
  findAtom?_eq_none_iff u := by
    rw [findAtom?_withAtom, List.mem_singleton]
    by_cases hu : t = u
    · simp [hu]
    · simp [hu, Ne.symm hu]
  points _ _ hd := .inl hd
  rest := rfl

theorem withDescriptor {d : Descriptor} (hnew : f.descriptor? d.name = none)
    (hpoint : d.dimensions = 1) : f.Appends (f.withDescriptor d) [] where
  grows := extends_withDescriptor hnew
  nodes := ⟨[], (List.append_nil _).symm, rfl⟩
  findAtom?_eq_none_iff t := by
    rw [show (f.withDescriptor d).findAtom? t = f.findAtom? t from rfl]
    simp
  points name d' hd := by
    rw [descriptor?_withDescriptor] at hd
    split at hd
    · cases hd
      exact .inr hpoint
    · exact .inl hd
  rest := rfl

/-- Evaluation appends no atom. -/
theorem of_evaluation (hfg : f.Trail Edit.ByEvaluation g) : f.Appends g [] := by
  induction hfg with
  | refl => exact refl f
  | @step g e _ hp he ih =>
    cases e with
    | conjunction guards => exact ih.trans (conjoinAll g guards)
    | descriptor v site d => exact ih.trans (withDescriptor he.2.2 hp)
    | _ => exact hp.elim

/-- Conditions are the only atoms that edits of this kind append. -/
theorem of_conditions {functor : String} (hfg : f.Trail (Edit.ByCondition functor) g) :
    ∃ ids, f.Appends g ids ∧ ∀ t ∈ ids, ∃ operands, t = .mkSymbolic functor operands := by
  induction hfg with
  | refl => exact ⟨[], refl f, List.forall_mem_nil _⟩
  | @step g e _ hp he ih =>
    obtain ⟨ids, happends, hids⟩ := ih
    have hquiet (hevaluation : e.ByEvaluation) : ∃ ids, f.Appends (e.apply g) ids ∧
        ∀ t ∈ ids, ∃ operands, t = .mkSymbolic functor operands := by
      have hstep := of_evaluation (.single hevaluation he)
      exact ⟨ids ++ [], happends.trans hstep, by rwa [List.append_nil]⟩
    cases e with
    | atom t p s =>
      obtain ⟨operands, ht, rfl, rfl⟩ := hp
      have hnode : .atom t (some t) .condition = registeredAtom t := by
        rw [ht]
        rfl
      rcases g.addAtom_cases t (some t) .condition with hsame | ⟨hnew, hadded⟩
      · exact ⟨ids, by rwa [Edit.apply, hsame], hids⟩
      · refine ⟨ids ++ [t], ?_, List.forall_mem_append.mpr ⟨hids, fun u hu => ?_⟩⟩
        · rw [Edit.apply, hadded]
          exact happends.trans (withAtom hnew hnode)
        · rw [List.mem_singleton.mp hu]
          exact ⟨operands, ht⟩
    | _ => exact hquiet hp

end Appends

/-- `g` is `f` with the wanted atoms that it did not have, each appended once. -/
def AppendsNew (f g : Formula) (wanted : List Term) : Prop :=
  ∃ ids, f.Appends g ids ∧ ids.Nodup ∧ ∀ t, t ∈ ids ↔ t ∈ wanted ∧ f.findAtom? t = none

namespace AppendsNew

theorem of_appends (hfg : f.Appends g []) : f.AppendsNew g [] :=
  ⟨[], hfg, List.nodup_nil, by simp⟩

/-- What the first registrations have appended is there for the later ones. -/
theorem trans (hfg : f.AppendsNew g ws) (hgh : g.AppendsNew h vs) : f.AppendsNew h (ws ++ vs) := by
  obtain ⟨ids, happends, hnodup, hids⟩ := hfg
  obtain ⟨later, happends', hnodup', hlater⟩ := hgh
  have hnew (t : Term) : t ∈ later ↔ t ∈ vs ∧ f.findAtom? t = none ∧ t ∉ ids := by
    rw [hlater, happends.findAtom?_eq_none_iff]
  refine ⟨ids ++ later, happends.trans happends', ?_, fun t => ?_⟩
  · exact hnodup.append hnodup' fun t ht ht' => ((hnew t).mp ht').2.2 ht
  · rw [List.mem_append, List.mem_append, hnew, hids]
    tauto

theorem addAtom {t : Term} {p : Option Term} {s : Source} (f : Formula)
    (hnode : .atom t p s = registeredAtom t) : f.AppendsNew (f.addAtom t p s).2 [t] := by
  cases hfound : f.findAtom? t with
  | some id =>
    rw [addAtom_of_found hfound]
    refine ⟨[], .refl f, List.nodup_nil, fun u => ?_⟩
    simp only [List.not_mem_nil, List.mem_singleton, false_iff, not_and]
    rintro rfl
    simp [hfound]
  | none =>
    rw [addAtom_of_new hfound]
    refine ⟨[t], .withAtom hfound hnode, List.nodup_singleton t, fun u => ?_⟩
    rw [List.mem_singleton, iff_self_and]
    rintro rfl
    exact hfound

theorem appends (hfg : f.AppendsNew g []) : f.Appends g [] := by
  obtain ⟨ids, happends, -, hids⟩ := hfg
  have hnil : ids = [] := List.eq_nil_iff_forall_not_mem.mpr fun t ht =>
    List.not_mem_nil ((hids t).mp ht).1
  rwa [hnil] at happends

end AppendsNew

end Formula

/-- Every answer of the computation leaves the wanted atoms appended, as far as they are new. -/
def Registering (m : GroundingM α) (wanted : List Term) : Prop :=
  ∀ f a g, m.run f = some (.ok a, g) → f.AppendsNew g wanted

namespace Registering

variable {α β : Type}

theorem pure (a : α) : Registering (pure a : GroundingM α) [] := by
  intro f a g hrun
  cases hrun
  exact .of_appends (.refl f)

theorem conjoinAll (guards : List Guard) : Registering (update (Formula.conjoinAll guards)) [] := by
  intro f a g hrun
  rw [run_update] at hrun
  cases hrun
  exact .of_appends (.conjoinAll f guards)

theorem addAtom {t : Term} {p : Option Term} {s : Source} (hnode : .atom t p s = registeredAtom t) :
    Registering (update (Formula.addAtom t p s)) [t] := by
  intro f a g hrun
  rw [run_update] at hrun
  cases hrun
  exact .addAtom f hnode

theorem bind {x : GroundingM α} {k : α → GroundingM β} (hx : Registering x ws)
    (hk : ∀ a, Registering (k a) vs) : Registering (x >>= k) (ws ++ vs) := by
  intro f b g hrun
  rcases run_bind_cases hrun with ⟨_, _, he⟩ | ⟨a, f', hxa, hka⟩
  · cases he
  · exact (hx f a f' hxa).trans (hk a f' b g hka)

theorem mapM {k : α → GroundingM β} {wanted : α → List Term} (hk : ∀ a, Registering (k a) (wanted a))
    (xs : List α) : Registering (xs.mapM k) (xs.flatMap wanted) := by
  induction xs with
  | nil => exact pure []
  | cons x xs ih =>
    rw [List.mapM_cons, List.flatMap_cons]
    have hrest (b : β) :
        Registering (do let bs ← xs.mapM k; return (b :: bs)) (xs.flatMap wanted ++ []) :=
      ih.bind fun bs => pure (b :: bs)
    rw [List.append_nil] at hrest
    exact (hk x).bind hrest

end Registering

namespace Comparison

theorem conditionResult_registering (functor : String) (operands : List Term) (x : Guard) :
    Registering (conditionResult functor operands x) [.mkSymbolic functor operands] := by
  have hrest (id : NodeId) : Registering (do
      return (operands, ← update (Formula.conjoin x (.node id)))) [] :=
    (Registering.conjoinAll _).bind fun _ => .pure _
  exact (Registering.addAtom rfl).bind hrest

theorem passingGuard_registering (k : Comparison) (settings : Settings) (m n : Number) (x : Guard) :
    Registering (k.passingGuard settings m n x)
      (if settings.keepBuiltins then [.compound k.name [.constant m, .constant n]] else []) := by
  unfold passingGuard
  split
  · exact (Registering.addAtom rfl).bind fun _ => .conjoinAll _
  · exact .pure x

/-- A pair of values has at most one atom registered, the one that its result depends on. -/
theorem pairResult_registering (k : Comparison) (settings : Settings) (args : List Term)
    (a b : GuardedValue) : Registering (k.pairResult settings args a b)
      (k.identifier? settings.keepBuiltins a.value b.value).toList := by
  obtain ⟨va, xa⟩ := a
  obtain ⟨vb, xb⟩ := b
  unfold pairResult
  refine (Registering.conjoinAll _).bind fun x => ?_
  cases va <;> cases vb
  case number.number m n =>
    dsimp only [identifier?]
    cases k.holds m n with
    | false =>
      rw [Bool.and_false]
      exact .pure _
    | true =>
      rw [Bool.and_true, if_pos rfl]
      have hpassing := (passingGuard_registering k settings m n x).bind (k := fun y =>
        (return (args, y) : GroundingM (List Term × Guard))) fun _ => Registering.pure _
      cases hkeep : settings.keepBuiltins <;> rw [hkeep] at hpassing <;> exact hpassing
  case number.symbolic | symbolic.number | symbolic.symbolic =>
    exact conditionResult_registering _ _ x
  all_goals exact .pure _

/-- A registered condition is on a pair with a symbolic side and no undefined one; any other
registered atom is a comparison of numbers that passed and is kept. -/
theorem registeredAtom_of_identifier? {k : Comparison} {keep : Bool} {a b : Value}
    {t : Term} (ht : k.identifier? keep a b = some t) :
    (registeredAtom t = .atom t (some t) .condition ∧
        t = .mkSymbolic k.symbolicFunctor ([a, b].filterMap Value.term?) ∧
        a ≠ .undefined ∧ b ≠ .undefined ∧ (a.number? = none ∨ b.number? = none)) ∨
      (registeredAtom t = .atom t none .builtin ∧ keep = true ∧ ∃ m n, a = .number m ∧ b = .number n ∧
        k.holds m n = true ∧ t = .compound k.name [.constant m, .constant n]) := by
  cases a <;> cases b
  case number.number m n =>
    obtain ⟨hpass, ht⟩ := Option.ite_none_right_eq_some.mp ht
    obtain ⟨hkeep, hholds⟩ := Bool.and_eq_true_iff.mp hpass
    cases ht
    exact .inr ⟨rfl, hkeep, m, n, rfl, rfl, hholds, rfl⟩
  case number.symbolic | symbolic.number | symbolic.symbolic =>
    cases ht
    exact .inl ⟨rfl, rfl, by simp, by simp, by simp [Value.number?]⟩
  all_goals cases ht

/-- A pair that is decided at once registers nothing, unless comparisons are kept. -/
theorem identifier?_of_plain {k : Comparison} {a b : Value} (hplain : a = .undefined ∨
    b = .undefined ∨ ∃ m n, a = .number m ∧ b = .number n) : k.identifier? false a b = none := by
  rcases hplain with rfl | rfl | ⟨m, n, rfl, rfl⟩
  · cases b <;> rfl
  · cases a <;> rfl
  · rfl

end Comparison

end Grounding
