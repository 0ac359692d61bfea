import Mathlib.Data.List.ProdSigma
import Grounding.Builtin.Comparison
import Grounding.Proofs.Evaluation.Meaning

/-!
# What a comparison decides

Every pair of values gives one result. Its guard holds in a world where the guards of both values
hold and the comparison itself does: numbers compare as they do, an undefined side never passes, and
for any other pair the world decides the atom that stands for the comparison. The atom is found by
its identifier, so equal pairs depend on the same node.
-/

namespace Grounding

open GroundingM

/-- Whether the atom of this identifier is registered and holds. -/
def Formula.atomHolds (f : Formula) (w : World) (identifier : Term) : Bool :=
  (f.findAtom? identifier).any w

/-- Conditions on symbolic operands, beside what evaluation registers. -/
def Edit.ByCondition (functor : String) : Edit → Prop
  | .atom t p s =>
    ∃ operands, t = Term.mkSymbolic functor operands ∧ p = some t ∧ s = .condition
  | e => e.ByEvaluation

/-- Conditions, and comparisons of numbers that were kept. -/
def Edit.ByComparison (k : Comparison) (keep : Bool) (e : Edit) : Prop :=
  e.ByCondition k.symbolicFunctor ∨
    keep = true ∧ ∃ x y, k.holds x y = true ∧
      e = .atom (.compound k.name [.constant x, .constant y]) none .builtin

theorem Edit.ByEvaluation.byCondition {e : Edit} (he : e.ByEvaluation) (functor : String) :
    e.ByCondition functor := by
  cases e with
  | atom => exact he.elim
  | _ => exact he

theorem Edit.ByEvaluation.byComparison {e : Edit} (he : e.ByEvaluation) (k : Comparison)
    (keep : Bool) : e.ByComparison k keep := .inl (he.byCondition k.symbolicFunctor)

namespace Comparison

/-- Whether a comparison of two values holds in a world. -/
def holdsIn (k : Comparison) (keep : Bool) (f : Formula) (w : World) : Value → Value → Bool
  | .number x, .number y =>
    k.holds x y && (!keep || f.atomHolds w (.compound k.name [.constant x, .constant y]))
  | .undefined, _ | _, .undefined => false
  | a, b => f.atomHolds w (.mkSymbolic k.symbolicFunctor ([a, b].filterMap Value.term?))

/-- The identifier of the atom that a comparison of two values depends on, if there is one. -/
def identifier? (k : Comparison) (keep : Bool) : Value → Value → Option Term
  | .number x, .number y =>
    if keep && k.holds x y then some (.compound k.name [.constant x, .constant y]) else none
  | .undefined, _ | _, .undefined => none
  | a, b => some (.mkSymbolic k.symbolicFunctor ([a, b].filterMap Value.term?))

/-- The result is the decision of the comparison on a pair of values. -/
structure Decides (k : Comparison) (keep : Bool) (f : Formula) (a b : GuardedValue)
    (result : List Term × Guard) : Prop where
  left : f.Knows a.guard
  right : f.Knows b.guard
  known : f.Knows result.2
  registered : ∀ t, k.identifier? keep a.value b.value = some t → (f.findAtom? t).isSome
  holds : ∀ w, f.holds w result.2 =
    (f.holds w a.guard && f.holds w b.guard && k.holdsIn keep f w a.value b.value)

end Comparison

variable {f g : Formula} {k : Comparison} {keep : Bool} {a b : GuardedValue}
  {result : List Term × Guard}

theorem Formula.Extends.isSome_findAtom? (hfg : f.Extends g) {t : Term}
    (ht : (f.findAtom? t).isSome) : (g.findAtom? t).isSome := by
  obtain ⟨id, hid⟩ := Option.isSome_iff_exists.mp ht
  rw [hfg.atoms t id hid]
  rfl

theorem Formula.Extends.atomHolds_eq (hfg : f.Extends g) {t : Term}
    (ht : (f.findAtom? t).isSome) (w : World) : g.atomHolds w t = f.atomHolds w t := by
  obtain ⟨id, hid⟩ := Option.isSome_iff_exists.mp ht
  rw [Formula.atomHolds, hfg.atoms t id hid, Formula.atomHolds, hid]

theorem Formula.Extends.holdsIn_eq (hfg : f.Extends g) {x y : Value}
    (hreg : ∀ t, k.identifier? keep x y = some t → (f.findAtom? t).isSome) (w : World) :
    k.holdsIn keep g w x y = k.holdsIn keep f w x y := by
  cases x <;> cases y
  case number.number m n =>
    simp only [Comparison.holdsIn]
    by_cases hm : keep && k.holds m n
    · rw [hfg.atomHolds_eq (hreg _ (if_pos hm))]
    · cases hk : k.holds m n
      · rfl
      · have hkeep : keep = false := by simpa [hk] using hm
        rw [hkeep]
        rfl
  case number.symbolic | symbolic.number | symbolic.symbolic =>
    exact hfg.atomHolds_eq (hreg _ rfl) w
  all_goals rfl

theorem Comparison.Decides.mono (h : k.Decides keep f a b result) (hfg : f.Extends g) :
    k.Decides keep g a b result where
  left := hfg.knows h.left
  right := hfg.knows h.right
  known := hfg.knows h.known
  registered t ht := hfg.isSome_findAtom? (h.registered t ht)
  holds w := by
    rw [hfg.holds_eq h.known, h.holds, hfg.holds_eq h.left, hfg.holds_eq h.right,
      hfg.holdsIn_eq h.registered]

theorem holds_of_findAtom? (hf : f.WellFormed) {t : Term} {id : NodeId}
    (h : f.findAtom? t = some id) (w : World) : f.holds w (.node id) = f.atomHolds w t := by
  obtain ⟨p, s, hnode⟩ := (hf.findAtom_iff t id).mp h
  rw [Formula.holds_atom hnode, Formula.atomHolds, h]
  rfl

theorem knows_of_findAtom? (hf : f.WellFormed) {t : Term} {id : NodeId}
    (h : f.findAtom? t = some id) : f.Knows (.node id) := by
  obtain ⟨p, s, hnode⟩ := (hf.findAtom_iff t id).mp h
  exact Formula.index_lt_of_node? hnode

theorem conjoinAtom_performs {P : Edit → Prop} (hg : g.WellFormed) {x : Guard} (hx : g.Knows x)
    {t : Term} {id : NodeId} (hid : g.findAtom? t = some id)
    (hP : ∀ guards, P (.conjunction guards)) :
    Performs P g (update (Formula.conjoin x (.node id))) fun y h =>
      h.Knows y ∧ (h.findAtom? t).isSome ∧
        ∀ w, h.holds w y = (h.holds w x && h.atomHolds w t) := by
  have hk : ∀ z ∈ [x, .node id], g.Knows z := by
    intro z hz
    rcases List.mem_pair.mp hz with rfl | rfl
    · exact hx
    · exact knows_of_findAtom? hg hid
  refine (conjoinAll_performs hg (hP _) hk).post fun y h hgh hy => ?_
  have hid' : h.findAtom? t = some id := hgh.grows.atoms t id hid
  refine ⟨hy.1, by rw [hid']; rfl, fun w => ?_⟩
  rw [hy.2, List.all_cons, List.all_cons, List.all_nil, Bool.and_true,
    holds_of_findAtom? (hgh.wellFormed hg) hid']

theorem conditionResult_performs (hg : g.WellFormed) {functor : String} {operands : List Term}
    {x : Guard} (hx : g.Knows x) :
    Performs (Edit.ByCondition functor) g (Comparison.conditionResult functor operands x)
      fun result h => h.Knows result.2 ∧ (h.findAtom? (.mkSymbolic functor operands)).isSome ∧
        ∀ w, h.holds w result.2 =
          (h.holds w x && h.atomHolds w (.mkSymbolic functor operands)) := by
  unfold Comparison.conditionResult
  refine (addAtom_performs ⟨operands, rfl, rfl, rfl⟩).bind fun id h hgh hid => ?_
  refine (conjoinAtom_performs (hgh.wellFormed hg) (hgh.grows.knows hx) hid
    fun _ => trivial).bind fun y h' hhh' hy => .pure ⟨hy.1, hy.2.1, fun w => ?_⟩
  exact hy.2.2 w

theorem passingGuard_performs (hg : g.WellFormed) {settings : Settings} {m n : Number}
    (hmn : k.holds m n) {x : Guard} (hx : g.Knows x) :
    Performs (Edit.ByComparison k settings.keepBuiltins) g (k.passingGuard settings m n x)
      fun y h => h.Knows y ∧
        (settings.keepBuiltins → (h.findAtom? (.compound k.name [.constant m, .constant n])).isSome) ∧
        ∀ w, h.holds w y = (h.holds w x && (!settings.keepBuiltins ||
          h.atomHolds w (.compound k.name [.constant m, .constant n]))) := by
  unfold Comparison.passingGuard
  cases hkeep : settings.keepBuiltins with
  | false =>
    refine .pure ?_
    refine ⟨hx, fun h => absurd h Bool.false_ne_true, fun w => ?_⟩
    rw [Bool.not_false, Bool.true_or, Bool.and_true]
  | true =>
    refine (addAtom_performs (.inr ⟨rfl, m, n, hmn, rfl⟩)).bind fun id h hgh hid => ?_
    refine (conjoinAtom_performs (hgh.wellFormed hg) (hgh.grows.knows hx) hid
      fun _ => .inl trivial).post fun y h' hhh' hy => ⟨hy.1, fun _ => hy.2.1, fun w => ?_⟩
    rw [hy.2.2, Bool.not_true, Bool.false_or]

/-- Each pair of values gets a result that decides it. -/
theorem pairResult_performs (hg : g.WellFormed) {settings : Settings} {args : List Term}
    (ha : g.Knows a.guard) (hb : g.Knows b.guard) :
    Performs (Edit.ByComparison k settings.keepBuiltins) g (k.pairResult settings args a b)
      fun result h => k.Decides settings.keepBuiltins h a b result := by
  have hk : ∀ x ∈ [a.guard, b.guard], g.Knows x := by
    intro x hx
    rcases List.mem_pair.mp hx with rfl | rfl
    · exact ha
    · exact hb
  have hpair := conjoinAll_performs (P := Edit.ByComparison k settings.keepBuiltins) hg
    (.inl trivial) hk
  obtain ⟨va, xa⟩ := a
  obtain ⟨vb, xb⟩ := b
  unfold Comparison.pairResult
  refine hpair.bind fun x h hgh hx => ?_
  have hh := hgh.wellFormed hg
  have hxa : h.Knows xa := hgh.grows.knows ha
  have hxb : h.Knows xb := hgh.grows.knows hb
  have hboth {h' : Formula} (hhh' : h.Extends h') (w : World) :
      h'.holds w x = (h'.holds w xa && h'.holds w xb) := by
    rw [hhh'.holds_eq hx.1, hx.2, List.all_cons, List.all_cons, List.all_nil, Bool.and_true,
      hhh'.holds_eq hxa, hhh'.holds_eq hxb]
  cases va <;> cases vb
  case number.number m n =>
    dsimp only
    cases hmn : k.holds m n with
    | true =>
      rw [if_pos rfl]
      refine (passingGuard_performs hh hmn hx.1).bind fun y h' hhh' hy => .pure ?_
      obtain ⟨hknown, hreg, hholds⟩ := hy
      refine ⟨hhh'.grows.knows hxa, hhh'.grows.knows hxb, hknown, fun t ht => ?_, fun w => ?_⟩
      · simp only [Comparison.identifier?, hmn, Bool.and_true] at ht
        split at ht
        · next hkeep =>
          cases ht
          exact hreg hkeep
        · cases ht
      · rw [hholds, hboth hhh'.grows, Comparison.holdsIn, hmn, Bool.true_and]
    | false =>
      rw [if_neg Bool.false_ne_true]
      refine .pure ⟨hxa, hxb, trivial, fun t ht => ?_, fun w => ?_⟩
      · simp only [Comparison.identifier?, hmn, Bool.and_false] at ht
        cases ht
      · rw [Comparison.holdsIn, hmn, Bool.false_and, Bool.and_false]
        rfl
  case number.symbolic | symbolic.number | symbolic.symbolic =>
    refine ((conditionResult_performs hh hx.1).mono fun e he => .inl he).post
      fun result h' hhh' hr => ?_
    refine ⟨hhh'.grows.knows hxa, hhh'.grows.knows hxb, hr.1, fun t ht => ?_, fun w => ?_⟩
    · cases ht
      exact hr.2.1
    · rw [hr.2.2, hboth hhh'.grows]
      rfl
  -- an undefined side depends on no atom, and the guard never holds
  all_goals
    refine .pure ⟨hxa, hxb, trivial, fun t ht => ?_, fun w => ?_⟩
    · cases ht
    · exact (Bool.and_false _).symm

variable {settings : Settings} {args : List Term} {ls rs : List GuardedValue}

theorem pairResults_performs (hg : g.WellFormed) (hls : ∀ v ∈ ls, g.Knows v.guard)
    (hrs : ∀ v ∈ rs, g.Knows v.guard) :
    Performs (Edit.ByComparison k settings.keepBuiltins) g
      ((ls ×ˢ rs).mapM fun (a, b) => k.pairResult settings args a b) fun results h =>
        List.Forall₂ (fun p result => k.Decides settings.keepBuiltins h p.1 p.2 result)
          (ls ×ˢ rs) results := by
  refine .mapM (fun p hp g' hgg' => ?_) fun p result _ _ _ hhh' hr => hr.mono hhh'.grows
  obtain ⟨ha, hb⟩ := List.mem_product.mp hp
  exact pairResult_performs (hgg'.wellFormed hg) (hgg'.grows.knows (hls _ ha))
    (hgg'.grows.knows (hrs _ hb))

/-- The results of a comparison decide the pairs of values of its sides. -/
theorem comparison_performs {c : Context} {fuel : Nat} (hf : f.WellFormed) (left right : Term) :
    Performs (Edit.ByComparison k c.settings.keepBuiltins) f
      (k.results (c.scope fuel) left right) fun results h => ∃ ls rs : List GuardedValue,
        List.Forall₂ (fun p result => k.Decides c.settings.keepBuiltins h p.1 p.2 result)
          (ls ×ˢ rs) results := by
  have hevaluate {g : Formula} (hfg : f.Chain (Edit.ByComparison k c.settings.keepBuiltins) g)
      (t : Term) : Performs (Edit.ByComparison k c.settings.keepBuiltins) g (evaluate c fuel t)
        fun vs h => ∀ v ∈ vs, h.Knows v.guard :=
    (evaluate_means (hfg.wellFormed hf) fuel t).imp (fun e he => he.byComparison k _)
      fun _ _ _ hm => hm.known
  unfold Comparison.results
  refine (hevaluate .refl left).bind fun ls g hfg hls => ?_
  refine (hevaluate hfg right).bind fun rs h hgh hrs => ?_
  exact .ofExcept_bind fun _ _ => (pairResults_performs ((hfg.trans hgh).wellFormed hf)
    (fun v hv => hgh.grows.knows (hls v hv)) hrs).post fun results _ _ hr => ⟨ls, rs, hr⟩

theorem conditionResult_total (functor : String) (operands : List Term) (x : Guard) :
    Total (Comparison.conditionResult functor operands x) :=
  (Total.update _).bind fun _ => (Total.update _).bind fun _ => .pure _

theorem passingGuard_total (k : Comparison) (settings : Settings) (m n : Number) (x : Guard) :
    Total (k.passingGuard settings m n x) := by
  unfold Comparison.passingGuard
  split
  · exact (Total.update _).bind fun _ => .update _
  · exact .pure x

/-- Every pair of values gets a result, whatever the formula. -/
theorem pairResult_total (k : Comparison) (settings : Settings) (args : List Term)
    (a b : GuardedValue) : Total (k.pairResult settings args a b) := by
  unfold Comparison.pairResult
  refine (Total.update _).bind fun x => ?_
  split
  · split
    · exact (passingGuard_total k settings _ _ x).bind fun _ => .pure _
    · exact .pure _
  · exact .pure _
  · exact .pure _
  · exact conditionResult_total _ _ x

end Grounding
