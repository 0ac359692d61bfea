import Grounding.Proofs.Evaluation.Effect

/-!
# What guarded values mean

A list of guarded values means, in every world, the list of those whose guard holds there.
Evaluating an expression on a formula gives guarded values that mean what the expression denotes in
each world of the formula it started from. The formula changes on the way, by conjunctions and
descriptors of points, so every step is stated for a formula that some of those edits lead to.
-/

namespace Grounding

open GroundingM

/-- The guards are known, and in every world the values whose guard holds are those denoted. -/
structure Formula.Means (f : Formula) (vs : List GuardedValue)
    (denoted : World → Option (List Value)) : Prop where
  known : ∀ v ∈ vs, f.Knows v.guard
  present : ∀ w, denoted w = some (f.present w vs)

namespace Formula

variable {f g : Formula} {vs : List GuardedValue} {denoted : World → Option (List Value)}

theorem Extends.present_eq (hfg : f.Extends g) (hk : ∀ v ∈ vs, f.Knows v.guard) (w : World) :
    g.present w vs = f.present w vs := by
  rw [Formula.present, Formula.present]
  congr 1
  exact List.filter_congr fun v hv => hfg.holds_eq (hk v hv) w

theorem Means.mono (h : f.Means vs denoted) (hfg : f.Extends g) : g.Means vs denoted where
  known v hv := hfg.knows (h.known v hv)
  present w := by rw [h.present w, hfg.present_eq h.known]

/-- Lists that mean what some expressions denote are, in a world, what the expressions denote. -/
theorem mapM_present {α : Type} {as : List α} {vss : List (List GuardedValue)}
    {denoted : α → World → Option (List Value)}
    (h : List.Forall₂ (fun a vs => f.Means vs (denoted a)) as vss) (w : World) :
    as.mapM (fun a => denoted a w) = some (vss.map (f.present w)) := by
  rw [mapM_eq_some_iff, List.forall₂_map_right_iff]
  exact h.imp fun a vs hm => hm.present w

theorem means_certain (f : Formula) (value : Value) :
    f.Means [.certain value] fun _ => some [value] where
  known v hv := by
    rw [List.mem_singleton.mp hv]
    trivial
  present _ := rfl

end Formula

variable {c : Context} {f g : Formula}

theorem realizedValue_performs (v : Term) (site : NodeId) :
    Performs Edit.ByEvaluation g (realizedValue v site) fun value _ =>
      value = ⟨g.siteValue v site, g.body site⟩ := by
  unfold realizedValue
  refine .get_bind ?_
  rw [Formula.siteValue]
  cases g.probability? site with
  | none => exact .pure rfl
  | some distribution =>
    dsimp only
    cases pointMass? distribution with
    | some n => exact .pure rfl
    | none =>
      have hdescriptor : Performs Edit.ByEvaluation g (attempt (·.descriptorOf v site)) fun d _ =>
          d.coordinates = g.coordinatesOf (realizationName v site) :=
        .attempt fun _ _ => Formula.descriptorOf_chain
      exact hdescriptor.bind fun d _ _ hd => .pure (by rw [hd])

/-- The realized values of a variable mean its values at the sites whose body holds. -/
theorem realizedValues_means (hf : f.WellFormed) (hfg : f.Chain Edit.ByEvaluation g) (v : Term) :
    Performs Edit.ByEvaluation g (realizedValues v) fun vs h =>
      h.Means vs fun w => f.realizedIn w v := by
  unfold realizedValues
  refine .get_bind ?_
  rw [Formula.sites?_eq hfg]
  cases hs : f.sites? v with
  | none => exact .throw
  | some sites =>
    have hsite {id : NodeId} (hid : id ∈ sites) : f.Knows (.node id) :=
      hf.sites v id (Formula.mem_sites_of_sites? hs hid)
    let values := sites.map fun id => (⟨f.siteValue v id, f.body id⟩ : GuardedValue)
    have hall : Performs Edit.ByEvaluation g (sites.mapM (realizedValue v)) fun vs _ =>
        List.Forall₂ (fun id value => value = ⟨f.siteValue v id, f.body id⟩) sites vs := by
      refine .mapM (fun site hmem g' hgg' => ?_) fun _ _ _ _ _ _ => id
      refine (realizedValue_performs v site).post fun value _ _ hvalue => ?_
      rw [hvalue, Formula.siteValue_eq (hfg.trans hgg') v (hsite hmem),
        Formula.body_eq (hfg.trans hgg')]
    refine hall.post fun vs h hgh hvs => ?_
    have hvs : vs = values := by
      rw [← List.forall₂_eq_eq_eq, List.forall₂_map_right_iff]
      exact hvs.flip
    have hk : ∀ value ∈ values, f.Knows value.guard := by
      intro value hvalue
      obtain ⟨id, -, rfl⟩ := List.mem_map.mp hvalue
      exact Formula.knows_body hf id
    subst hvs
    have hgrows := (hfg.trans hgh).grows
    refine ⟨fun value hvalue => hgrows.knows (hk value hvalue), fun w => ?_⟩
    rw [hgrows.present_eq hk, Formula.realizedIn, hs, Formula.present, List.filter_map,
      List.map_map]
    rfl

/-- The value is that of the function on the tuple, and holds where the whole tuple does. -/
structure Formula.Applies (f : Formula) (function : ArithmeticFunction) (tuple : List GuardedValue)
    (value : GuardedValue) : Prop where
  computes : function.onValues (tuple.map (·.value)) = .ok value.value
  operands : ∀ v ∈ tuple, f.Knows v.guard
  known : f.Knows value.guard
  holds : ∀ w, f.holds w value.guard = tuple.all fun v => f.holds w v.guard

variable {function : ArithmeticFunction} {tuple vs : List GuardedValue} {value : GuardedValue}
  {operands : List (List GuardedValue)}

theorem Formula.Applies.mono (h : f.Applies function tuple value) (hfg : f.Extends g) :
    g.Applies function tuple value where
  computes := h.computes
  operands v hv := hfg.knows (h.operands v hv)
  known := hfg.knows h.known
  holds w := by
    rw [hfg.holds_eq h.known, h.holds, Bool.eq_iff_iff, List.all_eq_true, List.all_eq_true]
    exact forall₂_congr fun v hv => by rw [hfg.holds_eq (h.operands v hv)]

theorem applyToTuple_performs (hg : g.WellFormed) (hk : ∀ v ∈ tuple, g.Knows v.guard) :
    Performs Edit.ByEvaluation g (applyToTuple function tuple) fun value h =>
      h.Applies function tuple value := by
  have hguards : ∀ x ∈ tuple.map (·.guard), g.Knows x := List.forall_mem_map.mpr hk
  unfold applyToTuple
  refine (conjoinAll_performs hg trivial hguards).bind fun x h hgh hx => ?_
  refine .ofExcept_bind fun value hvalue => .pure ?_
  refine ⟨hvalue, fun v hv => hgh.grows.knows (hk v hv), hx.1, fun w => ?_⟩
  rw [hx.2, List.all_map]
  rfl

theorem mem_of_mem_tuples {α : Type} {xss : List (List α)} {xs : List α} (h : xs ∈ tuples xss)
    {a : α} (ha : a ∈ xs) : ∃ ys ∈ xss, a ∈ ys := by
  induction xss generalizing xs with
  | nil =>
    rw [tuples, List.mem_singleton] at h
    subst h
    cases ha
  | cons ys yss ih =>
    simp only [tuples, List.mem_flatMap, List.mem_map] at h
    obtain ⟨y, hy, rest, hrest, rfl⟩ := h
    rcases List.mem_cons.mp ha with rfl | ha
    · exact ⟨ys, List.mem_cons_self, hy⟩
    · obtain ⟨zs, hzs, haz⟩ := ih hrest ha
      exact ⟨zs, List.mem_cons_of_mem _ hzs, haz⟩

/-- Every tuple has one element from each list. -/
theorem length_of_mem_tuples {α : Type} {xss : List (List α)} {xs : List α}
    (h : xs ∈ tuples xss) : xs.length = xss.length := by
  induction xss generalizing xs with
  | nil => rw [List.mem_singleton.mp h, List.length_nil, List.length_nil]
  | cons ys yss ih =>
    obtain ⟨y, -, hxs⟩ := List.mem_flatMap.mp h
    obtain ⟨zs, hzs, rfl⟩ := List.mem_map.mp hxs
    rw [List.length_cons, ih hzs, List.length_cons]

theorem means_of_applies (h : List.Forall₂ (f.Applies function) (tuples operands) vs) :
    f.Means vs fun w => plainApplication function (operands.map (f.present w)) where
  known := forall_of_forall₂ h fun _ _ hv => hv.known
  present w := by
    rw [plainApplication, mapM_eq_some_iff, tuples_present, List.forall₂_map_left_iff,
      Formula.present, List.forall₂_map_right_iff]
    refine (List.rel_filter (fun tuple value hv => ?_) h).imp fun tuple value hv => ?_
    · exact Bool.eq_iff_iff.mp (hv.holds w).symm
    · rw [← function.onValues_eq_plainValue, hv.computes]
      rfl

/-- A function on all tuples of its operands means the function on what the operands mean. -/
theorem applyToOperands_means (hg : g.WellFormed) {settings : Settings}
    (hk : ∀ vs ∈ operands, ∀ v ∈ vs, g.Knows v.guard) :
    Performs Edit.ByEvaluation g (applyToOperands settings function operands) fun vs h =>
      h.Means vs fun w => plainApplication function (operands.map (g.present w)) := by
  have htuple {tuple : List GuardedValue} (ht : tuple ∈ tuples operands) :
      ∀ v ∈ tuple, g.Knows v.guard := by
    intro v hv
    obtain ⟨vs, hvs, hv⟩ := mem_of_mem_tuples ht hv
    exact hk vs hvs v hv
  have hall : Performs Edit.ByEvaluation g ((tuples operands).mapM (applyToTuple function))
      fun vs h => List.Forall₂ (h.Applies function) (tuples operands) vs := by
    refine .mapM (fun tuple ht g' hgg' => ?_) fun tuple value _ _ _ hgh hv => hv.mono hgh.grows
    exact applyToTuple_performs (hgg'.wellFormed hg) fun v hv => hgg'.grows.knows (htuple ht v hv)
  unfold applyToOperands
  refine .ofExcept_bind fun _ _ => hall.post fun vs h hgh hvs => ?_
  have hmeans := means_of_applies hvs
  refine ⟨hmeans.known, fun w => ?_⟩
  rw [← hmeans.present w]
  congr 1
  exact List.map_congr_left fun vs hmem => (hgh.grows.present_eq (hk vs hmem) w).symm

section Step

theorem evaluateStep_callable {t : Term} (ht : t.isCallable)
    (next : List Term → Term → GroundingM (List GuardedValue)) (resolving : List Term) :
    evaluateStep c next resolving t = match c.functions.calledBy? t with
      | some function => do applyToOperands c.settings function (← t.args.mapM (next resolving))
      | none => realizationValues c next resolving t := by
  cases t with
  | atom | compound => rfl
  | constant | var | symbolic | density | realized | coordinate => cases ht

variable {plain : World → Term → Option (List Value)}
  {next : List Term → Term → GroundingM (List GuardedValue)}

theorem alternativeValues_means (hf : f.WellFormed) (hfg : f.Chain Edit.ByEvaluation g)
    {next : Term → GroundingM (List GuardedValue)} (t a : Term)
    (hnext : Performs Edit.ByEvaluation g (next a) fun vs h => h.Means vs fun w => plain w a) :
    Performs Edit.ByEvaluation g (alternativeValues c next t a) fun vs h =>
      h.Means vs fun w => (f.realizedIn w a).or (plain w a) := by
  have hrandom (w : World) : (f.realizedIn w a).isSome = g.isRandomVariable a := by
    rw [Formula.realizedIn, Option.isSome_map, Formula.isRandomVariable, Formula.sites?_eq hfg]
  unfold alternativeValues
  refine .get_bind ?_
  cases hr : g.isRandomVariable a with
  | true =>
    refine (realizedValues_means hf hfg a).post fun vs h _ hm => ⟨hm.known, fun w => ?_⟩
    rw [hm.present w, Option.some_or]
  | false =>
    have hnone (w : World) : f.realizedIn w a = none := by
      rw [← Option.isNone_iff_eq_none, ← Option.not_isSome, hrandom, hr]
      rfl
    rw [if_neg Bool.false_ne_true]
    split
    · exact .throw
    · refine hnext.post fun vs h _ hm => ⟨hm.known, fun w => ?_⟩
      rw [hnone w, Option.none_or, hm.present w]

/-- The values of the alternatives mean, one after the other, what the alternatives denote. -/
theorem realizationValues_means (hf : f.WellFormed) (hfg : f.Chain Edit.ByEvaluation g)
    (resolving : List Term) (t : Term)
    (hnext : ∀ resolving a g, f.Chain Edit.ByEvaluation g →
      Performs Edit.ByEvaluation g (next resolving a) fun vs h => h.Means vs fun w => plain w a) :
    Performs Edit.ByEvaluation g (realizationValues c next resolving t) fun vs h =>
      h.Means vs fun w => plainAlternatives c (f.realizedIn w) (plain w) t := by
  unfold realizationValues
  split
  -- a term that is reached again from itself has no values
  · exact Performs.bind (Q := fun _ _ => False) .throw fun _ _ _ h => h.elim
  refine .ofExcept_bind fun as has => ?_
  have hall : Performs Edit.ByEvaluation g
      (as.mapM (alternativeValues c (next (t :: resolving)) t)) fun vss h =>
        List.Forall₂ (fun a vs => h.Means vs fun w => (f.realizedIn w a).or (plain w a)) as vss :=
    .mapM (fun a _ g' hgg' => alternativeValues_means hf (hfg.trans hgg') t a
        (hnext (t :: resolving) a g' (hfg.trans hgg')))
      fun _ _ _ _ _ hgh hm => hm.mono hgh.grows
  refine hall.bind fun vss h _ hvss => .pure ⟨?_, fun w => ?_⟩
  · intro v hv
    obtain ⟨vs, hvs, hv⟩ := List.mem_flatten.mp hv
    exact forall_of_forall₂ hvss (fun _ _ hm => hm.known) vs hvs v hv
  · have hvalues : as.mapM (fun a => (f.realizedIn w a).or (plain w a)) =
        some (vss.map (h.present w)) := Formula.mapM_present hvss w
    rw [plainAlternatives, has, present_flatten, Option.bind_eq_bind, Except.toOption,
      Option.bind_some, hvalues]
    rfl

/-- A step of evaluation means a step of evaluation without guards, if what it leads to does. -/
theorem evaluateStep_means (hf : f.WellFormed) (hfg : f.Chain Edit.ByEvaluation g)
    (resolving : List Term) (t : Term)
    (hnext : ∀ resolving a g, f.Chain Edit.ByEvaluation g →
      Performs Edit.ByEvaluation g (next resolving a) fun vs h => h.Means vs fun w => plain w a) :
    Performs Edit.ByEvaluation g (evaluateStep c next resolving t) fun vs h =>
      h.Means vs fun w => plainStep c (f.realizedIn w) (plain w) t := by
  by_cases ht : t.isCallable
  · rw [evaluateStep_callable ht]
    simp only [plainStep_callable ht]
    cases c.functions.calledBy? t with
    | none => exact realizationValues_means hf hfg resolving t hnext
    | some function =>
      have hargs : Performs Edit.ByEvaluation g (t.args.mapM (next resolving)) fun vss h =>
          List.Forall₂ (fun a vs => h.Means vs fun w => plain w a) t.args vss :=
        .mapM (fun a _ g' hgg' => hnext resolving a g' (hfg.trans hgg'))
          fun _ _ _ _ _ hgh hm => hm.mono hgh.grows
      refine hargs.bind fun vss h hgh hvss => ?_
      have hk : ∀ vs ∈ vss, ∀ v ∈ vs, h.Knows v.guard :=
        forall_of_forall₂ hvss fun _ _ hm => hm.known
      refine (applyToOperands_means ((hfg.trans hgh).wellFormed hf) hk).post
        fun vs h' _ hm => ⟨hm.known, fun w => ?_⟩
      have hoperands : t.args.mapM (plain w) = some (vss.map (h.present w)) :=
        Formula.mapM_present hvss w
      rw [← hm.present w, hoperands]
      rfl
  · cases t with
    | atom | compound => exact absurd rfl ht
    | constant n => exact .pure (g.means_certain (.number n))
    | var => exact .throw
    | symbolic | density | realized | coordinate => exact .pure (g.means_certain (.symbolic _))

end Step

/-- The values of an expression mean what it denotes in the worlds of the formula. -/
theorem evaluateWith_means (hf : f.WellFormed) (hfg : f.Chain Edit.ByEvaluation g) (fuel : Nat)
    (resolving : List Term) (t : Term) :
    Performs Edit.ByEvaluation g (evaluateWith c fuel resolving t) fun vs h =>
      h.Means vs fun w => valuesIn c f w fuel t := by
  -- the formula stays general: what comes earlier in a step changes it for what comes later
  induction fuel generalizing resolving t g with
  | zero => exact .outOfFuel
  | succ fuel ih =>
    exact evaluateStep_means hf hfg resolving t fun resolving a g hfg => ih hfg resolving a

theorem evaluate_means (hf : f.WellFormed) (fuel : Nat) (t : Term) :
    Performs Edit.ByEvaluation f (evaluate c fuel t) fun vs h =>
      h.Means vs fun w => valuesIn c f w fuel t :=
  evaluateWith_means hf .refl fuel [] t

end Grounding
