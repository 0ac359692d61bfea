import Grounding.Proofs.Evaluation.Dependency
import Grounding.Proofs.Evaluation.Parallel
import Grounding.Proofs.Exchange.Conversion
import Grounding.Proofs.Session.Effect

/-!
# The sites that values were read from

A value is read from sites of random variables: from its own site, or from the sites of its
operands. `Reading.evaluateWith` evaluates as `evaluateWith` does, and keeps with each value the
sites that it was read from. The names of an open expression are those of the realizations at these
sites, apart from point masses, which give numbers.
-/

namespace Grounding

open GroundingM Term

/-- A value with the sites from which it was read, directly or through operands. -/
structure ReadValue where
  value : GuardedValue
  sites : List (Term × NodeId)

namespace Reading

def values (rs : List ReadValue) : List GuardedValue := rs.map (·.value)

def realizedValue (v : Term) (site : NodeId) : GroundingM ReadValue := do
  return ⟨← Grounding.realizedValue v site, [(v, site)]⟩

def realizedValues (v : Term) : GroundingM (List ReadValue) := do
  match (← get).sites? v with
  | some sites => sites.mapM (realizedValue v)
  | none => throw (.undefinedRealization v)

def applyToTuple (function : ArithmeticFunction) (tuple : List ReadValue) : GroundingM ReadValue := do
  return ⟨← Grounding.applyToTuple function (values tuple), tuple.flatMap (·.sites)⟩

def applyToOperands (settings : Settings) (function : ArithmeticFunction)
    (operands : List (List ReadValue)) : GroundingM (List ReadValue) := do
  let _ ← ofExcept (checkProductSize operands settings.maxCombinations)
  (tuples operands).mapM (applyToTuple function)

section Evaluation

variable (c : Context)

def alternativeValues (next : Term → GroundingM (List ReadValue)) (t alternative : Term) :
    GroundingM (List ReadValue) := do
  if (← get).isRandomVariable alternative then realizedValues alternative
  else if alternative = t then throw (notEvaluable c.functions t)
  else next alternative

variable (next : List Term → Term → GroundingM (List ReadValue))

def realizationValues (resolving : List Term) (t : Term) : GroundingM (List ReadValue) := do
  if t ∈ resolving then throw (.incorrectArgument (.cyclicRealization t))
  let alternatives ← ofExcept (c.resolve t)
  let values ← alternatives.mapM (alternativeValues c (next (t :: resolving)) t)
  return values.flatten

def evaluateStep (resolving : List Term) (t : Term) : GroundingM (List ReadValue) :=
  match t with
  | .constant n => return [⟨.certain (.number n), []⟩]
  | .var name => throw (.incorrectArgument (.unbound name))
  | .symbolic .. | .density _ | .realized .. | .coordinate .. =>
    return [⟨.certain (.symbolic t), []⟩]
  | .atom _ | .compound .. =>
    match c.functions.calledBy? t with
    | some function => do
      applyToOperands c.settings function (← t.args.mapM (next resolving))
    | none => realizationValues c next resolving t

/-- The guarded values of an expression, each with the sites that it was read from. -/
def evaluateWith : (fuel : Nat) → (resolving : List Term) → Term → GroundingM (List ReadValue)
  | 0 => fun _ _ => outOfFuel
  | fuel + 1 => evaluateStep c (evaluateWith fuel)

end Evaluation

variable {c : Context}

theorem values_realizedValues (v : Term) :
    values <$> realizedValues v = Grounding.realizedValues v := by
  unfold realizedValues Grounding.realizedValues
  rw [map_bind]
  congr 1
  funext f
  cases f.sites? v with
  | none => rfl
  | some sites =>
    dsimp only
    refine (map_mapM ..).trans ?_
    simp [realizedValue]

theorem values_applyToOperands (settings : Settings) (function : ArithmeticFunction)
    (operands : List (List ReadValue)) : values <$> applyToOperands settings function operands =
      Grounding.applyToOperands settings function (operands.map values) := by
  have hsize : checkProductSize (operands.map values) settings.maxCombinations =
      checkProductSize operands settings.maxCombinations := by
    have hproduct : productSize (operands.map values) = productSize operands := by
      simp [productSize, List.foldl_map, values]
    rw [checkProductSize, hproduct]
    rfl
  have htuples : tuples (operands.map values) = (tuples operands).map values :=
    tuples_map ReadValue.value operands
  unfold applyToOperands Grounding.applyToOperands
  rw [map_bind, hsize, htuples]
  congr 1
  funext n
  refine (map_mapM ..).trans ?_
  rw [List.mapM_map]
  simp [applyToTuple, Function.comp_def]

theorem values_alternativeValues {next : Term → GroundingM (List ReadValue)}
    {next' : Term → GroundingM (List GuardedValue)} (t a : Term) (h : values <$> next a = next' a) :
    values <$> alternativeValues c next t a = Grounding.alternativeValues c next' t a := by
  unfold alternativeValues Grounding.alternativeValues
  rw [map_bind]
  congr 1
  funext f
  split
  · exact values_realizedValues a
  · split
    · rfl
    · exact h

theorem values_realizationValues {next : List Term → Term → GroundingM (List ReadValue)}
    {next' : List Term → Term → GroundingM (List GuardedValue)}
    (h : ∀ resolving a, values <$> next resolving a = next' resolving a) (resolving : List Term)
    (t : Term) : values <$> realizationValues c next resolving t =
      Grounding.realizationValues c next' resolving t := by
  have halternatives (as : List Term) : values <$> (do
      let vss ← as.mapM (alternativeValues c (next (t :: resolving)) t)
      return vss.flatten) = (do
      let vss ← as.mapM (Grounding.alternativeValues c (next' (t :: resolving)) t)
      return vss.flatten) := by
    have hall : as.mapM (Grounding.alternativeValues c (next' (t :: resolving)) t) =
        List.map values <$> as.mapM (alternativeValues c (next (t :: resolving)) t) := by
      rw [map_mapM]
      congr 1
      funext a
      exact (values_alternativeValues t a (h _ a)).symm
    rw [hall, map_bind, bind_map_left]
    congr 1
    funext vss
    rw [map_pure, values, List.map_flatten]
    rfl
  unfold realizationValues Grounding.realizationValues
  split
  · rfl
  · dsimp only
    rw [map_bind]
    congr 1
    funext as
    exact halternatives as

theorem evaluateStep_callable {t : Term} (ht : t.isCallable)
    (next : List Term → Term → GroundingM (List ReadValue)) (resolving : List Term) :
    evaluateStep c next resolving t =
      match c.functions.calledBy? t with
      | some function => do
        applyToOperands c.settings function (← t.args.mapM (next resolving))
      | none => realizationValues c next resolving t := by
  cases t with
  | atom | compound => rfl
  | constant | var | symbolic | density | realized | coordinate => cases ht

/-- The readings do not change the run: without them it is the evaluation. -/
theorem values_evaluateWith (fuel : Nat) (resolving : List Term) (t : Term) :
    values <$> evaluateWith c fuel resolving t = Grounding.evaluateWith c fuel resolving t := by
  induction fuel generalizing resolving t with
  | zero => rfl
  | succ fuel ih =>
    show values <$> evaluateStep c (evaluateWith c fuel) resolving t =
      Grounding.evaluateStep c (Grounding.evaluateWith c fuel) resolving t
    by_cases ht : t.isCallable
    · rw [evaluateStep_callable ht, Grounding.evaluateStep_callable ht]
      cases c.functions.calledBy? t with
      | some function =>
        have hargs : t.args.mapM (Grounding.evaluateWith c fuel resolving) =
            List.map values <$> t.args.mapM (evaluateWith c fuel resolving) := by
          rw [map_mapM]
          congr 1
          funext a
          exact (ih resolving a).symm
        dsimp only
        rw [hargs, map_bind, bind_map_left]
        congr 1
        funext operands
        exact values_applyToOperands _ _ operands
      | none => exact values_realizationValues ih resolving t
    · cases t with
      | atom | compound => exact absurd rfl ht
      | var | constant | symbolic | density | realized | coordinate => rfl

end Reading

variable {c : Context} {f g : Formula}

/-- The value was read from sites of the formula, and depends on the realizations at those of them
that are no point masses. -/
structure Formula.Reads (f : Formula) (r : ReadValue) : Prop where
  sites : ∀ p ∈ r.sites, f.IsSite p.1 p.2
  names : ∀ t, r.value.value.term? = some t → ∀ name, name ∈ t.names ↔
    ∃ p ∈ r.sites, (f.probability? p.2).bind pointMass? = none ∧ name = realizationName p.1 p.2

theorem mem_names_pointOrVector {items : List Term} {name : String} :
    name ∈ (pointOrVector items).names ↔ ∃ a ∈ items, name ∈ a.names := by
  unfold pointOrVector
  split
  · simp
  · exact mem_names_ofList

/-- The value of a realization depends on that realization only. -/
theorem mem_names_coordinates {m name : String} {n : Nat} (hn : 1 ≤ n) :
    name ∈ (pointOrVector (coordinates m n)).names ↔ name = m := by
  rw [mem_names_pointOrVector]
  constructor
  · rintro ⟨a, ha, hname⟩
    obtain ⟨i, -, rfl⟩ := List.mem_map.mp ha
    exact mem_singleton_names.mp hname
  · rintro rfl
    exact ⟨.coordinate name 0, List.mem_map.mpr ⟨0, List.mem_range.mpr hn, rfl⟩,
      mem_singleton_names.mpr rfl⟩

/-- A function makes a defined value of defined operands only, and it depends on what they depend
on. -/
theorem ArithmeticFunction.names_onValues {function : ArithmeticFunction} {operands : List Value}
    {value : Value} {t : Term} (h : function.onValues operands = .ok value)
    (ht : value.term? = some t) :
    (∀ v ∈ operands, ∃ u, v.term? = some u) ∧
      ∀ name, name ∈ t.names ↔ ∃ v ∈ operands, ∃ u, v.term? = some u ∧ name ∈ u.names := by
  unfold onValues at h
  split at h
  · cases h
    cases ht
  · next hdefined =>
    have hterms : ∀ v ∈ operands, ∃ u, v.term? = some u := by
      intro v hv
      cases v with
      | number n => exact ⟨_, rfl⟩
      | symbolic u => exact ⟨u, rfl⟩
      | undefined => exact absurd (List.any_eq_true.mpr ⟨_, hv, rfl⟩) hdefined
    refine ⟨hterms, fun name => ?_⟩
    split at h
    · next numbers hnumbers =>
      have hnone : name ∉ t.names := by
        cases hn : function.apply numbers with
        | error e => rw [hn] at h; cases h
        | ok n =>
          rw [hn] at h
          cases h
          cases ht
          simp [Term.names]
      refine iff_of_false hnone ?_
      rintro ⟨v, hv, u, hu, hname⟩
      have hall : ∀ v ∈ operands, ∃ n, v.number? = some n := by
        have hflip := (mapM_eq_some_iff.mp hnumbers).flip
        exact forall_of_forall₂ hflip fun n v h => ⟨n, h⟩
      obtain ⟨n, hn⟩ := hall v hv
      cases v with
      | number n =>
        cases hu
        simp [Term.names] at hname
      | symbolic | undefined => cases hn
    · cases h
      cases ht
      rw [mkSymbolic, Term.names, mem_namesOf]
      constructor
      · rintro ⟨u, hu, hname⟩
        obtain ⟨v, hv, hvu⟩ := List.mem_filterMap.mp hu
        exact ⟨v, hv, u, hvu, hname⟩
      · rintro ⟨v, hv, u, hvu, hname⟩
        exact ⟨u, List.mem_filterMap.mpr ⟨v, hv, hvu⟩, hname⟩

/-- What is computed from readings was read from all of their sites. -/
theorem Formula.Reads.of_operands {function : ArithmeticFunction} {tuple : List ReadValue}
    {value : Value} {guard : Guard} (htuple : ∀ r ∈ tuple, f.Reads r)
    (h : function.onValues ((Reading.values tuple).map (·.value)) = .ok value) :
    f.Reads ⟨⟨value, guard⟩, tuple.flatMap (·.sites)⟩ where
  sites p hp := by
    obtain ⟨r, hr, hp⟩ := List.mem_flatMap.mp hp
    exact (htuple r hr).sites p hp
  names t ht name := by
    obtain ⟨hterms, hnames⟩ := ArithmeticFunction.names_onValues h ht
    rw [hnames name]
    constructor
    · rintro ⟨v, hv, u, hu, hname⟩
      obtain ⟨_, hw, rfl⟩ := List.mem_map.mp hv
      obtain ⟨r, hr, rfl⟩ := List.mem_map.mp hw
      obtain ⟨p, hp, hpoint⟩ := ((htuple r hr).names u hu name).mp hname
      exact ⟨p, List.mem_flatMap.mpr ⟨r, hr, hp⟩, hpoint⟩
    · rintro ⟨p, hp, hpoint⟩
      obtain ⟨r, hr, hp⟩ := List.mem_flatMap.mp hp
      have hv : r.value.value ∈ (Reading.values tuple).map (·.value) :=
        List.mem_map.mpr ⟨_, List.mem_map.mpr ⟨r, hr, rfl⟩, rfl⟩
      obtain ⟨u, hu⟩ := hterms _ hv
      exact ⟨_, hv, u, hu, ((htuple r hr).names u hu name).mpr ⟨p, hp, hpoint⟩⟩

namespace Reading

/-- The formula comes from `f` by evaluation. -/
abbrev From (f : Formula) : Formula → Prop := fun g => f.Trail Edit.ByEvaluation g

/-- At a site that is no point mass the realization is read, and nothing else. -/
theorem realizedValue_reads (hf : f.Coherent) {v : Term} {site : NodeId} (hs : f.IsSite v site) :
    Maintains (From f) (realizedValue v site) f.Reads := by
  have hsites : ∀ p ∈ [(v, site)], f.IsSite p.1 p.2 := List.forall_mem_singleton.mpr hs
  have hread {value : GuardedValue} (hnames : ∀ t, value.value.term? = some t → ∀ name,
      name ∈ t.names ↔
        (f.probability? site).bind pointMass? = none ∧ name = realizationName v site) :
      Maintains (From f) (pure ⟨value, [(v, site)]⟩) f.Reads :=
    .pure ⟨hsites, fun t ht name => by simpa using hnames t ht name⟩
  unfold realizedValue Grounding.realizedValue
  rw [bind_assoc]
  refine .get_bind fun g hfg => ?_
  have hprobability : g.probability? site = f.probability? site :=
    hfg.grows.probability?_eq (hf.knows_site hs)
  rw [hprobability]
  cases hp : f.probability? site with
  | none => exact hread fun t ht => by cases ht
  | some p =>
    dsimp only
    cases hpoint : pointMass? p with
    | some n =>
      refine hread fun t ht name => ?_
      cases ht
      simp [Term.names, hp, hpoint]
    | none =>
      have hdescriptor : Maintains (From f) (attempt (·.descriptorOf v site))
          fun d => d.name = realizationName v site ∧ 1 ≤ d.dimensions := by
        refine .attempt fun g d h hfg hd => ⟨hfg.trans (Formula.descriptorOf_chain hd).1.trail, ?_⟩
        unfold Formula.descriptorOf at hd
        split at hd
        · next d' hd' =>
          cases hd
          obtain ⟨hnew, hdim⟩ := (hf.trail hfg).descriptor_of_name hd'
          exact ⟨(Formula.newDescriptor_inv hnew).1, hdim⟩
        · obtain ⟨hname, hdim⟩ := Formula.newDescriptor_inv (Formula.fixDescriptor_inv hd).1
          exact ⟨hname, Nat.le_of_eq hdim.symm⟩
      rw [bind_assoc]
      refine hdescriptor.bind fun d hd => hread fun t ht name => ?_
      cases ht
      rw [Descriptor.coordinates, mem_names_coordinates hd.2, hd.1]
      simp [hp, hpoint]

theorem realizedValues_reads (hf : f.Coherent) (v : Term) :
    Maintains (From f) (realizedValues v) fun rs => ∀ r ∈ rs, f.Reads r := by
  refine .get_bind fun g hfg => ?_
  cases hsites : g.sites? v with
  | none => exact .throw
  | some sites =>
    refine .mapM fun site hsite => realizedValue_reads hf ?_
    have hkeep := (hfg.sites_eq fun _ => Edit.ByEvaluation.keepsSites).1
    exact (Formula.isSite_congr hkeep).mp ⟨sites, hsites, hsite⟩

theorem applyToOperands_reads (settings : Settings) (function : ArithmeticFunction)
    {operands : List (List ReadValue)} (hoperands : ∀ rs ∈ operands, ∀ r ∈ rs, f.Reads r) :
    Maintains (From f) (applyToOperands settings function operands)
      fun rs => ∀ r ∈ rs, f.Reads r := by
  refine .ofExcept_bind fun _ _ => .mapM fun tuple htuple => ?_
  have hreads : ∀ r ∈ tuple, f.Reads r := by
    intro r hr
    obtain ⟨rs, hrs, hr⟩ := mem_of_mem_tuples htuple hr
    exact hoperands rs hrs r hr
  have hguard : Maintains (From f) (update (Formula.conjoinAll ((values tuple).map (·.guard))))
      fun _ => True :=
    .of_follows (conjoinAll_follows _ trivial) (.update fun _ _ => ⟨trivial, trivial⟩)
  unfold applyToTuple Grounding.applyToTuple
  rw [bind_assoc]
  refine hguard.bind fun guard _ => ?_
  rw [bind_assoc]
  exact .ofExcept_bind fun value hvalue => .pure (.of_operands hreads hvalue)

theorem alternativeValues_reads (hf : f.Coherent) {next : Term → GroundingM (List ReadValue)}
    (t a : Term) (hnext : Maintains (From f) (next a) fun rs => ∀ r ∈ rs, f.Reads r) :
    Maintains (From f) (alternativeValues c next t a) fun rs => ∀ r ∈ rs, f.Reads r := by
  refine .get_bind fun g _ => ?_
  split
  · exact realizedValues_reads hf a
  · split
    · exact .throw
    · exact hnext

theorem evaluateStep_reads (hf : f.Coherent)
    (hc : ∀ t as, t.Ordinary → c.resolve t = .ok as → ∀ a ∈ as, a.Ordinary)
    {next : List Term → Term → GroundingM (List ReadValue)}
    (hnext : ∀ resolving a, a.Ordinary →
      Maintains (From f) (next resolving a) fun rs => ∀ r ∈ rs, f.Reads r)
    (resolving : List Term) {t : Term} (ht : t.Ordinary) :
    Maintains (From f) (evaluateStep c next resolving t) fun rs => ∀ r ∈ rs, f.Reads r := by
  obtain ⟨hsymbolic, hargs⟩ := Term.ordinary_iff.mp ht
  by_cases hcallable : t.isCallable
  · rw [evaluateStep_callable hcallable]
    cases c.functions.calledBy? t with
    | some function =>
      exact (Maintains.mapM fun a ha => hnext resolving a (hargs a ha)).bind
        fun _ hoperands => applyToOperands_reads _ _ hoperands
    | none =>
      dsimp only
      unfold realizationValues
      split
      · exact .throw_bind
      · refine .ofExcept_bind fun as has => ?_
        refine (Maintains.mapM fun a ha => alternativeValues_reads hf t a
          (hnext _ a (hc t as ht has a ha))).bind fun values hvalues => .pure fun r hr => ?_
        obtain ⟨rs, hrs, hr⟩ := List.mem_flatten.mp hr
        exact hvalues rs hrs r hr
  · cases t with
    | atom | compound => exact absurd rfl hcallable
    | symbolic | density | realized | coordinate => cases hsymbolic
    | var => exact .throw
    | constant n =>
      refine .pure (List.forall_mem_singleton.mpr ⟨List.forall_mem_nil _, fun u hu name => ?_⟩)
      cases hu
      simp [Term.names]

/-- The values of an expression without symbolic forms are read from sites. -/
theorem evaluateWith_reads (hf : f.Coherent)
    (hc : ∀ t as, t.Ordinary → c.resolve t = .ok as → ∀ a ∈ as, a.Ordinary) (fuel : Nat)
    (resolving : List Term) {t : Term} (ht : t.Ordinary) :
    Maintains (From f) (evaluateWith c fuel resolving t) fun rs => ∀ r ∈ rs, f.Reads r := by
  induction fuel generalizing resolving t with
  | zero => exact .outOfFuel
  | succ fuel ih =>
    exact evaluateStep_reads hf hc (fun resolving a ha => ih resolving ha) resolving ht

end Reading

end Grounding
