import Grounding.Proofs.Evaluation.Parallel
import Grounding.Proofs.Replay
import Grounding.Proofs.Session.Comparison
import Grounding.Proofs.Session.Dimension
import Grounding.Proofs.Session.Effect

/-!
# The shape of observations

An observation compares the shape of its two arguments as they are written, and then evaluates what
is observed. An expression can have a list as its value in one way only: a random variable whose
realization is fixed as a vector evaluates to the list of its coordinates. So an answer has the
shape of the observed value, except that such a vector may stand where a point belongs.
-/

namespace Grounding

open GroundingM

variable {f g : Formula} {c : Context} {fuel : Nat} {value observed : Term}

def Term.IsCoordinate : Term → Prop
  | .coordinate .. => True
  | _ => False

/-- What is observed has the shape of the realized value: `Point` holds of it if the value is a
coordinate, and it is a list with an item for each coordinate, all with `Item`, if the value is a
list of coordinates. -/
inductive ShapedLike (Point Item : Term → Prop) : Term → Term → Prop
  | coordinate {value o : Term} (hvalue : value.IsCoordinate) (ho : Point o) :
      ShapedLike Point Item value o
  | list {value o : Term} (coordinates items : List Term) (hvalue : value.list? = some coordinates)
      (hcoordinates : ∀ x ∈ coordinates, x.IsCoordinate) (ho : o.list? = some items)
      (hlength : items.length = coordinates.length) (hitems : ∀ x ∈ items, Item x) :
      ShapedLike Point Item value o

theorem ShapedLike.imp {Point Point' Item Item' : Term → Prop} {o : Term}
    (h : ShapedLike Point Item value o) (hpoint : ∀ t, Point t → Point' t)
    (hitem : ∀ t, Item t → Item' t) : ShapedLike Point' Item' value o := by
  cases h with
  | coordinate hvalue ho => exact .coordinate hvalue (hpoint _ ho)
  | list cs items hvalue hcs ho hlength hitems =>
    exact .list cs items hvalue hcs ho hlength fun x hx => hitem x (hitems x hx)

/-- The arguments of an observation have one shape, whatever the items of the list are. -/
abbrev SameShape : Term → Term → Prop := ShapedLike (fun o => ¬ o.isList) fun _ => True

/-- The term is the list of the coordinates of a realization that is fixed as no point. -/
def Formula.IsVector (f : Formula) (t : Term) : Prop :=
  ∃ name d, f.descriptor? name = some d ∧ d.dimensions ≠ 1 ∧ t = .ofList d.coordinates

/-- Only vectors of the formula are lists. -/
def Formula.IsPoint (f : Formula) (t : Term) : Prop := t.isList → f.IsVector t

theorem Formula.Extends.isPoint (hfg : f.Extends g) {t : Term} (ht : f.IsPoint t) : g.IsPoint t := by
  intro hlist
  obtain ⟨name, d, hd, hdim, rfl⟩ := ht hlist
  exact ⟨name, d, hfg.descriptors _ _ hd, hdim, rfl⟩

theorem Term.not_isList_of_isSymbolic {t : Term} (ht : t.isSymbolic) : ¬ t.isList := by
  cases t with
  | symbolic | density | realized | coordinate => exact Bool.false_ne_true
  | constant | atom | compound | var => cases ht

namespace Builtin

theorem expectCoordinate_cases (t : Term) : t.IsCoordinate ∧ expectCoordinate t = .ok () ∨
    expectCoordinate t = .error (.incorrectArgument (.expectsRealizedValue t)) := by
  cases t with
  | coordinate => exact .inl ⟨trivial, rfl⟩
  | constant | atom | compound | var | symbolic | density | realized => exact .inr rfl

/-- The check of a list of coordinates stops at the first item that is none. -/
theorem forM_expectCoordinate_cases (ts : List Term) :
    (∀ t ∈ ts, t.IsCoordinate) ∧ ts.forM expectCoordinate = .ok () ∨
      ∃ t, ts.forM expectCoordinate = .error (.incorrectArgument (.expectsRealizedValue t)) := by
  induction ts with
  | nil => exact .inl ⟨by simp, rfl⟩
  | cons t ts ih =>
    have hcons : (t :: ts).forM expectCoordinate =
        (expectCoordinate t >>= fun _ => ts.forM expectCoordinate) := rfl
    rw [hcons]
    rcases expectCoordinate_cases t with ⟨ht, hok⟩ | herror
    · rw [hok]
      rcases ih with ⟨hts, hok⟩ | herror
      · exact .inl ⟨List.forall_mem_cons.mpr ⟨ht, hts⟩, hok⟩
      · exact .inr herror
    · rw [herror]
      exact .inr ⟨t, rfl⟩

end Builtin

/-- The same value in both of two equal runs, whose term satisfies `P` in the formula left. -/
def SameValue (P : Formula → Term → Prop) (v v' : GuardedValue) (g _ : Formula) : Prop :=
  v = v' ∧ ∀ t, v.value.term? = some t → P g t

theorem sameValues {P : Formula → Term → Prop} {g' : Formula} {vs vs' : List GuardedValue}
    (h : List.Forall₂ (fun v v' => SameValue P v v' g g') vs vs') :
    vs = vs' ∧ ∀ v ∈ vs, ∀ t, v.value.term? = some t → P g t := by
  obtain rfl : vs = vs' := List.forall₂_eq_eq_eq ▸ h.imp fun _ _ hv => hv.1
  exact ⟨rfl, fun v hv => (List.forall₂_same.mp h v hv).2⟩

theorem sameValue_of_not_isList {value : Value} {guard : Guard} {g' : Formula}
    (h : ∀ t, value.term? = some t → ¬ t.isList) :
    SameValue Formula.IsPoint ⟨value, guard⟩ ⟨value, guard⟩ g g' :=
  ⟨rfl, fun t ht hlist => absurd hlist (h t ht)⟩

theorem not_isList_of_number (n : Number) (t : Term) (ht : (Value.number n).term? = some t) :
    ¬ t.isList := by
  cases ht
  exact Bool.false_ne_true

/-- A function never computes a list. -/
theorem not_isList_of_onValues {function : ArithmeticFunction} {operands : List Value}
    {value : Value} (h : function.onValues operands = .ok value) {t : Term}
    (ht : value.term? = some t) : ¬ t.isList := by
  unfold ArithmeticFunction.onValues at h
  split at h
  · cases h
    cases ht
  · split at h
    · next numbers _ =>
      cases happly : function.apply numbers with
      | error e => rw [happly] at h; cases h
      | ok n =>
        rw [happly] at h
        cases h
        exact not_isList_of_number n t ht
    · cases h
      cases ht
      exact Bool.false_ne_true

theorem isPoint_pointOrVector {d : Descriptor} {name : String} (hd : g.descriptor? name = some d) :
    g.IsPoint (pointOrVector d.coordinates) := by
  intro hlist
  rw [Descriptor.coordinates, pointOrVector_coordinates] at hlist ⊢
  split at hlist
  · cases hlist
  · next hdim => exact ⟨name, d, hd, hdim, if_neg hdim⟩

theorem realizedValue_isPoint (v : Term) (s : NodeId) {g' : Formula} :
    Parallel Eq g g' (realizedValue v s) (realizedValue v s) (SameValue Formula.IsPoint) := by
  unfold realizedValue
  refine .get_bind fun hr => ?_
  subst hr
  split
  · exact .pure fun _ => sameValue_of_not_isList fun t ht => by cases ht
  · split
    · next n _ => exact .pure fun _ => sameValue_of_not_isList (not_isList_of_number n)
    · refine Parallel.bind (Q := fun d d' h _ => d = d' ∧ ∃ name, h.descriptor? name = some d)
        (.attempt fun _ => ?_) fun d d' h h' _ _ hd => .pure fun _ => ?_
      · cases hask : g.descriptorOf v s with
        | error e => exact .inl ⟨e, rfl, rfl⟩
        | ok p =>
          obtain ⟨hgrows, hfixed⟩ := Formula.descriptorOf_growsTo hask
          exact .inr ⟨p.1, p.2, p.1, p.2, rfl, rfl, hgrows.grown, hgrows.grown, rfl, rfl, _, hfixed⟩
      · obtain ⟨rfl, name, hname⟩ := hd
        refine ⟨rfl, fun t ht => ?_⟩
        cases ht
        exact isPoint_pointOrVector hname

theorem applyToTuple_isPoint (function : ArithmeticFunction) (tuple : List GuardedValue)
    {g' : Formula} : Parallel Eq g g' (applyToTuple function tuple) (applyToTuple function tuple)
      (SameValue Formula.IsPoint) := by
  unfold applyToTuple
  refine (Parallel.of_follows (conjoinAll_follows (P := Edit.ByEvaluation) _ trivial)).bind
    fun x x' h h' _ _ hx => .ofExcept_bind fun value hvalue => .pure fun _ => ?_
  subst hx
  exact sameValue_of_not_isList fun t ht => not_isList_of_onValues hvalue ht

/-- Every value of an expression is a point of the formula that its evaluation leaves. -/
theorem simulation_isPoint : Simulation Eq (SameValue Formula.IsPoint) where
  sites g g' hr := by rw [hr]
  stable v v' g g' h h' hg _ hv := ⟨hv.1, fun t ht => hg.isPoint (hv.2 t ht)⟩
  number n g g' := sameValue_of_not_isList (not_isList_of_number n)
  symbolic t g g' ht := sameValue_of_not_isList fun t' ht' => by
    cases ht'
    exact Term.not_isList_of_isSymbolic ht
  realized v s g g' _ := realizedValue_isPoint v s
  applied function tuple tuple' g g' h := by
    rw [← (sameValues h).1]
    exact applyToTuple_isPoint function tuple

namespace Builtin

/-- The term is a list of this length, of points. -/
def IsPoints (n : Nat) (f : Formula) (t : Term) : Prop :=
  ∃ items, t.list? = some items ∧ items.length = n ∧ ∀ x ∈ items, f.IsPoint x

theorem IsPoints.grow {n : Nat} {t : Term} (ht : IsPoints n f t) (hfg : f.Extends g) :
    IsPoints n g t := by
  obtain ⟨items, hlist, hlength, hitems⟩ := ht
  exact ⟨items, hlist, hlength, fun x hx => hfg.isPoint (hitems x hx)⟩

theorem observedTuple_isPoints {tuple : List GuardedValue} {g' : Formula}
    (h : ∀ v ∈ tuple, ∀ t, v.value.term? = some t → g.IsPoint t) :
    Parallel Eq g g' (observedTuple tuple) (observedTuple tuple)
      (SameValue (IsPoints tuple.length)) := by
  unfold observedTuple
  refine (Parallel.of_follows (conjoinAll_follows (P := Edit.ByEvaluation) _ trivial)).bind
    fun x x' h₁ h₁' hg _ hx => .pure fun _ => ⟨by rw [hx], fun t ht => ?_⟩
  cases hterms : tuple.mapM (·.value.term?) with
  | none =>
    rw [hterms] at ht
    cases ht
  | some terms =>
    rw [hterms] at ht
    cases ht
    have hall := mapM_eq_some_iff.mp hterms
    refine ⟨terms, Term.list?_ofList terms, hall.length_eq.symm, fun x hx => ?_⟩
    obtain ⟨v, hv, hvx⟩ : ∃ v ∈ tuple, v.value.term? = some x := by
      obtain ⟨i, hi, rfl⟩ := List.mem_iff_getElem.mp hx
      have hi' : i < tuple.length := hall.length_eq ▸ hi
      exact ⟨tuple[i], List.getElem_mem hi', hall.get hi' hi⟩
    exact hg.isPoint (h v hv x hvx)

theorem observedVectors_isPoints (items : List Term) {f' : Formula} :
    Parallel Eq f f' (observedVectors (c.scope fuel) items) (observedVectors (c.scope fuel) items)
      (Simulation.Values (SameValue (IsPoints items.length))) := by
  unfold observedVectors
  have hoperands : Parallel Eq f f' (items.mapM (evaluate c fuel)) (items.mapM (evaluate c fuel))
      fun vss vss' g g' => vss.length = items.length ∧ List.Forall₂ (fun vs vs' =>
        Simulation.Values (SameValue Formula.IsPoint) vs vs' g g') vss vss' :=
    (Parallel.mapM_same (fun t _ g g' _ _ => simulation_isPoint.evaluate fuel t)
      simulation_isPoint.stable_values).and_left fun vss g hrun =>
        (forall₂_of_run_mapM (R := fun _ _ => True) (fun _ _ _ _ _ => trivial) hrun).length_eq.symm
  refine hoperands.bind fun vss vss' g g' _ _ hvss => ?_
  obtain ⟨hlength, hvss⟩ := hvss
  have hsame := hvss.imp fun _ _ hvs => sameValues hvs
  obtain rfl : vss = vss' := List.forall₂_eq_eq_eq ▸ hsame.imp fun _ _ hvs => hvs.1
  refine .ofExcept_bind fun _ _ => .mapM_same (fun tuple htuple h h' hgh _ => ?_) ?_
  · rw [← hlength, ← length_of_mem_tuples htuple]
    refine observedTuple_isPoints fun v hv t ht => hgh.isPoint ?_
    obtain ⟨vs, hvs, hv⟩ := mem_of_mem_tuples htuple hv
    exact (List.forall₂_same.mp hsame vs hvs).2 v hv t ht
  · exact fun v v' h h' k k' hhk _ hv => ⟨hv.1, fun t ht => (hv.2 t ht).grow hhk⟩

/-- What is observed has the shape of the value once it is evaluated, if points are told from lists
as the formula does. -/
theorem observedValues_shapedLike (value observed : Term) {f' : Formula} :
    Parallel Eq f f' (observedValues (c.scope fuel) value observed)
      (observedValues (c.scope fuel) value observed)
      (Simulation.Values (SameValue fun g => ShapedLike g.IsPoint g.IsPoint value)) := by
  have hpost {P : Formula → Term → Prop} (hP : ∀ g t, P g t → ShapedLike g.IsPoint g.IsPoint value t)
      (vs vs' : List GuardedValue) (g g' : Formula)
      (hvs : Simulation.Values (SameValue P) vs vs' g g') : Simulation.Values
        (SameValue fun g => ShapedLike g.IsPoint g.IsPoint value) vs vs' g g' :=
    hvs.imp fun _ _ hv => ⟨hv.1, fun t ht => hP g t (hv.2 t ht)⟩
  unfold observedValues
  cases hvalue : value.list? with
  | some coordinates =>
    refine .ofExcept_bind fun _ hcheck => .ofExcept_bind fun items hitems => ?_
    refine (observedVectors_isPoints items).post fun vs vs' g g' _ _ _ hvs =>
      hpost (fun g t ht => ?_) vs vs' g g' hvs
    obtain ⟨ts, hlist, hlength, hts⟩ := ht
    have hcoordinates : ∀ x ∈ coordinates, x.IsCoordinate := by
      rcases forM_expectCoordinate_cases coordinates with ⟨h, -⟩ | ⟨t, herror⟩
      · exact h
      · rw [herror] at hcheck
        cases hcheck
    have hsize := (of_observedItems hitems).2
    exact .list coordinates ts hvalue hcoordinates hlist (hlength.trans hsize) hts
  | none =>
    refine .ofExcept_bind fun _ hcheck => ?_
    have hcoordinate : value.IsCoordinate := by
      rcases expectCoordinate_cases value with ⟨h, -⟩ | herror
      · exact h
      · rw [herror] at hcheck
        cases hcheck
    cases observed.list? with
    | some items => exact .throw _
    | none =>
      exact (simulation_isPoint.evaluate fuel observed).post fun vs vs' g g' _ _ _ hvs =>
        hpost (fun g t ht => .coordinate hcoordinate ht) vs vs' g g' hvs

/-- Arguments that differ in shape are rejected before anything is evaluated. -/
theorem run_observedValues_of_not_sameShape {scope : Scope} (h : ¬ SameShape value observed) :
    ∃ fault, (observedValues scope value observed).run f =
      some (.error (.incorrectArgument fault), f) := by
  unfold observedValues
  cases hvalue : value.list? with
  | some coordinates =>
    rcases forM_expectCoordinate_cases coordinates with ⟨hcoordinates, hcheck⟩ | ⟨t, herror⟩
    · simp only [hcheck, observedItems]
      cases hitems : observed.list? with
      | none => exact ⟨_, rfl⟩
      | some items =>
        dsimp only
        split
        · next hlength =>
          exact absurd (.list coordinates items hvalue hcoordinates hitems hlength
            fun _ _ => trivial) h
        · exact ⟨_, rfl⟩
    · simp only [herror]
      exact ⟨_, rfl⟩
  | none =>
    rcases expectCoordinate_cases value with ⟨hcoordinate, hcheck⟩ | herror
    · simp only [hcheck]
      cases hitems : observed.list? with
      | some items => exact ⟨_, rfl⟩
      | none =>
        exact absurd (.coordinate hcoordinate (by simp [Term.isList, hitems])) h
    · simp only [herror]
      exact ⟨_, rfl⟩

theorem findAtom?_addAtom_cases {t t' : Term} {p : Option Term} {source : Source} {id : NodeId}
    (h : (f.addAtom t p source).2.findAtom? t' = some id) :
    f.findAtom? t' = some id ∨ t' = t := by
  rcases f.addAtom_cases t p source with hf | ⟨-, hf⟩ <;> rw [hf] at h
  · exact .inl h
  · rw [Formula.findAtom?_withAtom] at h
    split at h
    · next ht => exact .inr ht.symm
    · exact .inl h

theorem findAtom?_conjoinAll (guards : List Guard) (f : Formula) (t : Term) :
    (Formula.conjoinAll guards f).2.findAtom? t = f.findAtom? t := by
  rcases f.conjoinAll_cases guards with hf | ⟨-, hf⟩ <;> rw [hf]
  rfl

/-- The arguments of a result say which condition was registered for it, and no other was. -/
theorem run_observationResult {o : Term × Guard} {result : List Term × Guard}
    (h : (observationResult value o).run f = some (.ok result, g)) :
    result.1 = [value, o.1] ∧ ∀ t id, g.findAtom? t = some id →
      f.findAtom? t = some id ∨ t = .mkSymbolic observationFunctor result.1 := by
  let condition := Term.mkSymbolic observationFunctor [value, o.1]
  let registered := f.addAtom condition (some condition) .condition
  let conjoined := Formula.conjoinAll [o.2, .node registered.1] registered.2
  have hrun : (observationResult value o).run f =
      some (.ok ([value, o.1], conjoined.1), conjoined.2) := rfl
  rw [hrun, Option.some.injEq, Prod.mk.injEq, Except.ok.injEq] at h
  obtain ⟨rfl, rfl⟩ := h
  refine ⟨rfl, fun t id ht => ?_⟩
  rw [findAtom?_conjoinAll] at ht
  exact findAtom?_addAtom_cases ht

theorem run_mapM_observationResult {os : List (Term × Guard)} {results : Results}
    (h : (os.mapM (observationResult value)).run f = some (.ok results, g)) {t : Term} {id : NodeId}
    (ht : g.findAtom? t = some id) : f.findAtom? t = some id ∨
      ∃ result ∈ results, t = .mkSymbolic observationFunctor result.1 := by
  induction os generalizing f results with
  | nil =>
    cases h
    exact .inl ht
  | cons o os ih =>
    rw [List.mapM_cons] at h
    rcases run_bind_cases h with ⟨_, _, he⟩ | ⟨result, f₁, hresult, h⟩
    · cases he
    rcases run_bind_cases h with ⟨_, _, he⟩ | ⟨results', f₂, hrest, h⟩
    · cases he
    cases h
    rcases ih hrest with hold | ⟨result', hmem, hnew⟩
    · rcases (run_observationResult hresult).2 t id hold with hold | hnew
      · exact .inl hold
      · exact .inr ⟨result, List.mem_cons_self, hnew⟩
    · exact .inr ⟨result', List.mem_cons_of_mem _ hmem, hnew⟩

/-- An observation fails before it registers a condition, or registers those of its results. -/
theorem run_observationResults {r : Except Error Results}
    (h : (observationResults (c.scope fuel) value observed).run f = some (r, g)) {t : Term}
    {id : NodeId} (ht : g.findAtom? t = some id) : f.findAtom? t = some id ∨
      ∃ results, r = .ok results ∧ ∃ result ∈ results, t = .mkSymbolic observationFunctor result.1 := by
  have hkept {r' : Except Error (List GuardedValue)} {f₁ : Formula}
      (hvalues : (observedValues (c.scope fuel) value observed).run f = some (r', f₁)) :
      f₁.findAtom? t = f.findAtom? t := by
    have htrail := observedValues_follows value observed _ _ _ hvalues
    rw [Formula.findAtom?, htrail.evaluation_eq, Formula.findAtom?]
  unfold observationResults at h
  rcases run_bind_cases h with ⟨e, hvalues, -⟩ | ⟨vs, f₁, hvalues, h⟩
  · exact .inl (hkept hvalues ▸ ht)
  · obtain ⟨results, g', hresults⟩ := Total.mapM (fun o : Term × Guard =>
      conditionResult_total observationFunctor [value, o.1] o.2)
      (vs.filterMap fun v => v.value.term?.map (·, v.guard)) f₁
    have hsame := hresults.symm.trans h
    cases hsame
    rcases run_mapM_observationResult h ht with hold | ⟨result, hmem, hnew⟩
    · exact .inl (hkept hvalues ▸ hold)
    · exact .inr ⟨results, rfl, result, hmem, hnew⟩

theorem observationResults_shapedLike (value observed : Term) {f' : Formula} :
    Parallel Eq f f' (observationResults (c.scope fuel) value observed)
      (observationResults (c.scope fuel) value observed) fun results results' g _ =>
        List.Forall₂ (fun result result' => result = result' ∧ ∃ o, result.1 = [value, o] ∧
          ShapedLike g.IsPoint g.IsPoint value o) results results' := by
  unfold observationResults
  refine (observedValues_shapedLike value observed).bind fun vs vs' g g' _ _ hvs => ?_
  obtain ⟨rfl, hshaped⟩ := sameValues hvs
  refine .mapM_same (fun o ho h h' hgh _ => ?_) ?_
  · obtain ⟨v, hv, ho⟩ := List.mem_filterMap.mp ho
    obtain ⟨t, ht, rfl⟩ := Option.map_eq_some_iff.mp ho
    refine ((Parallel.of_follows (conditionResult_follows _ _ _)).and_left
      fun result h hrun => (run_observationResult hrun).1).post fun _ _ k _ hhk _ _ hresult => ?_
    refine ⟨hresult.2, t, hresult.1, (hshaped v hv t ht).imp ?_ ?_⟩
    · exact fun t ht => hhk.isPoint (hgh.isPoint ht)
    · exact fun t ht => hhk.isPoint (hgh.isPoint ht)
  · rintro result result' h h' k k' hhk - ⟨hsame, o, ho, hshape⟩
    exact ⟨hsame, o, ho, hshape.imp (fun _ => hhk.isPoint) fun _ => hhk.isPoint⟩

end Builtin

/-- Every answer of an observation has the shape of the observed value, where only a vector of the
formula is a list in the place of a point; without vectors there is none. The atoms that the call
registers are the conditions of its answers. And arguments that differ in shape make the call fail
with nothing changed. -/
theorem observation_shaped {r : Except Error Answers}
    (h : (BuiltinTable.standard.call (c.scope fuel) "observation" [value, observed]).run f =
      some (r, g)) :
    (∀ results, r = .ok (.completed results) → ∀ result ∈ results, ∃ o, result.1 = [value, o] ∧
      ShapedLike g.IsPoint g.IsPoint value o ∧
      ((∀ name d, g.descriptor? name = some d → d.dimensions = 1) →
        ShapedLike (fun t => ¬ t.isList) (fun t => ¬ t.isList) value o)) ∧
    (∀ t id, g.findAtom? t = some id → f.findAtom? t = some id ∨
      ∃ results, r = .ok (.completed results) ∧ ∃ result ∈ results,
        t = .mkSymbolic Builtin.observationFunctor result.1) ∧
    (value.isGround → observed.isGround → ¬ SameShape value observed →
      g = f ∧ ∃ fault, r = .ok (.failed (.incorrectArgument fault))) := by
  have hfind : BuiltinTable.standard.find? "observation" [value, observed].length =
      some Builtin.observationBuiltin := rfl
  have hrule : Builtin.observationBuiltin.run (c.scope fuel) [value, observed] =
      Builtin.observationResults (c.scope fuel) value observed := rfl
  refine ⟨?_, ?_, ?_⟩
  · rintro results rfl result hresult
    obtain ⟨-, hrun⟩ := BuiltinTable.run_of_completed hfind h
    rw [hrule] at hrun
    have hall := (Builtin.observationResults_shapedLike value observed).self hrun
    obtain ⟨-, o, ho, hshape⟩ := List.forall₂_same.mp hall result hresult
    have hpoint (hpoints : ∀ name d, g.descriptor? name = some d → d.dimensions = 1) (t : Term)
        (ht : g.IsPoint t) : ¬ t.isList := by
      intro hlist
      obtain ⟨name, d, hd, hdim, -⟩ := ht hlist
      exact hdim (hpoints name d hd)
    exact ⟨o, ho, hshape, fun hpoints => hshape.imp (hpoint hpoints) (hpoint hpoints)⟩
  · intro t id ht
    rw [BuiltinTable.run_call hfind, hrule] at h
    split at h
    · cases h
      exact .inl ht
    · obtain ⟨⟨r', g'⟩, hrun, he⟩ := Option.map_eq_some_iff.mp h
      cases he
      rcases Builtin.run_observationResults hrun ht with hold | ⟨results, rfl, hnew⟩
      · exact .inl hold
      · exact .inr ⟨results, rfl, hnew⟩
  · intro hvalue hobserved hshape
    obtain ⟨fault, hrun⟩ : ∃ fault, (Builtin.observedValues (c.scope fuel) value observed).run f =
        some (.error (.incorrectArgument fault), f) :=
      Builtin.run_observedValues_of_not_sameShape hshape
    have hresults : (Builtin.observationResults (c.scope fuel) value observed).run f =
        some (.error (.incorrectArgument fault), f) := run_bind_error hrun _
    rw [BuiltinTable.run_call hfind, hrule, show Builtin.observationBuiltin.mode = "gg" from rfl,
      check_comparison "observation" hvalue hobserved, hresults] at h
    cases h
    exact ⟨rfl, fault, rfl⟩

/-- The list that is observed here is the vector of the variable. -/
theorem observation_shaped_normalVector : ∃ o guard g,
    (BuiltinTable.standard.call (standardContext.scope 1) "observation"
        [.coordinate "x#1" 0, .atom "x"]).run Formula.normalVector =
      some (.ok (.completed [([.coordinate "x#1" 0, o], guard)]), g) ∧ g.IsVector o := by
  let o := Term.ofList (Term.coordinates "x#1" 2)
  obtain ⟨guard, g, hrun⟩ : ∃ guard g,
      (BuiltinTable.standard.call (standardContext.scope 1) "observation"
          [.coordinate "x#1" 0, .atom "x"]).run Formula.normalVector =
        some (.ok (.completed [([.coordinate "x#1" 0, o], guard)]), g) := ⟨_, _, rfl⟩
  obtain ⟨hanswers, -, -⟩ := observation_shaped hrun
  obtain ⟨o', ho', hshape, -⟩ := hanswers _ rfl _ (List.mem_singleton_self _)
  obtain rfl : o = o' := by simpa using ho'
  refine ⟨o, guard, g, hrun, ?_⟩
  cases hshape with
  | coordinate _ hpoint => exact hpoint rfl
  | list _ _ hvalue => cases hvalue

/-- One coordinate of the vector is observed to be the whole vector, though a list of this length in
the place of the variable is rejected. -/
theorem observation_of_vector : Formula.LeadsTo .empty Formula.normalVector ∧
    (∃ guard g, (BuiltinTable.standard.call (standardContext.scope 1) "observation"
        [.coordinate "x#1" 0, .atom "x"]).run Formula.normalVector =
      some (.ok (.completed [([.coordinate "x#1" 0,
        .ofList [.coordinate "x#1" 0, .coordinate "x#1" 1]], guard)]), g)) ∧
    (BuiltinTable.standard.call (standardContext.scope 1) "observation"
        [.coordinate "x#1" 0, .ofList [.coordinate "x#1" 0, .coordinate "x#1" 1]]).run
          Formula.normalVector =
      some (.ok (.failed (.incorrectArgument (.observedList 2))), Formula.normalVector) :=
  ⟨Formula.empty_leadsTo_normalVector, ⟨_, _, rfl⟩, rfl⟩

end Grounding
