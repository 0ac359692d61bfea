import Grounding.Proofs.Evaluation.Parallel
import Grounding.Proofs.Formula.Alike
import Grounding.Proofs.Formula.Truth
import Grounding.Proofs.Session.Operation

/-!
# Keeping comparisons

Comparisons of numbers that pass can be kept as atoms of the formula. Then every node that is
registered later has another number, and guards are other conjunctions. Apart from that nothing
changes: the calls of a session come to the same ends, and their answers have guards that mean the
same wherever the comparisons that were kept are true.

The proof runs the calls side by side, the first run without and the second with the kept atoms.
-/

namespace Grounding

open GroundingM

/-- The assignment makes the comparisons of numbers true that hold. -/
def Respects (truth : Term → Bool) : Prop :=
  ∀ (k : Comparison) (x y : Number), k.holds x y →
    truth (.compound k.name [.constant x, .constant y])

/-- The guards hold under the same assignments that respect comparisons. -/
def SameTruth (x x' : Guard) (g h : Formula) : Prop :=
  ∀ truth, Respects truth → h.holdsBy truth x' = g.holdsBy truth x

/-- Guards of two formulas that know them and mean the same. -/
structure SameGuard (x x' : Guard) (g h : Formula) : Prop where
  left : g.Knows x
  right : h.Knows x'
  truth : SameTruth x x' g h

section Guards

variable {f₀ g h g' h' : Formula} {x x' : Guard} {xs xs' : List Guard} {s : NodeId} {t : Term}

theorem SameGuard.grow (hx : SameGuard x x' g h) (hg : g.Extends g') (hh : h.Extends h') :
    SameGuard x x' g' h' where
  left := hg.knows hx.left
  right := hh.knows hx.right
  truth truth ht := by
    rw [hh.holdsBy_eq hx.right, hx.truth truth ht, hg.holdsBy_eq hx.left]

theorem Formula.Alike.sameGuard (hr : f₀.Alike g h) (hx : f₀.Knows x) : SameGuard x x g h where
  left := hr.grownLeft.grown.knows hx
  right := hr.grownRight.knows hx
  truth truth _ := by
    rw [hr.grownRight.holdsBy_eq hx, hr.grownLeft.grown.holdsBy_eq hx]

theorem Formula.Alike.sameGuard_body (hr : f₀.Alike g h) (hf : f₀.WellFormed) (s : NodeId) :
    SameGuard (g.body s) (h.body s) g h := by
  rw [hr.body_eq]
  exact hr.sameGuard (hr.knows_body hf s)

/-- Lists of guards that mean the same one by one mean the same together. -/
theorem SameGuard.conjoinAll (hr : f₀.Alike g h)
    (hxs : List.Forall₂ (fun x x' => SameGuard x x' g h) xs xs') :
    SameGuard (Formula.conjoinAll xs g).1 (Formula.conjoinAll xs' h).1
      (Formula.conjoinAll xs g).2 (Formula.conjoinAll xs' h).2 := by
  have hk : ∀ x ∈ xs, g.Knows x := forall_of_forall₂ hxs.flip fun _ _ hx => hx.left
  have hk' : ∀ x ∈ xs', h.Knows x := forall_of_forall₂ hxs fun _ _ hx => hx.right
  refine ⟨(Formula.wellFormed_conjoinAll hr.left hk).2, (Formula.wellFormed_conjoinAll hr.right hk').2,
    fun truth ht => ?_⟩
  rw [Formula.holdsBy_conjoinAll hr.left hk, Formula.holdsBy_conjoinAll hr.right hk']
  clear hk hk'
  induction hxs with
  | nil => rfl
  | cons hx _ ih => rw [List.all_cons, List.all_cons, hx.truth truth ht, ih]

/-- An atom holds as assigned to its identifier, whatever its number. -/
theorem sameGuard_addAtom (hr : f₀.Alike g h) (t : Term) (p : Option Term) (source : Source) :
    SameGuard (.node (g.addAtom t p source).1) (.node (h.addAtom t p source).1)
      (g.addAtom t p source).2 (h.addAtom t p source).2 := by
  obtain ⟨_, _, hn⟩ :=
    ((hr.addAtom t p source).left.findAtom_iff t _).mp (g.findAtom?_addAtom t p source)
  obtain ⟨_, _, hn'⟩ :=
    ((hr.addAtom t p source).right.findAtom_iff t _).mp (h.findAtom?_addAtom t p source)
  refine ⟨Formula.index_lt_of_node? hn, Formula.index_lt_of_node? hn', fun truth _ => ?_⟩
  rw [Formula.holdsBy_atom hn, Formula.holdsBy_atom hn']

end Guards

section Evaluation

open Formula (Alike)

variable {f₀ g h : Formula} {v : Term} {s : NodeId} {c : Context} {fuel : Nat}

theorem conjoinAll_same {xs xs' : List Guard}
    (hxs : List.Forall₂ (fun x x' => SameGuard x x' g h) xs xs') :
    Parallel (Alike f₀) g h (update (Formula.conjoinAll xs)) (update (Formula.conjoinAll xs'))
      SameGuard := by
  refine .update (g.extends_conjoinAll xs) (h.extends_conjoinAll xs') fun hr => ⟨?_, ?_⟩
  · exact hr.conjoinAll (forall_of_forall₂ hxs.flip fun _ _ hx => hx.left)
      (forall_of_forall₂ hxs fun _ _ hx => hx.right)
  · exact SameGuard.conjoinAll hr hxs

theorem addAtom_same (t : Term) (p : Option Term) (source : Source) :
    Parallel (Alike f₀) g h (update (Formula.addAtom t p source))
      (update (Formula.addAtom t p source)) fun id id' => SameGuard (.node id) (.node id') :=
  .update (g.extends_addAtom t p source) (h.extends_addAtom t p source) fun hr =>
    ⟨hr.addAtom t p source, sameGuard_addAtom hr t p source⟩

/-- Asking both formulas for a descriptor gives the same one. -/
theorem attempt_same {op : Formula → Except Error (Descriptor × Formula)}
    (hop : Alike f₀ g h → Formula.SameDescriptor g h (op g) (op h)) :
    Parallel (Alike f₀) g h (attempt op) (attempt op) fun d d' _ _ => d' = d := by
  refine .attempt fun hr => ?_
  have hsame := hop hr
  generalize op g = p, op h = q at hsame ⊢
  cases hsame with
  | error e => exact .inl ⟨e, rfl, rfl⟩
  | found d => exact .inr ⟨d, g, d, h, rfl, rfl, .refl g, .refl h, hr, rfl⟩
  | fixed d hnew =>
    have hnew' : h.descriptor? d.name = none := (hr.descriptor?_eq d.name).trans hnew
    exact .inr ⟨d, _, d, _, rfl, rfl, Formula.extends_withDescriptor hnew,
      Formula.extends_withDescriptor hnew', hr.withDescriptor hnew, rfl⟩

/-- Evaluation on both formulas comes to the same values. -/
theorem simulation_same (hf : f₀.WellFormed) : Simulation (Alike f₀) (SameUnder SameGuard) :=
  GuardSimulation.simulation {
    sites := fun _ _ hr => hr.sites_eq
    stable := fun _ _ _ _ _ _ hg hh hx => hx.grow hg hh
    always := fun _ _ => ⟨trivial, trivial, fun _ _ => rfl⟩
    probability := fun _ _ _ _ hr hs => hr.probability?_eq hf hs
    body := fun _ s _ _ hr _ => hr.sameGuard_body hf s
    descriptor := fun _ _ _ _ hs => attempt_same fun hr =>
      Formula.descriptorOf_same (hr.probability?_eq hf hs) (hr.descriptor?_eq _)
    conjoined := fun _ _ _ _ => conjoinAll_same }

end Evaluation

/-- The context with another decision about keeping comparisons. -/
def Context.keeping (c : Context) (keep : Bool) : Context :=
  { c with settings := { c.settings with keepBuiltins := keep } }

/-- Evaluation does not ask whether comparisons are kept. -/
theorem evaluate_keeping (c : Context) (keep : Bool) (fuel : Nat) (t : Term) :
    evaluate (c.keeping keep) fuel t = evaluate c fuel t := by
  have hstep (next : List Term → Term → GroundingM (List GuardedValue)) :
      evaluateStep (c.keeping keep) next = evaluateStep c next := rfl
  have hwith (fuel : Nat) : evaluateWith (c.keeping keep) fuel = evaluateWith c fuel := by
    induction fuel with
    | zero => rfl
    | succ fuel ih => rw [evaluateWith, ih, hstep, evaluateWith]
  rw [evaluate, hwith, evaluate]

/-- Results with the same arguments, under guards that mean the same. -/
structure SameResult (r r' : List Term × Guard) (g h : Formula) : Prop where
  args : r'.1 = r.1
  guard : SameGuard r.2 r'.2 g h

abbrev SameResults (rs rs' : Results) (g h : Formula) : Prop :=
  List.Forall₂ (fun r r' => SameResult r r' g h) rs rs'

theorem SameResult.grow {r r' : List Term × Guard} {g h g' h' : Formula} (hr : SameResult r r' g h)
    (hg : g.Extends g') (hh : h.Extends h') : SameResult r r' g' h' :=
  ⟨hr.args, hr.guard.grow hg hh⟩

section Builtins

open Formula (Alike)

variable {f₀ g h : Formula} {c : Context} {fuel : Nat}

/-- What the rules are run with, without and with keeping comparisons. -/
theorem evaluate_same (hf : f₀.WellFormed) (t : Term) : Parallel (Alike f₀) g h
    (((c.keeping false).scope fuel).evaluate t) (((c.keeping true).scope fuel).evaluate t)
    (Simulation.Values (SameUnder SameGuard)) := by
  show Parallel (Alike f₀) g h (evaluate (c.keeping false) fuel t) (evaluate (c.keeping true) fuel t) _
  rw [evaluate_keeping, evaluate_keeping]
  exact (simulation_same hf).evaluate fuel t

/-- The first run returns the guard of the pair, the second one conjoins an atom that is true. -/
theorem passingGuard_same (k : Comparison) {settings settings' : Settings}
    (hkeep : settings.keepBuiltins = false) (hkeep' : settings'.keepBuiltins = true) {x y : Number}
    (hxy : k.holds x y) {pair pair' : Guard} (hpair : SameGuard pair pair' g h) :
    Parallel (Alike f₀) g h (k.passingGuard settings x y pair) (k.passingGuard settings' x y pair')
      SameGuard := by
  let atom := Term.compound k.name [.constant x, .constant y]
  let h₁ := (h.addAtom atom none .builtin).2
  let node := (h.addAtom atom none .builtin).1
  have hgrown : h.Extends h₁ := h.extends_addAtom atom none .builtin
  have hpassing : k.passingGuard settings x y pair = pure pair := by
    rw [Comparison.passingGuard, hkeep]
    rfl
  have hpassing' : k.passingGuard settings' x y pair' =
      (update (Formula.addAtom atom none .builtin) >>= fun node =>
        update (Formula.conjoin pair' (.node node)) >>= pure) := by
    rw [Comparison.passingGuard, hkeep']
    exact congrArg _ (funext fun node => (bind_pure _).symm)
  rw [hpassing, hpassing']
  intro hr
  have hr₁ : Alike f₀ g h₁ := hr.addAtom_right atom none .builtin
  obtain ⟨_, _, hn⟩ := (hr₁.right.findAtom_iff atom node).mp (h.findAtom?_addAtom atom none .builtin)
  have hk : ∀ x ∈ [pair', .node node], h₁.Knows x := by
    simp only [List.mem_cons, List.not_mem_nil, or_false, forall_eq_or_imp, forall_eq]
    exact ⟨hgrown.knows hpair.right, Formula.index_lt_of_node? hn⟩
  refine Parallel.update_right hgrown (fun _ => hr₁) (Parallel.update_right
    (h₁.extends_conjoinAll [pair', .node node]) (fun _ => hr₁.conjoinAll_right hk)
    (.pure fun _ => ⟨hpair.left, (Formula.wellFormed_conjoinAll hr₁.right hk).2,
      fun truth ht => ?_⟩)) hr
  have hatom : h₁.holdsBy truth (.node node) = true := by
    rw [Formula.holdsBy_atom hn]
    exact ht k x y hxy
  rw [show Formula.conjoin pair' (.node node) = Formula.conjoinAll [pair', .node node] from rfl,
    Formula.holdsBy_conjoinAll hr₁.right hk, List.all_cons, List.all_cons, List.all_nil, hatom,
    hgrown.holdsBy_eq hpair.right, hpair.truth truth ht, Bool.and_true, Bool.and_true]

theorem conditionResult_same (functor : String) (operands : List Term) {x x' : Guard}
    (hx : SameGuard x x' g h) :
    Parallel (Alike f₀) g h (Comparison.conditionResult functor operands x)
      (Comparison.conditionResult functor operands x') SameResult := by
  unfold Comparison.conditionResult
  refine (addAtom_same _ _ _).bind fun id id' g' h' hg hh hid => ?_
  refine (conjoinAll_same (.cons (hx.grow hg hh) (.cons hid .nil))).bind fun y y' _ _ _ _ hy => ?_
  exact .pure fun _ => ⟨rfl, hy⟩

theorem pairResult_same (k : Comparison) {settings settings' : Settings}
    (hkeep : settings.keepBuiltins = false) (hkeep' : settings'.keepBuiltins = true)
    (args : List Term) {a a' b b' : GuardedValue} (ha : SameUnder SameGuard a a' g h)
    (hb : SameUnder SameGuard b b' g h) :
    Parallel (Alike f₀) g h (k.pairResult settings args a b) (k.pairResult settings' args a' b')
      SameResult := by
  unfold Comparison.pairResult
  rw [ha.value, hb.value]
  refine (conjoinAll_same (.cons ha.guard (.cons hb.guard .nil))).bind fun x x' g' h' _ _ hx => ?_
  have hnever : SameGuard .never .never g' h' := ⟨trivial, trivial, fun _ _ => rfl⟩
  split
  · split
    · next hxy =>
      exact (passingGuard_same k hkeep hkeep' hxy hx).bind fun y y' _ _ _ _ hy =>
        .pure fun _ => ⟨rfl, hy⟩
    · exact .pure fun _ => ⟨rfl, hnever⟩
  · exact .pure fun _ => ⟨rfl, hnever⟩
  · exact .pure fun _ => ⟨rfl, hnever⟩
  · exact conditionResult_same _ _ hx

theorem comparison_same (hf : f₀.WellFormed) (k : Comparison) (left right : Term) :
    Parallel (Alike f₀) g h (k.results ((c.keeping false).scope fuel) left right)
      (k.results ((c.keeping true).scope fuel) left right) SameResults := by
  unfold Comparison.results
  refine (evaluate_same hf left).bind fun ls ls' g₁ h₁ _ _ hls => ?_
  refine (evaluate_same hf right).bind fun rs rs' g₂ h₂ hg₂ hh₂ hrs => ?_
  have hls := (simulation_same hf).stable_values _ _ _ _ _ _ hg₂ hh₂ hls
  have hsize := checkProductSize_congr (.cons hls (.cons hrs .nil)) c.settings.maxCombinations
  have hpairs : List.Forall₂
      (fun p p' => SameUnder SameGuard p.1 p'.1 g₂ h₂ ∧ SameUnder SameGuard p.2 p'.2 g₂ h₂)
      (ls.flatMap fun a => rs.map (a, ·)) (ls'.flatMap fun a => rs'.map (a, ·)) :=
    List.rel_flatMap hls fun _ _ ha => List.rel_map (fun _ _ hb => ⟨ha, hb⟩) hrs
  rw [show ((c.keeping true).scope fuel).settings.maxCombinations = c.settings.maxCombinations
    from rfl, show ((c.keeping false).scope fuel).settings.maxCombinations =
      c.settings.maxCombinations from rfl, hsize]
  refine .ofExcept_bind fun _ _ => .mapM hpairs (fun p p' g₃ h₃ hg₃ hh₃ hp => ?_)
    fun r r' _ _ _ _ hg hh hr => hr.grow hg hh
  exact pairResult_same k rfl rfl [left, right] ⟨hp.1.value, hp.1.guard.grow hg₃ hh₃⟩
    ⟨hp.2.value, hp.2.guard.grow hg₃ hh₃⟩

theorem isResults_same (hf : f₀.WellFormed) (x t : Term) :
    Parallel (Alike f₀) g h (Builtin.isResults ((c.keeping false).scope fuel) x t)
      (Builtin.isResults ((c.keeping true).scope fuel) x t) SameResults := by
  refine (evaluate_same hf t).bind fun vs vs' g' h' _ _ hvs => .pure fun _ => ?_
  refine List.rel_filterMap (fun v v' hv => ?_) hvs
  rw [hv.value]
  cases v.value.term? with
  | none => exact .none
  | some u => exact .some ⟨rfl, hv.guard⟩

/-- An operation on what the formulas keep beside their nodes. -/
theorem modify_same {op : Formula → Formula} {P : Edit → Prop} (hP : ∀ e, P e → e.KeepsSites)
    (hg : Alike f₀ g h → g.Chain P (op g)) (hh : Alike f₀ g h → h.Chain P (op h))
    (hop : ∀ f : Formula, (op f).withoutNodes = op f.withoutNodes) :
    Parallel (Alike f₀) g h (modify op) (modify op) fun _ _ _ _ => True := by
  intro hr
  have hrest : (op h).withoutNodes = (op g).withoutNodes := by rw [hop, hr.rest, ← hop]
  exact Parallel.modify (hg hr).grows (hh hr).grows (fun hr => ⟨hr.step ((hg hr).growsTo hP)
    ((hg hr).wellFormed hr.left) (hh hr).grows ((hh hr).wellFormed hr.right) hrest, trivial⟩) hr

theorem densityResult_same (hf : f₀.WellFormed) (v : Term) (s : NodeId) :
    Parallel (Alike f₀) g h (Builtin.densityResult v s) (Builtin.densityResult v s) SameResult := by
  unfold Builtin.densityResult
  refine .get_bind fun hr => ?_
  have hbody := hr.sameGuard_body hf s
  rw [hr.body_eq] at hbody ⊢
  let density := Term.density (realizationName v s)
  have hmodify : Parallel (Alike f₀) g h
      (modify fun f => (f.addName density (g.body s) .query).addDensity v density)
      (modify fun f => (f.addName density (g.body s) .query).addDensity v density)
      fun _ _ _ _ => True :=
    modify_same (fun _ => Edit.ByDensity.keepsSites) (fun _ => Builtin.density_chain v s hbody.left)
      (fun _ => Builtin.density_chain v s hbody.right) fun _ => rfl
  exact hmodify.bind fun _ _ _ _ hg hh _ => .pure fun _ => ⟨rfl, hbody.grow hg hh⟩

theorem densityResults_same (hf : f₀.WellFormed) (v : Term) :
    Parallel (Alike f₀) g h (Builtin.densityResults ((c.keeping false).scope fuel) v)
      (Builtin.densityResults ((c.keeping true).scope fuel) v) SameResults := by
  unfold Builtin.densityResults
  refine .get_bind fun hr => ?_
  rw [(simulation_same hf).sites?_eq hr]
  split
  · exact .throw _
  · exact .mapM_same (fun s _ _ _ _ _ => densityResult_same hf v s) fun _ _ _ _ _ _ hg hh hr =>
      hr.grow hg hh

theorem sameResults_always (args : List Term) :
    SameResults [(args, Guard.always)] [(args, Guard.always)] g h :=
  .cons ⟨rfl, trivial, trivial, fun _ _ => rfl⟩ .nil

theorem addFree_same (vs : List Term) : Parallel (Alike f₀) g h
    (modify fun f => vs.foldl (fun f v => f.addFree v) f)
    (modify fun f => vs.foldl (fun f v => f.addFree v) f) fun _ _ _ _ => True := by
  refine modify_same (fun _ => Edit.ByFree.keepsSites)
    (fun _ => Builtin.addFree_chain vs fun _ hv => hv)
    (fun _ => Builtin.addFree_chain vs fun _ hv => hv) fun f => ?_
  induction vs generalizing f with
  | nil => rfl
  | cons v vs ih => exact ih (f.addFree v)

theorem freeResults_same (v : Term) :
    Parallel (Alike f₀) g h (Builtin.freeResults ((c.keeping false).scope fuel) v)
      (Builtin.freeResults ((c.keeping true).scope fuel) v) SameResults :=
  (addFree_same [v]).bind fun _ _ _ _ _ _ _ => .pure fun _ => sameResults_always [v]

theorem freeListResults_same (vs : Term) :
    Parallel (Alike f₀) g h (Builtin.freeListResults ((c.keeping false).scope fuel) vs)
      (Builtin.freeListResults ((c.keeping true).scope fuel) vs) SameResults := by
  unfold Builtin.freeListResults
  split
  · exact .throw _
  · exact (addFree_same _).bind fun _ _ _ _ _ _ _ => .pure fun _ => sameResults_always [vs]

theorem asResult_same (hf : f₀.WellFormed) {v : Term} {s : NodeId} (hs : g.IsSite v s)
    (length : Option Nat) :
    Parallel (Alike f₀) g h (Builtin.asResult v length s) (Builtin.asResult v length s)
      fun r r' g h => Option.Rel (fun r r' => SameResult r r' g h) r r' := by
  unfold Builtin.asResult
  have hdescriptor : Parallel (Alike f₀) g h (attempt (·.descriptorWith v s (length.getD 1)))
      (attempt (·.descriptorWith v s (length.getD 1))) fun d d' _ _ => d' = d :=
    attempt_same fun hr => Formula.descriptorWith_same (hr.probability?_eq hf hs)
      (hr.descriptor?_eq _) _
  refine hdescriptor.bind fun d d' g' h' _ _ hd => .get_bind fun hr => .pure fun _ => ?_
  rw [hd]
  cases Builtin.boundValue? length.isSome d.coordinates with
  | none => exact .none
  | some t => exact .some ⟨rfl, hr.sameGuard_body hf s⟩

theorem asResults_same (hf : f₀.WellFormed) (value v : Term) :
    Parallel (Alike f₀) g h (Builtin.asResults ((c.keeping false).scope fuel) value v)
      (Builtin.asResults ((c.keeping true).scope fuel) value v) SameResults := by
  unfold Builtin.asResults
  refine .get_bind fun hr => ?_
  rw [(simulation_same hf).sites?_eq hr]
  cases hsites : g.sites? v with
  | none => exact .throw _
  | some sites =>
    refine Parallel.bind (.mapM_same (fun s hs g' h' hg _ =>
      asResult_same hf (hg.isSite ⟨sites, hsites, hs⟩) _) fun r r' _ _ _ _ hg hh hr => ?_)
      fun rs rs' _ _ _ _ hrs => .pure fun _ => List.rel_filterMap (fun _ _ hr => hr) hrs
    cases hr with
    | none => exact .none
    | some hr => exact .some (hr.grow hg hh)

theorem observedTuple_same {tuple tuple' : List GuardedValue}
    (htuple : List.Forall₂ (fun v v' => SameUnder SameGuard v v' g h) tuple tuple') :
    Parallel (Alike f₀) g h (Builtin.observedTuple tuple) (Builtin.observedTuple tuple')
      (SameUnder SameGuard) := by
  have hterms (vs : List GuardedValue) :
      vs.mapM (·.value.term?) = (vs.map (·.value)).mapM Value.term? := by
    rw [List.mapM_map]
    rfl
  unfold Builtin.observedTuple
  rw [hterms tuple, hterms tuple', SameUnder.map_value htuple]
  exact (conjoinAll_same (SameUnder.map_guard htuple)).bind fun x x' _ _ _ _ hx =>
    .pure fun _ => ⟨rfl, hx⟩

theorem observedVectors_same (hf : f₀.WellFormed) (items : List Term) :
    Parallel (Alike f₀) g h (Builtin.observedVectors ((c.keeping false).scope fuel) items)
      (Builtin.observedVectors ((c.keeping true).scope fuel) items)
      (Simulation.Values (SameUnder SameGuard)) := by
  have sim := simulation_same hf
  unfold Builtin.observedVectors
  refine Parallel.bind (.mapM_same (fun t _ g h _ _ => evaluate_same hf t) sim.stable_values)
    fun vss vss' g' h' _ _ hvss => ?_
  have hsize := checkProductSize_congr hvss c.settings.maxCombinations
  rw [show ((c.keeping true).scope fuel).settings.maxCombinations = c.settings.maxCombinations
    from rfl, show ((c.keeping false).scope fuel).settings.maxCombinations =
      c.settings.maxCombinations from rfl, hsize]
  refine .ofExcept_bind fun _ _ => .mapM (forall₂_tuples hvss) (fun tuple tuple' _ _ hg hh ht => ?_)
    sim.stable
  exact observedTuple_same (sim.stable_values _ _ _ _ _ _ hg hh ht)

theorem observedValues_same (hf : f₀.WellFormed) (value observed : Term) :
    Parallel (Alike f₀) g h (Builtin.observedValues ((c.keeping false).scope fuel) value observed)
      (Builtin.observedValues ((c.keeping true).scope fuel) value observed)
      (Simulation.Values (SameUnder SameGuard)) := by
  unfold Builtin.observedValues
  split
  · exact .ofExcept_bind fun _ _ => .ofExcept_bind fun items _ => observedVectors_same hf items
  · refine .ofExcept_bind fun _ _ => ?_
    split
    · exact .throw _
    · exact evaluate_same hf observed

theorem observationResults_same (hf : f₀.WellFormed) (value observed : Term) :
    Parallel (Alike f₀) g h
      (Builtin.observationResults ((c.keeping false).scope fuel) value observed)
      (Builtin.observationResults ((c.keeping true).scope fuel) value observed) SameResults := by
  unfold Builtin.observationResults
  refine (observedValues_same hf value observed).bind fun vs vs' g' h' _ _ hvs => ?_
  have hobserved : List.Forall₂ (fun o o' => o'.1 = o.1 ∧ SameGuard o.2 o'.2 g' h')
      (vs.filterMap fun v => v.value.term?.map (·, v.guard))
      (vs'.filterMap fun v => v.value.term?.map (·, v.guard)) := by
    refine List.rel_filterMap (fun v v' hv => ?_) hvs
    rw [hv.value]
    cases v.value.term? with
    | none => exact .none
    | some t => exact .some ⟨rfl, hv.guard⟩
  refine .mapM hobserved (fun o o' _ _ hg hh ho => ?_) fun _ _ _ _ _ _ hg hh hr => hr.grow hg hh
  rw [Builtin.observationResult, Builtin.observationResult, ho.1]
  exact conditionResult_same _ _ (ho.2.grow hg hh)

end Builtins

/-- Calls that end alike: with one error, with one failure, or with the same results. -/
inductive SameAnswers : Answers → Answers → Formula → Formula → Prop
  | failed (e : Error) {g h : Formula} : SameAnswers (.failed e) (.failed e) g h
  | completed {rs rs' : Results} {g h : Formula} (hrs : SameResults rs rs' g h) :
      SameAnswers (.completed rs) (.completed rs') g h

open Formula (Alike)

variable {f₀ f g h : Formula} {c : Context} {fuel : Nat}

theorem run_same (hf : f₀.WellFormed) {b : Builtin} (hb : b ∈ BuiltinTable.standardBuiltins)
    (args : List Term) : Parallel (Alike f₀) g h (b.run ((c.keeping false).scope fuel) args)
      (b.run ((c.keeping true).scope fuel) args) SameResults := by
  refine BuiltinTable.run_standard_pair (C := fun x y => Parallel (Alike f₀) g h x y SameResults)
    .throw ?_ ?_ ?_ ?_ ?_ ?_ ?_ hb args
  · exact fun k t u => comparison_same hf k t u
  · exact fun t u => isResults_same hf t u
  · exact fun t => densityResults_same hf t
  · exact fun t => freeResults_same t
  · exact fun t => freeListResults_same t
  · exact fun t u => asResults_same hf t u
  · exact fun t u => observationResults_same hf t u

theorem call_same (hf : f₀.WellFormed) (name : String) (args : List Term) :
    Parallel (Alike f₀) g h
      (BuiltinTable.standard.call ((c.keeping false).scope fuel) name args)
      (BuiltinTable.standard.call ((c.keeping true).scope fuel) name args) SameAnswers := by
  unfold BuiltinTable.call
  cases hfind : BuiltinTable.standard.find? name args.length with
  | none => exact .throw _
  | some b =>
    refine .tryCatch (.ofExcept_bind fun _ _ => ?_) fun e g' h' _ _ => ?_
    · exact (run_same hf (BuiltinTable.mem_of_find? hfind) args).bind fun _ _ _ _ _ _ hrs =>
        .pure fun _ => .completed hrs
    · unfold BuiltinTable.recover
      split
      · exact .pure fun _ => .failed e
      · exact .throw e

/-- One call of a standard builtin: what it runs against, its bound on the nesting of evaluations,
and its arguments. -/
structure Call where
  context : Context
  fuel : Nat
  name : String
  args : List Term

/-- The ends of calls in a row, each with the formula that it leaves. -/
def Formula.calls (keep : Bool) :
    List Call → Formula → Option (List (Except Error Answers × Formula))
  | [], _ => some []
  | call :: rest, f => do
    let scope := (call.context.keeping keep).scope call.fuel
    let (r, g) ← (BuiltinTable.standard.call scope call.name call.args).run f
    let ends ← calls keep rest g
    return (r, g) :: ends

/-- Both calls abort with one error, or both end alike. -/
inductive SameEnd : Except Error Answers × Formula → Except Error Answers × Formula → Prop
  | error (e : Error) {g h : Formula} : SameEnd (.error e, g) (.error e, h)
  | ok {answers answers' : Answers} {g h : Formula} (hanswers : SameAnswers answers answers' g h) :
      SameEnd (.ok answers, g) (.ok answers', h)

theorem calls_same (hf : f₀.WellFormed) (hr : Alike f₀ g h) (calls : List Call) :
    Option.Rel (List.Forall₂ SameEnd) (g.calls false calls) (h.calls true calls) := by
  induction calls generalizing g h with
  | nil => exact .some .nil
  | cons call calls ih =>
    let run (keep : Bool) (f : Formula) := (BuiltinTable.standard.call
      ((call.context.keeping keep).scope call.fuel) call.name call.args).run f
    have hcons (keep : Bool) (f : Formula) : f.calls keep (call :: calls) =
        (run keep f).bind fun p => (p.2.calls keep calls).bind fun ends => some (p :: ends) := rfl
    have hrest {p p' : Except Error Answers × Formula} (hr' : Alike f₀ p.2 p'.2)
        (hend : SameEnd p p') : Option.Rel (List.Forall₂ SameEnd)
          ((p.2.calls false calls).bind fun ends => some (p :: ends))
          ((p'.2.calls true calls).bind fun ends => some (p' :: ends)) := by
      have hends := ih hr'
      generalize p.2.calls false calls = q, p'.2.calls true calls = q' at hends ⊢
      cases hends with
      | none => exact .none
      | some hends => exact .some (.cons hend hends)
    have hrun : Ends (Alike f₀) g h SameAnswers (run false g) (run true h) :=
      call_same hf call.name call.args hr
    rw [hcons, hcons]
    generalize run false g = p, run true h = p' at hrun ⊢
    cases hrun with
    | outOfFuel => exact .none
    | error e _ _ hr' => exact hrest hr' (.error e)
    | ok _ _ hr' hanswers => exact hrest hr' (.ok hanswers)

/-- From a reachable formula on, any calls of the standard builtins come to the same ends whether
comparisons that pass are kept or not: call by call both abort with the same error, fail for the
same reason, or answer as often and with the same arguments. Corresponding guards name nodes of
their formulas and hold under the same assignments to identifiers among those that make the
comparisons of numbers true that hold. -/
theorem calls_keeping (hf : f.Reachable) (calls : List Call) :
    Option.Rel (List.Forall₂ SameEnd) (f.calls false calls) (f.calls true calls) :=
  calls_same hf.wellFormed (.refl hf.wellFormed) calls

/-- A comparison that passes at one site and is symbolic at the other: one node is registered, or
three if the comparison that passed is kept. -/
theorem calls_keeping_rainy : ∃ ends ends',
    Formula.rainy.calls false [⟨standardContext, 1, "<", [.atom "x", .constant (.int 3)]⟩] =
        some ends ∧
      Formula.rainy.calls true [⟨standardContext, 1, "<", [.atom "x", .constant (.int 3)]⟩] =
        some ends' ∧
      ends.map (·.2.size) = [4] ∧ ends'.map (·.2.size) = [6] ∧ List.Forall₂ SameEnd ends ends' := by
  obtain ⟨ends, hends, hsizes⟩ : ∃ ends, Formula.rainy.calls false
      [⟨standardContext, 1, "<", [.atom "x", .constant (.int 3)]⟩] = some ends ∧
        ends.map (·.2.size) = [4] := Option.map_eq_some_iff.mp rfl
  obtain ⟨ends', hends', hsizes'⟩ : ∃ ends', Formula.rainy.calls true
      [⟨standardContext, 1, "<", [.atom "x", .constant (.int 3)]⟩] = some ends' ∧
        ends'.map (·.2.size) = [6] := Option.map_eq_some_iff.mp rfl
  have hsame := calls_keeping Formula.rainy_reachable
    [⟨standardContext, 1, "<", [.atom "x", .constant (.int 3)]⟩]
  rw [hends, hends'] at hsame
  cases hsame with
  | some hsame => exact ⟨ends, ends', hends, hends', hsizes, hsizes', hsame⟩

end Grounding
