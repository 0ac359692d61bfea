import Grounding.Arithmetic.Standard
import Grounding.Proofs.Builtin.Effect

/-!
# Reachable formulas

A formula comes about by operations: nodes, sites, names and the rest are registered, expressions
are evaluated under any functions, resolver and settings, and the standard builtins are called. An
operation may fail half way; what it registered before stays. The only demand on the caller is that
the guards passed in are constants or name nodes that exist.

Guarded evaluation on a reachable formula agrees with evaluation without guards in every world. The
values that are present in a world are those that the expression has there, in the same order and
as often.
-/

namespace Grounding

open GroundingM

/-- What can be done with a formula. -/
inductive Operation where
  | atom (identifier : Term) (probability : Option Term) (source : Source)
  | conjoin (guards : List Guard)
  | site (v : Term) (distribution : Option Term) (body : Guard)
  | name (term : Term) (guard : Guard) (label : Label)
  | density (v density : Term)
  | free (v : Term)
  /-- Asks for the descriptor of a realization with this number of coordinates. -/
  | descriptor (v : Term) (site : NodeId) (dimensions : Nat)
  /-- Asks for the descriptor of a realization, whatever its number of coordinates. -/
  | realization (v : Term) (site : NodeId)
  | realize (v : Term)
  | evaluate (c : Context) (fuel : Nat) (t : Term)
  | apply (c : Context) (fuel : Nat) (name : String) (args : List Term)
  | call (c : Context) (fuel : Nat) (name : String) (args : List Term)

/-- What an operation gives back. -/
inductive Outcome where
  | done
  | guard (x : Guard)
  | descriptor (d : Descriptor)
  | values (vs : List GuardedValue)
  | answers (answers : Answers)

/-- The guards that an operation gives back, those of values and answers included. -/
def Outcome.guards : Outcome → List Guard
  | .done | .descriptor _ => []
  | .guard x => [x]
  | .values vs => vs.map (·.guard)
  | .answers given => given.results.map (·.guard)

namespace Operation

def run : Operation → GroundingM Outcome
  | .atom t p s => return .guard (.node (← update (Formula.addAtom t p s)))
  | .conjoin guards => return .guard (← update (Formula.conjoinAll guards))
  | .site v p body => return .guard (.node (← update (Formula.addSite v p body)))
  | .name t x l => do
    modify fun f => f.addName t x l
    return .done
  | .density v d => do
    modify fun f => f.addDensity v d
    return .done
  | .free v => do
    modify fun f => f.addFree v
    return .done
  | .descriptor v id n => return .descriptor (← attempt (·.descriptorWith v id n))
  | .realization v id => return .descriptor (← attempt (·.descriptorOf v id))
  | .realize v => return .values (← realizedValues v)
  | .evaluate c fuel t => return .values (← Grounding.evaluate c fuel t)
  | .apply c fuel functor args => return .values (← applyFunction c fuel functor args)
  | .call c fuel functor args =>
    return .answers (← BuiltinTable.standard.call (c.scope fuel) functor args)

/-- Every guard that is passed in is a constant or names a node of the formula. -/
def Admissible (f : Formula) : Operation → Prop
  | .conjoin guards => ∀ x ∈ guards, f.Knows x
  | .site _ _ body => f.Knows body
  | .name _ x _ => f.Knows x
  | _ => True

instance (f : Formula) : (op : Operation) → Decidable (op.Admissible f)
  | .conjoin guards => inferInstanceAs (Decidable (∀ x ∈ guards, f.Knows x))
  | .site _ _ body => inferInstanceAs (Decidable (f.Knows body))
  | .name _ x _ => inferInstanceAs (Decidable (f.Knows x))
  | .atom .. | .density .. | .free _ | .descriptor .. | .realization .. | .realize _
  | .evaluate .. | .apply .. | .call .. => isTrue trivial

end Operation

/-- `g` comes from `f` by operations, each of which may succeed or fail. -/
inductive Formula.Reaches (f : Formula) : Formula → Prop
  | refl : Reaches f f
  | step {g h : Formula} (op : Operation) {r : Except Error Outcome} (hg : Reaches f g)
      (hop : op.Admissible g) (hrun : op.run.run g = some (r, h)) : Reaches f h

/-- A formula that operations lead to from the empty one. -/
def Formula.Reachable (f : Formula) : Prop := Formula.Reaches .empty f

variable {f g : Formula}

abbrev Edit.Any : Edit → Prop := fun _ => True

theorem applyFunction_performs (hf : f.WellFormed) (c : Context) (fuel : Nat) (name : String)
    (args : List Term) :
    Performs Edit.ByEvaluation f (applyFunction c fuel name args) fun vs h =>
      ∀ v ∈ vs, h.Knows v.guard := by
  unfold applyFunction
  cases c.functions.find? name args.length with
  | none => exact .throw
  | some function =>
    have hargs : Performs Edit.ByEvaluation f (args.mapM (evaluate c fuel)) fun vss h =>
        ∀ vs ∈ vss, ∀ v ∈ vs, h.Knows v.guard :=
      .mapM_forall (fun t _ g hfg => evaluate_known (hfg.wellFormed hf) t)
        fun _ _ _ _ hgh hvs v hv => hgh.knows (hvs v hv)
    exact hargs.bind fun vss g hfg hvss =>
      (applyToOperands_means (hfg.wellFormed hf) hvss).post fun _ _ _ hm => hm.known

/-- One operation makes fitting edits, and every guard it gives back is known afterwards. -/
theorem Operation.run_performs (hf : f.WellFormed) {op : Operation} (hop : op.Admissible f) :
    Performs Edit.Any f op.run fun outcome h => ∀ x ∈ outcome.guards, h.Knows x := by
  -- what the operations give back: a node, values, nothing, or a descriptor
  have hnode {t : Term} {id : NodeId} {h : Formula} (hfh : f.Chain Edit.Any h)
      (hid : h.findAtom? t = some id) : ∀ x ∈ [Guard.node id], h.Knows x := by
    intro x hx
    rw [List.mem_singleton.mp hx]
    exact knows_of_findAtom? (hfh.wellFormed hf) hid
  have hvalues {m : GroundingM (List GuardedValue)}
      (hm : Performs Edit.ByEvaluation f m fun vs h => ∀ v ∈ vs, h.Knows v.guard) :
      Performs Edit.Any f (do return Outcome.values (← m)) fun outcome h =>
        ∀ x ∈ outcome.guards, h.Knows x :=
    (hm.mono fun _ _ => trivial).bind fun vs h _ hvs => .pure (List.forall_mem_map.mpr hvs)
  have hdone {e : Edit} (he : e.Fits f) {edit : Formula → Formula} (hedit : ∀ f, edit f = e.apply f) :
      Performs Edit.Any f (do modify edit; return Outcome.done) fun outcome h =>
        ∀ x ∈ outcome.guards, h.Knows x := by
    refine Performs.bind (Q := fun _ _ => True) (.modify ?_ trivial) fun _ _ _ _ => .pure ?_
    · rw [hedit]
      exact .single trivial he
    · exact fun x hx => by cases hx
  have hdescriptor {ask : Formula → Except Error (Descriptor × Formula)} {P : Edit → Prop}
      (hask : ∀ d g, ask f = .ok (d, g) → f.Chain P g) :
      Performs Edit.Any f (do return Outcome.descriptor (← attempt ask)) fun outcome h =>
        ∀ x ∈ outcome.guards, h.Knows x := by
    refine Performs.bind (Q := fun _ _ => True) (.attempt fun d g h => ⟨?_, trivial⟩)
      fun d g _ _ => .pure fun x hx => by cases hx
    exact (hask d g h).mono fun _ _ => trivial
  cases op with
  | atom t p s => exact (addAtom_performs trivial).bind fun _ _ hfh hid => .pure (hnode hfh hid)
  | conjoin guards =>
    refine (conjoinAll_performs hf trivial hop).bind fun y h _ hy => .pure fun x hx => ?_
    rw [List.mem_singleton.mp hx]
    exact hy.1
  | site v p body =>
    have hsite : Performs Edit.Any f (update (Formula.addSite v p body)) fun id h =>
        h.findAtom? (siteIdentifier v p body) = some id :=
      .update (e := .site v p body) rfl trivial hop (f.findAtom?_addAtom _ p .realization)
    exact hsite.bind fun _ _ hfh hid => .pure (hnode hfh hid)
  | name t x l => exact hdone (e := .name t x l) hop fun _ => rfl
  | density v d => exact hdone (e := .density v d) trivial fun _ => rfl
  | free v => exact hdone (e := .free v) trivial fun _ => rfl
  | descriptor v id n => exact hdescriptor fun _ _ => Builtin.descriptorWith_chain
  | realization v id => exact hdescriptor fun _ _ h => (Formula.descriptorOf_chain h).1
  | realize v =>
    exact hvalues ((realizedValues_means hf .refl v).post fun _ _ _ hm => hm.known)
  | evaluate c fuel t => exact hvalues (evaluate_known hf t)
  | apply c fuel functor args => exact hvalues (applyFunction_performs hf c fuel functor args)
  | call c fuel functor args =>
    exact ((BuiltinTable.call_performs hf functor args).mono fun _ _ => trivial).bind
      fun answers h _ hanswers => .pure (List.forall_mem_map.mpr hanswers)

namespace Formula

theorem Reaches.chain (hf : f.WellFormed) (hfg : f.Reaches g) : f.Chain Edit.Any g := by
  induction hfg with
  | refl => exact .refl
  | step _ _ hop hrun ih =>
    exact ih.trans (Operation.run_performs (ih.wellFormed hf) hop _ _ hrun).1

theorem Reachable.wellFormed (hf : f.Reachable) : f.WellFormed :=
  (Reaches.chain empty_wellFormed hf).wellFormed empty_wellFormed

theorem map_number_ids (f : Formula) : f.ids.map NodeId.number = List.range' 1 f.size := by
  rw [ids, List.map_map, List.range'_eq_map_range]
  refine List.map_congr_left fun i _ => ?_
  show i + 1 = 1 + i
  omega

theorem mem_ids_iff {id : NodeId} : id ∈ f.ids ↔ (f.node? id).isSome := by
  rw [isSome_node?_iff, ids, List.mem_map]
  constructor
  · rintro ⟨i, hi, rfl⟩
    exact List.mem_range.mp hi
  · exact fun h => ⟨id.index, List.mem_range.mpr h, rfl⟩

/-- In every reachable formula the ids are the numbers from one to the size, content is registered
once and found by the indexes, conjunctions come after their children, and the guards kept with the
formula or given back by any operation are constants or name nodes. -/
theorem registry_of_reachable (hf : f.Reachable) :
    f.ids.map NodeId.number = List.range' 1 f.size ∧
    (∀ id, id ∈ f.ids ↔ (f.node? id).isSome) ∧
    (∀ t i j p q s r, f.node? i = some (.atom t p s) → f.node? j = some (.atom t q r) → i = j) ∧
    (∀ cs i j, f.node? i = some (.conjunction cs) → f.node? j = some (.conjunction cs) → i = j) ∧
    f.WellFormed ∧
    ∀ (op : Operation) (outcome : Outcome) (g : Formula), op.Admissible f →
      op.run.run f = some (.ok outcome, g) → ∀ x ∈ outcome.guards, g.Knows x := by
  have hwf := hf.wellFormed
  refine ⟨f.map_number_ids, fun id => mem_ids_iff, ?_, ?_, hwf, ?_⟩
  · intro t i j p q s r hi hj
    have hi' := (hwf.findAtom_iff t i).mpr ⟨p, s, hi⟩
    have hj' := (hwf.findAtom_iff t j).mpr ⟨q, r, hj⟩
    rw [hi'] at hj'
    exact Option.some.inj hj'
  · intro cs i j hi hj
    have hi' := (hwf.conjunction_iff cs i).mpr hi
    have hj' := (hwf.conjunction_iff cs j).mpr hj
    rw [hi'] at hj'
    exact Option.some.inj hj'
  · intro op outcome g hop hrun
    exact (Operation.run_performs hwf hop _ g hrun).2 outcome rfl

/-- A fact, and a variable with a point mass under the fact and a normal distribution in any case.
-/
def rainy : Formula :=
  let (rain, f) := empty.addAtom (.atom "rain") none .fact
  let point := Term.compound pointMassFunctor [.constant (.int 2)]
  let (_, f) := f.addSite (.atom "x") (some point) (.node rain)
  (f.addSite (.atom "x") (some (.compound "normal" [.constant (.int 0), .constant (.int 1)]))
    .always).2

theorem rainy_reachable : rainy.Reachable := by
  have hrain : Reachable (empty.addAtom (.atom "rain") none .fact).2 :=
    .step (.atom (.atom "rain") none .fact) .refl trivial rfl
  have hpoint := Reaches.step
    (.site (.atom "x") (some (.compound pointMassFunctor [.constant (.int 2)])) (.node ⟨0⟩))
    hrain (by decide) rfl
  exact .step (.site (.atom "x") (some (.compound "normal"
    [.constant (.int 0), .constant (.int 1)])) .always) hpoint trivial rfl

theorem registry_of_rainy : rainy.Reachable ∧ rainy.WellFormed ∧
    rainy.ids.map NodeId.number = [1, 2, 3] ∧ rainy.body ⟨1⟩ = .node ⟨0⟩ := by
  obtain ⟨hids, -, -, -, hwf, -⟩ := registry_of_reachable rainy_reachable
  exact ⟨rainy_reachable, hwf, hids, rfl⟩

end Formula

/-- What a new session evaluates against, with every term its own only alternative. -/
def standardContext : Context := ⟨.standard, .identity, {}⟩

section Evaluation

variable {f g : Formula} {c : Context} {fuel depth : Nat} {t : Term} {vs : List GuardedValue}

/-- Whenever evaluation gives values, those whose guard holds in a world are exactly the values of
the expression in that world, whatever depth from the fuel on it is evaluated with. -/
theorem evaluate_present (hf : f.Reachable) (h : (evaluate c fuel t).run f = some (.ok vs, g))
    (w : World) (hdepth : fuel ≤ depth) : valuesIn c f w depth t = some (g.present w vs) := by
  obtain ⟨-, hmeans⟩ := evaluate_means hf.wellFormed fuel t _ _ h
  exact plainValues_stable hdepth ((hmeans vs rfl).present w)

/-- With rain both sites of the variable count, and without it only the second one. -/
theorem evaluate_present_rainy : ∃ vs g,
    (evaluate standardContext 2 (.compound "+" [.atom "x", .constant (.int 1)])).run
        Formula.rainy = some (.ok vs, g) ∧
      vs.map (·.guard) = [.node ⟨0⟩, .always] ∧
      ∀ w, valuesIn standardContext Formula.rainy w 2
        (.compound "+" [.atom "x", .constant (.int 1)]) = some (g.present w vs) :=
  ⟨_, _, rfl, rfl, fun w => evaluate_present Formula.rainy_reachable rfl w (Nat.le_refl 2)⟩

end Evaluation

end Grounding
