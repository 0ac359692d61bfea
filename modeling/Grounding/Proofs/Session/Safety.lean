import Grounding.Proofs.Arithmetic.Fault
import Grounding.Proofs.Evaluation.Safety
import Grounding.Proofs.Session.Checked
import Grounding.Proofs.Session.Observation

/-!
# What a call never comes to

Rules take their arguments by position, a site is looked up in the formula, and some branches are
there only because an argument could have another shape. The check of the mode, the registry, and
what the formula keeps about its sites and descriptors rule these out: no position is out of range,
and none of these branches is taken.
-/

namespace Grounding

open GroundingM

variable {c : Context} {fuel : Nat} {f g : Formula} {scope : Scope} {name : String}
  {args : List Term} {b : Builtin}

/-- The builtin with another rule for all numbers of arguments but the length of its mode. -/
def Builtin.beyond (other : Scope → List Term → GroundingM Results) (b : Builtin) : Builtin :=
  { b with run := fun scope args =>
      if args.length = b.mode.length then b.run scope args else other scope args }

def BuiltinTable.beyond (other : Builtin → Scope → List Term → GroundingM Results)
    (table : BuiltinTable) : BuiltinTable := ⟨table.builtins.map fun b => b.beyond (other b)⟩

theorem BuiltinTable.find?_beyond (other : Builtin → Scope → List Term → GroundingM Results)
    (table : BuiltinTable) (name : String) (n : Nat) :
    (table.beyond other).find? name n = (table.find? name n).map fun b => b.beyond (other b) := by
  unfold find? beyond
  rw [List.find?_map]
  rfl

/-- Two calls are the same if both tables have a builtin of the same mode or none, and the rules
do the same on arguments that pass the check. -/
theorem BuiltinTable.call_congr {table table' : BuiltinTable} {scope' : Scope}
    (hnone : table.find? name args.length = none → table'.find? name args.length = none)
    (hsome : ∀ b, table.find? name args.length = some b → ∃ b',
      table'.find? name args.length = some b' ∧ b'.mode = b.mode ∧
        (Mode.check name b.mode args = .ok () → b'.run scope' args = b.run scope args)) :
    table'.call scope' name args = table.call scope name args := by
  funext f
  show (table'.call scope' name args).run f = (table.call scope name args).run f
  cases hfind : table.find? name args.length with
  | none =>
    unfold call
    rw [hnone hfind, hfind]
  | some b =>
    obtain ⟨b', hfind', hmode, hrun⟩ := hsome b hfind
    rw [run_call hfind', run_call hfind, hmode]
    cases hcheck : Mode.check name b.mode args with
    | error e => rfl
    | ok => rw [hrun hcheck]

/-- The rules run on as many arguments as their modes have letters, so what they do on any other
number makes no difference. -/
theorem BuiltinTable.call_beyond (other : Builtin → Scope → List Term → GroundingM Results)
    (table : BuiltinTable) (scope : Scope) (name : String) (args : List Term) :
    (table.beyond other).call scope name args = table.call scope name args := by
  have hbeyond := table.find?_beyond other name args.length
  refine call_congr (fun hnone => ?_) fun b hfind => ?_
  · rw [hbeyond, hnone]
    rfl
  · rw [hbeyond, hfind]
    exact ⟨b.beyond (other b), rfl, rfl, fun hcheck => if_pos (Mode.length_of_check hcheck)⟩

/-- The rules of the standard builtins take one argument for each letter of their modes. -/
theorem BuiltinTable.positional_of_mem (hb : b ∈ standardBuiltins) :
    (∃ name mode rule, b = .unary name mode rule ∧ mode.length = 1) ∨
      ∃ name mode rule, b = .binary name mode rule ∧ mode.length = 2 := by
  simp only [standardBuiltins, List.mem_append, List.mem_map, List.mem_cons, List.not_mem_nil,
    or_false] at hb
  rcases hb with ⟨k, -, rfl⟩ | rfl | rfl | rfl | rfl | rfl | rfl
  · exact .inr ⟨_, _, _, rfl, rfl⟩
  · exact .inr ⟨_, _, _, rfl, rfl⟩
  · exact .inl ⟨_, _, _, rfl, rfl⟩
  · exact .inl ⟨_, _, _, rfl, rfl⟩
  · exact .inl ⟨_, _, _, rfl, rfl⟩
  · exact .inr ⟨_, _, _, rfl, rfl⟩
  · exact .inr ⟨_, _, _, rfl, rfl⟩

theorem Context.scope_beyond (other : ArithmeticFunction → List Number → Except Error Number)
    (c : Context) (fuel : Nat) : (c.beyond other).scope fuel = c.scope fuel := by
  have heval : evaluate (c.beyond other) fuel = evaluate c fuel :=
    funext (evaluateWith_beyond other fuel [])
  unfold scope
  rw [heval]
  rfl

/-- A site that was read from a formula is a node of it, and of every formula that comes later. -/
theorem Formula.Coherent.node_of_site (hf : f.Coherent) {P : Edit → Prop} (hfg : f.Trail P g)
    {v : Term} {s : NodeId} (hs : f.IsSite v s) :
    1 ≤ s.number ∧ s.number ≤ g.size ∧ (g.node? s).isSome := by
  have hknown : g.Knows (.node s) := hfg.grows.knows (hf.knows_site hs)
  exact ⟨Nat.le_add_left 1 s.index, hknown, isSome_node?_iff.mpr hknown⟩

theorem Formula.Coherent.coordinates_ne_nil (hf : f.Coherent) {d : Descriptor}
    (hd : f.descriptor? name = some d) : d.coordinates ≠ [] := by
  obtain ⟨-, -, -, -, hpositive⟩ := hf.descriptor name d hd
  intro hnil
  have hlength := congrArg List.length hnil
  simp only [Descriptor.coordinates, Term.coordinates, List.length_map, List.length_range,
    List.length_nil] at hlength
  omega

/-- A completed `as` has a result for each site. -/
theorem length_of_as {value v : Term} {results : Results}
    (hrun : (BuiltinTable.standard.call scope "as" [value, v]).run f =
      some (.ok (.completed results), g)) :
    ∃ sites, f.sites? v = some sites ∧ results.length = sites.length := by
  have hfind : BuiltinTable.standard.find? "as" [value, v].length = some Builtin.asBuiltin := rfl
  obtain ⟨-, hrule⟩ := BuiltinTable.run_of_completed hfind hrun
  change (Builtin.asResults scope value v).run f = _ at hrule
  unfold Builtin.asResults at hrule
  rw [run_get_bind] at hrule
  cases hsites : f.sites? v with
  | none => rw [hsites] at hrule; cases hrule
  | some sites =>
    rw [hsites] at hrule
    rcases run_bind_cases hrule with ⟨_, -, he⟩ | ⟨rs, f', hrs, hend⟩
    · cases he
    cases hend
    have hsome : List.Forall₂ (fun _ r => r.isSome) sites rs :=
      forall₂_of_run_mapM (fun _ _ _ _ => asResult_isSome) hrs
    have hall : ∀ r ∈ rs, (id r).isSome := forall_of_forall₂ hsome fun _ _ h => h
    exact ⟨sites, rfl, (List.filterMap_length_eq_length.mpr hall).trans hsome.length_eq.symm⟩

/-- The error that a call ended with, as the reason of a failure or because it was aborted. -/
def Answers.error? : Except Error Answers → Option Error
  | .ok answers => answers.failure?
  | .error e => some e

theorem Answers.eq_of_error?_ofRun {r : Except Error Results} {e : Error}
    (h : error? (ofRun r) = some e) : r = .error e := by
  cases r with
  | ok results => cases h
  | error e' =>
    unfold ofRun at h
    dsimp only at h
    split at h <;> cases h <;> rfl

theorem Mode.check_error {functor pattern : String} {e : Error}
    (h : check functor pattern args = .error e) :
    e = .invalidMode functor pattern ∨ ∃ position mode t, e = .mode functor position mode t := by
  rcases check_cases functor pattern args with
    ⟨-, hcheck⟩ | ⟨-, ⟨-, hcheck⟩ | ⟨-, hcheck⟩ | ⟨i, mode, t, -, hcheck⟩⟩ <;>
    rw [hcheck] at h <;> cases h
  · exact .inl rfl
  · exact .inl rfl
  · exact .inr ⟨_, mode, t, rfl⟩

/-- The error of a call that is not one of the registry or the mode is one of the rule. -/
theorem BuiltinTable.error_of_run_call {table : BuiltinTable} {E : Error → Prop}
    (hunknown : E (.unknownBuiltin name args.length))
    (hinvalid : ∀ pattern, E (.invalidMode name pattern))
    (hmode : ∀ position mode t, E (.mode name position mode t))
    (hrule : ∀ b, table.find? name args.length = some b → Mode.check name b.mode args = .ok () →
      Raises E (b.run scope args)) {r : Except Error Answers}
    (hrun : (table.call scope name args).run f = some (r, g)) {e : Error}
    (he : Answers.error? r = some e) : E e := by
  cases hfind : table.find? name args.length with
  | none =>
    unfold call at hrun
    rw [hfind] at hrun
    cases hrun
    cases he
    exact hunknown
  | some b =>
    rcases run_call_cases hfind hrun with ⟨e', hcheck, rfl, -⟩ | ⟨hcheck, r', hrule', rfl⟩
    · cases Answers.eq_of_error?_ofRun he
      rcases Mode.check_error hcheck with rfl | ⟨position, mode, t, rfl⟩
      · exact hinvalid _
      · exact hmode position mode t
    · rw [Answers.eq_of_error?_ofRun he] at hrule'
      exact hrule b hfind hcheck f e g hrule'

/-- No two standard builtins share a name. -/
theorem BuiltinTable.eq_of_name_eq {b' : Builtin} (hb : b ∈ standardBuiltins)
    (hb' : b' ∈ standardBuiltins) (h : b.name = b'.name) : b = b' := by
  have hnodup : (standardBuiltins.map Builtin.name).Nodup := by decide
  exact List.inj_on_of_nodup_map hnodup hb hb' h

/-- The mode of `free_list` lets proper lists through only, so its rule always has the items. -/
theorem not_expectsList_of_free_list {r : Except Error Answers}
    (hrun : (BuiltinTable.standard.call scope "free_list" args).run f = some (r, g)) (t : Term) :
    Answers.error? r ≠ some (.incorrectArgument (.expectsList t)) := by
  intro he
  refine BuiltinTable.error_of_run_call (E := (· ≠ .incorrectArgument (.expectsList t))) nofun
    (fun _ => nofun) (fun _ _ _ => nofun) (fun b hfind hcheck => ?_) hrun he rfl
  have hname : b.name = "free_list" := by
    have hanswers := List.find?_some hfind
    unfold Builtin.answersTo at hanswers
    simpa using (Bool.and_eq_true_iff.mp hanswers).1
  have hfreeList : Builtin.freeListBuiltin ∈ BuiltinTable.standardBuiltins := by
    simp [BuiltinTable.standardBuiltins]
  obtain rfl := BuiltinTable.eq_of_name_eq (BuiltinTable.mem_of_find? hfind) hfreeList hname
  obtain ⟨vs, rfl, hlist⟩ := Mode.arg_of_check .list rfl hcheck
  obtain ⟨items, hitems⟩ := Option.isSome_iff_exists.mp hlist
  show Raises _ (Builtin.freeListResults scope vs)
  unfold Builtin.freeListResults
  rw [hitems]
  exact (Raises.modify _).bind fun _ => .pure _

/-- The scope with another evaluation of all terms that are not ground. -/
def Scope.beyond (other : Term → GroundingM (List GuardedValue)) (scope : Scope) : Scope :=
  { scope with evaluate := fun t => if t.isGround then scope.evaluate t else other t }

section Beyond

variable (other : Term → GroundingM (List GuardedValue))

theorem Scope.evaluate_beyond (scope : Scope) {t : Term} (ht : t.isGround) :
    (scope.beyond other).evaluate t = scope.evaluate t := if_pos ht

theorem Comparison.results_beyond (k : Comparison) (scope : Scope) {t u : Term} (ht : t.isGround)
    (hu : u.isGround) : k.results (scope.beyond other) t u = k.results scope t u := by
  unfold results
  rw [scope.evaluate_beyond other ht, scope.evaluate_beyond other hu]
  rfl

namespace Builtin

theorem observedVectors_beyond (scope : Scope) {items : List Term}
    (hitems : ∀ a ∈ items, a.isGround) :
    observedVectors (scope.beyond other) items = observedVectors scope items := by
  unfold observedVectors
  rw [mapM_congr fun a ha => scope.evaluate_beyond other (hitems a ha)]
  rfl

theorem observedValues_beyond (scope : Scope) (value : Term) {observed : Term}
    (hobserved : observed.isGround) :
    observedValues (scope.beyond other) value observed = observedValues scope value observed := by
  unfold observedValues
  split
  · next coordinates _ =>
    refine bind_congr fun _ => bind_congr_of_run fun f items g hrun => ?_
    obtain ⟨hitems, -⟩ := eq_of_run_ofExcept hrun
    have hlist := (of_observedItems hitems).1
    exact observedVectors_beyond other scope fun a ha =>
      (Term.part_of_list? hlist ha).isGround hobserved
  · refine bind_congr fun _ => ?_
    split
    · rfl
    · exact scope.evaluate_beyond other hobserved

end Builtin

namespace BuiltinTable

/-- After the check a standard builtin evaluates ground terms only. -/
theorem run_beyond (scope : Scope) (hb : b ∈ standardBuiltins)
    (hcheck : Mode.check name b.mode args = .ok ()) :
    b.run (scope.beyond other) args = b.run scope args := by
  refine run_checked_pair (C := Eq) scope ?_ ?_ ?_ ?_ ?_ ?_ ?_ hb hcheck
  · exact fun k t u _ ht hu => k.results_beyond other scope ht hu
  · intro t u _ hu
    unfold Builtin.isResults
    rw [scope.evaluate_beyond other hu]
  · exact fun _ _ _ => rfl
  · exact fun _ _ _ => rfl
  · exact fun _ _ _ => rfl
  · exact fun _ _ _ _ => rfl
  · intro t u _ _ hu
    unfold Builtin.observationResults
    rw [Builtin.observedValues_beyond other scope t hu]

theorem call_scope_beyond (scope : Scope) (name : String) (args : List Term) :
    standard.call (scope.beyond other) name args = standard.call scope name args :=
  call_congr id fun b hfind =>
    ⟨b, hfind, rfl, run_beyond other scope (mem_of_find? hfind)⟩

end BuiltinTable

end Beyond

section Ground

variable (hscope : ∀ t : Term, t.isGround → Raises c.Blames (scope.evaluate t))

include hscope

theorem observedVectors_blames {items : List Term} (hitems : ∀ a ∈ items, a.isGround) :
    Raises c.Blames (Builtin.observedVectors scope items) := by
  refine (Raises.mapM fun a ha => hscope a (hitems a ha)).bind fun operands => ?_
  refine .ofExcept_bind (fun e he => ?_) fun _ _ => .mapM fun tuple _ => ?_
  · obtain ⟨size, rfl⟩ := checkProductSize_error he
    exact blames_of_none rfl
  · exact (Raises.update _).bind fun _ => .pure _

theorem observedValues_blames {value observed : Term} (hobserved : observed.isGround) :
    Raises c.Blames (Builtin.observedValues scope value observed) := by
  unfold Builtin.observedValues
  split
  · next coordinates _ =>
    refine .ofExcept_bind (fun e he => ?_) fun _ _ => .ofExcept_bind (fun e he => ?_)
      fun items hitems => observedVectors_blames hscope fun a ha => ?_
    · rcases Builtin.forM_expectCoordinate_cases coordinates with ⟨-, hok⟩ | ⟨t, herror⟩
      · rw [hok] at he
        cases he
      · rw [herror] at he
        cases he
        exact blames_of_none rfl
    · unfold Builtin.observedItems at he
      split at he
      · cases he
        exact blames_of_none rfl
      · split at he <;> cases he
        exact blames_of_none rfl
    · exact (Term.part_of_list? (Builtin.of_observedItems hitems).1 ha).isGround hobserved
  · refine .ofExcept_bind (fun e he => ?_) fun _ _ => ?_
    · rcases Builtin.expectCoordinate_cases value with ⟨-, hok⟩ | herror
      · rw [hok] at he
        cases he
      · rw [herror] at he
        cases he
        exact blames_of_none rfl
    · split
      · exact .throw (blames_of_none rfl)
      · exact hscope observed hobserved

/-- After the check a standard builtin evaluates ground terms only. -/
theorem BuiltinTable.run_blames (hb : b ∈ standardBuiltins)
    (hcheck : Mode.check name b.mode args = .ok ()) : Raises c.Blames (b.run scope args) := by
  refine run_checked (C := Raises c.Blames) ?_ ?_ ?_ ?_ ?_ ?_ ?_ hb hcheck
  · intro k t u _ ht hu
    refine (hscope t ht).bind fun ls => (hscope u hu).bind fun rs => ?_
    refine .ofExcept_bind (fun e he => ?_) fun _ _ => .mapM fun p _ => ?_
    · obtain ⟨size, rfl⟩ := checkProductSize_error he
      exact blames_of_none rfl
    · exact .of_total (pairResult_total k _ _ p.1 p.2)
  · exact fun t u _ hu => (hscope u hu).bind fun _ => .pure _
  · refine fun v _ _ => .get_bind fun g => ?_
    cases g.sites? v with
    | none => exact .throw (blames_of_none rfl)
    | some sites =>
      exact .mapM fun site _ => .get_bind fun g => (Raises.modify _).bind fun _ => .pure _
  · exact fun v _ _ => (Raises.modify _).bind fun _ => .pure _
  · intro vs _ _
    unfold Builtin.freeListResults
    split
    · exact .throw (blames_of_none rfl)
    · exact (Raises.modify _).bind fun _ => .pure _
  · refine fun value v _ _ => .get_bind fun g => ?_
    cases g.sites? v with
    | none => exact .throw (blames_of_none rfl)
    | some sites =>
      have hsite (site : NodeId) :
          Raises c.Blames (Builtin.asResult v (value.list?.map List.length) site) := by
        refine (Raises.attempt fun g e he => ?_).bind fun _ => .get_bind fun g => .pure _
        rcases Formula.descriptorWith_error he with hnew | ⟨pinned, asked, rfl⟩
        · rcases Formula.newDescriptor_error hnew with rfl | ⟨p, rfl⟩
          · exact blames_of_none rfl
          · exact blames_of_none rfl
        · exact blames_of_none rfl
      exact (Raises.mapM fun site _ => hsite site).bind fun _ => .pure _
  · intro value observed _ _ hobserved
    refine (observedValues_blames hscope hobserved).bind fun vs => .mapM fun o _ => ?_
    exact .of_total (conditionResult_total _ _ _)

end Ground

/-- A call that ends with the error of a variable got it from the host. -/
theorem blames_of_run_call (hc : c.KeepsGround) {r : Except Error Answers}
    (hrun : (BuiltinTable.standard.call (c.scope fuel) name args).run f = some (r, g)) {e : Error}
    (he : Answers.error? r = some e) : c.Blames e := by
  refine BuiltinTable.error_of_run_call (blames_of_none rfl) (fun _ => blames_of_none rfl)
    (fun _ _ _ => blames_of_none rfl) (fun b hfind hcheck => ?_) hrun he
  exact BuiltinTable.run_blames (fun t ht => evaluateWith_blames hc fuel [] ht)
    (BuiltinTable.mem_of_find? hfind) hcheck

/-- The identity resolver fails for no term. -/
theorem function_of_blames (hresolve : c.resolve = .identity) {e : Error} (he : c.Blames e)
    (hunbound : e.unbound?.isSome) : ∃ function ∈ c.functions.functions, ∃ numbers,
      numbers.length = function.arity ∧ function.apply numbers = .error e := by
  refine (he hunbound).resolve_left ?_
  rintro ⟨t, -, hresolver⟩
  rw [hresolve] at hresolver
  cases hresolver

/-- The standard functions never give the error of a variable. -/
theorem unbound?_of_standard {function : ArithmeticFunction} {numbers : List Number} {e : Error}
    (hmem : function ∈ FunctionTable.standard.functions)
    (hlength : numbers.length = function.arity) (happly : function.apply numbers = .error e) :
    e.unbound? = none := by
  have hsound := FunctionTable.sound_standardFunctions function
    (FunctionTable.mem_functions_ofList hmem)
  cases hsound numbers hlength e happly with
  | fault | expectsIntegers => rfl

/-- What a call from the formula relies on, at any moment of it. -/
structure Context.CallsSafely (c : Context) (builtins : BuiltinTable) (f : Formula) (fuel : Nat)
    (name : String) (args : List Term) : Prop where
  /-- A rule runs on as many arguments as its mode has letters. -/
  arguments : ∀ other, (builtins.beyond other).call (c.scope fuel) name args =
    builtins.call (c.scope fuel) name args
  /-- The standard rules take that many, by position. -/
  positions : ∀ b ∈ BuiltinTable.standardBuiltins,
    (∃ name mode rule, b = .unary name mode rule ∧ mode.length = 1) ∨
      ∃ name mode rule, b = .binary name mode rule ∧ mode.length = 2
  /-- A function is applied to as many numbers as its arity says. -/
  numbers : ∀ other, builtins.call ((c.beyond other).scope fuel) name args =
    builtins.call (c.scope fuel) name args
  /-- The values of a called function are those on the tuples of its operands, which are the values
  of its arguments. Every tuple is as long as the arity says, and where the value is left open, each
  element of the tuple is an argument. -/
  operands : ∀ depth resolving t function g h vs, c.functions.calledBy? t = some function →
    (evaluateWith c (depth + 1) resolving t).run g = some (.ok vs, h) →
      ∃ operands g', (t.args.mapM (evaluateWith c depth resolving)).run g =
          some (.ok operands, g') ∧
        List.Forall₂ (fun tuple v => function.Applied (tuple.map (·.value)) v.value)
          (tuples operands) vs
  /-- A call changes the formula step by step. -/
  moments : ∀ r g, (BuiltinTable.standard.call (c.scope fuel) name args).run f = some (r, g) →
    f.Trail Edit.Any g
  /-- A site that is read at some moment and looked up at a later one is a node there. -/
  sites : ∀ g h, f.Trail Edit.Any g → g.Trail Edit.Any h → ∀ v s, g.IsSite v s →
    1 ≤ s.number ∧ s.number ≤ h.size ∧ (h.node? s).isSome
  /-- A descriptor has a first coordinate. -/
  coordinates : ∀ g, f.Trail Edit.Any g → ∀ key d, g.descriptor? key = some d → d.coordinates ≠ []
  /-- So `as` has a result for each site. -/
  results : name = "as" → ∀ value v results g, args = [value, v] →
    (BuiltinTable.standard.call (c.scope fuel) name args).run f =
      some (.ok (.completed results), g) →
      ∃ sites, f.sites? v = some sites ∧ results.length = sites.length
  /-- What `free_list` gets is a list. -/
  list : name = "free_list" → ∀ r g,
    (BuiltinTable.standard.call (c.scope fuel) name args).run f = some (r, g) →
      ∀ t, Answers.error? r ≠ some (.incorrectArgument (.expectsList t))
  /-- Only ground terms are evaluated. -/
  ground : ∀ other, BuiltinTable.standard.call ((c.scope fuel).beyond other) name args =
    BuiltinTable.standard.call (c.scope fuel) name args
  /-- Where no term has other alternatives, only ground terms are reached from them. -/
  reached : c.resolve = .identity → ∀ g t s, t.isGround → c.Reached g t s → s.isGround
  /-- So if a call fails because a variable is not instantiated, then a function said so. -/
  unbound : c.resolve = .identity → ∀ r g,
    (BuiltinTable.standard.call (c.scope fuel) name args).run f = some (r, g) →
      ∀ e, Answers.error? r = some e → e.unbound?.isSome →
        ∃ function ∈ c.functions.functions, ∃ numbers,
          numbers.length = function.arity ∧ function.apply numbers = .error e
  /-- No standard function does. -/
  instantiated : c.resolve = .identity → c.functions = .standard → ∀ r g,
    (BuiltinTable.standard.call (c.scope fuel) name args).run f = some (r, g) →
      ∀ e, Answers.error? r = some e → e.unbound? = none

/-- From every formula that operations lead to, every call is safe. -/
theorem calls_are_safe (hf : Formula.LeadsTo .empty f) (c : Context) (builtins : BuiltinTable)
    (fuel : Nat) (name : String) (args : List Term) : c.CallsSafely builtins f fuel name args := by
  have hblames (hresolve : c.resolve = .identity) {r : Except Error Answers} {g : Formula}
      (hrun : (BuiltinTable.standard.call (c.scope fuel) name args).run f = some (r, g)) {e : Error}
      (he : Answers.error? r = some e) : c.Blames e :=
    blames_of_run_call (Context.keepsGround_of_identity hresolve) hrun he
  exact {
    arguments := fun other => builtins.call_beyond other _ name args
    positions := fun b hb => BuiltinTable.positional_of_mem hb
    numbers := fun other => by rw [c.scope_beyond]
    operands := fun _ _ _ _ _ _ _ hcalled hrun => evaluateWith_applied hcalled hrun
    moments := fun r g hrun =>
      (BuiltinTable.call_follows name args f r g hrun).mono fun _ _ => trivial
    sites := fun g h hfg hgh v s hs => (hf.coherent.trail hfg).node_of_site hgh hs
    coordinates := fun g hfg key d hd => (hf.coherent.trail hfg).coordinates_ne_nil hd
    results := by
      rintro rfl value v results g rfl hrun
      exact length_of_as hrun
    list := by
      rintro rfl r g hrun t
      exact not_expectsList_of_free_list hrun t
    ground := fun other => BuiltinTable.call_scope_beyond other _ name args
    reached := fun hresolve g t s ht hs =>
      hs.isGround (Context.keepsGround_of_identity hresolve) ht
    unbound := fun hresolve r g hrun e he hunbound =>
      function_of_blames hresolve (hblames hresolve hrun he) hunbound
    instantiated := fun hresolve hfunctions r g hrun e he => by
      rw [← Option.not_isSome_iff_eq_none]
      intro hunbound
      obtain ⟨function, hmem, numbers, hlength, happly⟩ :=
        function_of_blames hresolve (hblames hresolve hrun he) hunbound
      rw [hfunctions] at hmem
      rw [unbound?_of_standard hmem hlength happly] at hunbound
      cases hunbound }

/-- The variable has two sites, and `as` answers for both of them. A division by zero is what fails,
and no variable. -/
theorem calls_are_safe_rainy :
    (∃ results g, (BuiltinTable.standard.call (standardContext.scope 2) "as"
        [.var "X", .atom "x"]).run Formula.rainy = some (.ok (.completed results), g) ∧
      (∃ sites, Formula.rainy.sites? (.atom "x") = some sites ∧ results.length = sites.length) ∧
      Formula.rainy.IsSite (.atom "x") ⟨2⟩ ∧ (g.node? ⟨2⟩).isSome) ∧
    (∃ r g, (BuiltinTable.standard.call (standardContext.scope 2) "is"
        [.var "X", .compound "/" [.constant (.int 1), .constant (.int 0)]]).run Formula.rainy =
          some (r, g) ∧
      Answers.error? r = some (.arithmetic .divisionByZero) ∧
      ∀ e, Answers.error? r = some e → e.unbound? = none) ∧
    ∃ r g, (BuiltinTable.standard.call (standardContext.scope 2) "free_list"
        [.ofList [.atom "x"]]).run Formula.rainy = some (r, g) ∧
      ∀ t, Answers.error? r ≠ some (.incorrectArgument (.expectsList t)) := by
  have hrainy := Formula.rainy_reachable.leadsTo
  have has := calls_are_safe hrainy standardContext .standard 2 "as" [.var "X", .atom "x"]
  have his := calls_are_safe hrainy standardContext .standard 2 "is"
    [.var "X", .compound "/" [.constant (.int 1), .constant (.int 0)]]
  have hlist := calls_are_safe hrainy standardContext .standard 2 "free_list" [.ofList [.atom "x"]]
  refine ⟨?_, ?_, ?_⟩
  · have hsite : Formula.rainy.IsSite (.atom "x") ⟨2⟩ := ⟨[⟨1⟩, ⟨2⟩], rfl, by simp⟩
    have htrail := has.moments _ _ rfl
    exact ⟨_, _, rfl, has.results rfl _ _ _ _ rfl rfl, hsite,
      (has.sites _ _ .refl htrail _ _ hsite).2.2⟩
  · exact ⟨_, _, rfl, rfl, his.instantiated rfl rfl _ _ rfl⟩
  · exact ⟨_, _, rfl, hlist.list rfl _ _ rfl⟩

end Grounding
