import Grounding.Proofs.Session.Mode

/-!
# Calls that pass the check

A builtin runs only on arguments that its mode accepts, one for each letter. So the rule of a
standard builtin gets exactly the arguments that it reads by position, instantiated as its pattern
says, and the refusal of another number of arguments is never reached.
-/

namespace Grounding

open GroundingM

variable {scope : Scope} {name : String} {args : List Term} {b : Builtin}

/-- Every argument of a checked call is accepted by the mode of its letter. -/
theorem Mode.accepts_of_check {functor pattern : String}
    (h : Mode.check functor pattern args = .ok ()) :
    List.Forall₂ (fun letter arg => ∃ mode, ofLetter? letter = some mode ∧ mode.accepts arg)
      pattern.toList args := by
  obtain ⟨hlength, hall⟩ := check_eq_ok_iff.mp h
  rw [List.forall₂_iff_zip]
  refine ⟨by rw [String.length_toList, hlength], fun {letter arg} hmem => ?_⟩
  have hfound : finding letter arg = .accepted := by
    refine hall _ ?_
    rw [findings, ← List.map_uncurry_zip_eq_zipWith]
    exact List.mem_map.mpr ⟨(letter, arg), hmem, rfl⟩
  unfold finding at hfound
  split at hfound
  · cases hfound
  · next mode hmode =>
    refine ⟨mode, hmode, ?_⟩
    split at hfound
    · assumption
    · cases hfound

theorem Mode.length_of_check {functor pattern : String}
    (h : Mode.check functor pattern args = .ok ()) : args.length = pattern.length :=
  (check_eq_ok_iff.mp h).1.symm

theorem Mode.ofLetter?_letter (mode : Mode) : ofLetter? mode.letter = some mode := by
  cases mode <;> rfl

/-- The argument of a call that passed the check of one letter. -/
theorem Mode.arg_of_check (mode : Mode) {functor pattern : String}
    (hpattern : pattern.toList = [mode.letter]) (h : check functor pattern args = .ok ()) :
    ∃ t, args = [t] ∧ mode.accepts t := by
  have haccepts := accepts_of_check h
  rw [hpattern] at haccepts
  obtain ⟨t, rest, ⟨m, hm, ht⟩, hnil, rfl⟩ := List.forall₂_cons_left_iff.mp haccepts
  cases hnil
  obtain rfl := Option.some.inj ((ofLetter?_letter mode).symm.trans hm)
  exact ⟨t, rfl, ht⟩

/-- The arguments of a call that passed the check of two letters. -/
theorem Mode.args_of_check (mode mode' : Mode) {functor pattern : String}
    (hpattern : pattern.toList = [mode.letter, mode'.letter])
    (h : check functor pattern args = .ok ()) :
    ∃ t u, args = [t, u] ∧ mode.accepts t ∧ mode'.accepts u := by
  have haccepts := accepts_of_check h
  rw [hpattern] at haccepts
  obtain ⟨t, rest, ⟨m, hm, ht⟩, hrest, rfl⟩ := List.forall₂_cons_left_iff.mp haccepts
  obtain ⟨u, rest, ⟨m', hm', hu⟩, hnil, rfl⟩ := List.forall₂_cons_left_iff.mp hrest
  cases hnil
  obtain rfl := Option.some.inj ((ofLetter?_letter mode).symm.trans hm)
  obtain rfl := Option.some.inj ((ofLetter?_letter mode').symm.trans hm')
  exact ⟨t, u, rfl, ht, hu⟩

namespace BuiltinTable

/-- What relates the rules in two scopes on arguments that their modes accept relates the runs of a
standard builtin after the check. -/
theorem run_checked_pair {C : GroundingM Results → GroundingM Results → Prop} (scope' : Scope)
    (hcomparison : ∀ k t u, args = [t, u] → t.isGround → u.isGround →
      C (Comparison.results k scope t u) (Comparison.results k scope' t u))
    (his : ∀ t u, args = [t, u] → u.isGround →
      C (Builtin.isResults scope t u) (Builtin.isResults scope' t u))
    (hdensity : ∀ t, args = [t] → t.isCallable →
      C (Builtin.densityResults scope t) (Builtin.densityResults scope' t))
    (hfree : ∀ t, args = [t] → t.isCallable →
      C (Builtin.freeResults scope t) (Builtin.freeResults scope' t))
    (hfreeList : ∀ t, args = [t] → t.isList →
      C (Builtin.freeListResults scope t) (Builtin.freeListResults scope' t))
    (has : ∀ t u, args = [t, u] → u.isGround →
      C (Builtin.asResults scope t u) (Builtin.asResults scope' t u))
    (hobservation : ∀ t u, args = [t, u] → t.isGround → u.isGround →
      C (Builtin.observationResults scope t u) (Builtin.observationResults scope' t u))
    (hb : b ∈ standardBuiltins) (hcheck : Mode.check name b.mode args = .ok ()) :
    C (b.run scope args) (b.run scope' args) := by
  simp only [standardBuiltins, List.mem_append, List.mem_map, List.mem_cons, List.not_mem_nil,
    or_false] at hb
  rcases hb with ⟨k, -, rfl⟩ | rfl | rfl | rfl | rfl | rfl | rfl
  · obtain ⟨t, u, rfl, ht, hu⟩ := Mode.args_of_check .ground .ground
      (show "gg".toList = _ from rfl) hcheck
    exact hcomparison k t u rfl ht hu
  · obtain ⟨t, u, rfl, -, hu⟩ := Mode.args_of_check .any .ground rfl hcheck
    exact his t u rfl hu
  · obtain ⟨t, rfl, ht⟩ := Mode.arg_of_check .callable rfl hcheck
    exact hdensity t rfl ht
  · obtain ⟨t, rfl, ht⟩ := Mode.arg_of_check .callable rfl hcheck
    exact hfree t rfl ht
  · obtain ⟨t, rfl, ht⟩ := Mode.arg_of_check .list rfl hcheck
    exact hfreeList t rfl ht
  · obtain ⟨t, u, rfl, -, hu⟩ := Mode.args_of_check .any .ground rfl hcheck
    exact has t u rfl hu
  · obtain ⟨t, u, rfl, ht, hu⟩ := Mode.args_of_check .ground .ground rfl hcheck
    exact hobservation t u rfl ht hu

/-- What holds of the rules on such arguments holds of the run of a standard builtin after the
check. -/
theorem run_checked {C : GroundingM Results → Prop}
    (hcomparison : ∀ k t u, args = [t, u] → t.isGround → u.isGround →
      C (Comparison.results k scope t u))
    (his : ∀ t u, args = [t, u] → u.isGround → C (Builtin.isResults scope t u))
    (hdensity : ∀ t, args = [t] → t.isCallable → C (Builtin.densityResults scope t))
    (hfree : ∀ t, args = [t] → t.isCallable → C (Builtin.freeResults scope t))
    (hfreeList : ∀ t, args = [t] → t.isList → C (Builtin.freeListResults scope t))
    (has : ∀ t u, args = [t, u] → u.isGround → C (Builtin.asResults scope t u))
    (hobservation : ∀ t u, args = [t, u] → t.isGround → u.isGround →
      C (Builtin.observationResults scope t u))
    (hb : b ∈ standardBuiltins) (hcheck : Mode.check name b.mode args = .ok ()) :
    C (b.run scope args) :=
  run_checked_pair (C := fun m _ => C m) scope hcomparison his hdensity hfree hfreeList has
    hobservation hb hcheck

end BuiltinTable

end Grounding
