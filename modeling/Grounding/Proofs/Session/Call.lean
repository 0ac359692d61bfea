import Grounding.Proofs.Builtin.Effect

/-!
# Calls of builtins

A call first checks the mode and then runs the rule of the builtin. Whatever the rule does to the
formula stays; its results complete the call, a recoverable error makes the call fail, and any other
error aborts it.
-/

namespace Grounding

open GroundingM

/-- What a call gives back when the rule of the builtin comes to this end. -/
def Answers.ofRun : Except Error Results → Except Error Answers
  | .ok results => .ok (.completed results)
  | .error e => if e.isRecoverable then .ok (.failed e) else .error e

theorem Answers.ofRun_eq_completed_iff {r : Except Error Results} {results : Results} :
    ofRun r = .ok (.completed results) ↔ r = .ok results := by
  cases r with
  | ok results' => simp [ofRun]
  | error e =>
    unfold ofRun
    dsimp only
    split <;> simp

namespace BuiltinTable

variable {table : BuiltinTable} {scope : Scope} {name : String} {args : List Term} {b : Builtin}
  {f g : Formula}

theorem run_recover (e : Error) (f : Formula) :
    (recover e).run f = some (Answers.ofRun (.error e), f) := by
  unfold recover Answers.ofRun
  dsimp only
  split <;> rfl

theorem run_call (hfind : table.find? name args.length = some b) (f : Formula) :
    (table.call scope name args).run f =
      match Mode.check name b.mode args with
      | .error e => some (Answers.ofRun (.error e), f)
      | .ok () => ((b.run scope args).run f).map fun (r, g) => (Answers.ofRun r, g) := by
  unfold call
  rw [hfind]
  dsimp only
  rw [run_tryCatch]
  cases hcheck : Mode.check name b.mode args with
  | error e => exact run_recover e f
  | ok =>
    dsimp only
    have hbody : (do
        ofExcept (.ok ())
        return Answers.completed (← b.run scope args) : GroundingM Answers).run f =
          ((b.run scope args).run f).map fun (r, g) => (r.map Answers.completed, g) := by
      show ((b.run scope args).run f).bind _ = _
      cases (b.run scope args).run f with
      | none => rfl
      | some p => obtain ⟨_ | results, g⟩ := p <;> rfl
    rw [hbody]
    cases (b.run scope args).run f with
    | none => rfl
    | some p =>
      obtain ⟨e | results, g⟩ := p
      · exact run_recover e g
      · rfl

/-- A call either does not pass the check and changes nothing, or ends as the rule does. -/
theorem run_call_cases {r : Except Error Answers} (hfind : table.find? name args.length = some b)
    (h : (table.call scope name args).run f = some (r, g)) :
    (∃ e, Mode.check name b.mode args = .error e ∧ r = Answers.ofRun (.error e) ∧ g = f) ∨
      Mode.check name b.mode args = .ok () ∧
        ∃ r', (b.run scope args).run f = some (r', g) ∧ r = Answers.ofRun r' := by
  rw [run_call hfind] at h
  cases hcheck : Mode.check name b.mode args with
  | error e =>
    rw [hcheck] at h
    cases h
    exact .inl ⟨e, rfl, rfl, rfl⟩
  | ok =>
    rw [hcheck] at h
    obtain ⟨⟨r', g'⟩, hrun, hp⟩ := Option.map_eq_some_iff.mp h
    cases hp
    exact .inr ⟨rfl, r', hrun, rfl⟩

/-- A call that completes passed the check, and its results are those of the rule. -/
theorem run_of_completed {results : Results} (hfind : table.find? name args.length = some b)
    (h : (table.call scope name args).run f = some (.ok (.completed results), g)) :
    Mode.check name b.mode args = .ok () ∧ (b.run scope args).run f = some (.ok results, g) := by
  rcases run_call_cases hfind h with ⟨e, -, hr, -⟩ | ⟨hcheck, r', hrun, hr⟩
  · cases Answers.ofRun_eq_completed_iff.mp hr.symm
  · rw [Answers.ofRun_eq_completed_iff.mp hr.symm] at hrun
    exact ⟨hcheck, hrun⟩

/-- Only the rule of a builtin changes the formula. -/
theorem eq_or_exists_of_run_call {r : Except Error Answers}
    (h : (standard.call scope name args).run f = some (r, g)) :
    g = f ∨ ∃ b ∈ standardBuiltins, ∃ r', (b.run scope args).run f = some (r', g) := by
  cases hfind : standard.find? name args.length with
  | none =>
    unfold call at h
    rw [hfind] at h
    cases h
    exact .inl rfl
  | some b =>
    rcases run_call_cases hfind h with ⟨e, -, -, hg⟩ | ⟨-, r', hrun, -⟩
    · exact .inl hg
    · exact .inr ⟨b, mem_of_find? hfind, r', hrun⟩

end BuiltinTable

/-- The check of one argument against one mode. -/
theorem check_letter (name : String) (m : Mode) (t : Term) :
    Mode.check name (String.singleton m.letter) [t] =
      if m.accepts t then .ok () else .error (.mode name 1 m t) := by
  have hletter : Mode.ofLetter? m.letter = some m := by cases m <;> rfl
  have hsingle : (String.singleton m.letter).toList = [m.letter] := String.toList_singleton _
  unfold Mode.check
  rw [if_pos (by simp), hsingle]
  simp only [Mode.checkFrom, hletter]

/-- The mode of the predicates that give a variable a value. -/
theorem check_assignment (name : String) (value t : Term) :
    Mode.check name "*g" [value, t] =
      if t.isGround then .ok () else .error (.mode name 2 .ground t) := by
  have hany : Mode.ofLetter? '*' = some .any := rfl
  have hground : Mode.ofLetter? 'g' = some .ground := rfl
  show Mode.checkFrom name "*g" 1 ['*', 'g'] [value, t] = _
  simp only [Mode.checkFrom, hany, hground, Mode.accepts, if_true, Nat.reduceAdd]
  rfl

end Grounding
