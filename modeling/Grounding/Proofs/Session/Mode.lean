import Grounding.Proofs.Session.Operation
import Grounding.Proofs.Session.Call

/-!
# Mode checks

The check of a call goes through the letters of the pattern and the arguments together and stops at
the first position where the letter is unknown or the argument is rejected. Only a wrong length is
found before any argument is looked at. So a pattern with an unknown letter is reported as such
unless an argument before that letter is rejected; then the call fails as if the pattern were in
order.
-/

namespace Grounding

open GroundingM

namespace Mode

/-- What the check finds at one position. -/
inductive Finding where
  | accepted
  | rejected (mode : Mode) (arg : Term)
  /-- The letter belongs to no mode. -/
  | unknown
deriving DecidableEq

def finding (letter : Char) (arg : Term) : Finding :=
  match ofLetter? letter with
  | none => .unknown
  | some mode => if mode.accepts arg then .accepted else .rejected mode arg

/-- What there is to find at each position, whether or not the check comes to it. -/
def findings (pattern : String) (args : List Term) : List Finding :=
  List.zipWith finding pattern.toList args

/-- There is a letter for each argument, and every letter belongs to a mode. -/
def WellFormed (pattern : String) (arity : Nat) : Prop :=
  pattern.length = arity ∧ ∀ letter ∈ pattern.toList, ofLetter? letter ≠ none

/-- This is found at position `i`, counted from zero, and all arguments before are accepted. -/
def FirstAt (found : List Finding) (i : Nat) (x : Finding) : Prop :=
  found[i]? = some x ∧ ∀ j < i, found[j]? = some .accepted

variable {functor pattern : String} {args : List Term} {found : List Finding} {i j : Nat}
  {x y : Finding}

theorem FirstAt.head : FirstAt (x :: found) 0 x := ⟨rfl, nofun⟩

theorem FirstAt.tail (h : FirstAt found i x) : FirstAt (.accepted :: found) (i + 1) x := by
  refine ⟨h.1, fun j hj => ?_⟩
  cases j with
  | zero => rfl
  | succ j => exact h.2 j (Nat.lt_of_succ_lt_succ hj)

/-- At most one position is the first where something is wrong. -/
theorem FirstAt.unique (h : FirstAt found i x) (h' : FirstAt found j y) (hx : x ≠ .accepted)
    (hy : y ≠ .accepted) : i = j ∧ x = y := by
  have hij : i = j := by
    rcases Nat.lt_trichotomy i j with hlt | heq | hgt
    · exact absurd (Option.some.inj (h.1.symm.trans (h'.2 i hlt))) hx
    · exact heq
    · exact absurd (Option.some.inj (h'.1.symm.trans (h.2 j hgt))) hy
  subst hij
  exact ⟨rfl, Option.some.inj (h.1.symm.trans h'.1)⟩

theorem FirstAt.not_all_accepted (h : FirstAt found i x) (hx : x ≠ .accepted) :
    ¬ ∀ y ∈ found, y = .accepted := fun hall => hx (hall x (List.mem_of_getElem? h.1))

/-- A check from `position` on comes to the end, or stops at the first position where something is
wrong. -/
theorem checkFrom_cases (functor pattern : String) (position : Nat) (letters : List Char)
    (args : List Term) :
    (∀ x ∈ List.zipWith finding letters args, x = .accepted) ∧
      checkFrom functor pattern position letters args = .ok () ∨
    (∃ i, FirstAt (List.zipWith finding letters args) i .unknown) ∧
      checkFrom functor pattern position letters args = .error (.invalidMode functor pattern) ∨
    ∃ i mode arg, FirstAt (List.zipWith finding letters args) i (.rejected mode arg) ∧
      checkFrom functor pattern position letters args =
        .error (.mode functor (position + i) mode arg) := by
  induction letters generalizing args position with
  | nil => exact .inl ⟨nofun, rfl⟩
  | cons letter letters ih =>
    cases args with
    | nil => exact .inl ⟨nofun, rfl⟩
    | cons arg args =>
      rw [List.zipWith_cons_cons]
      unfold checkFrom
      cases hletter : ofLetter? letter with
      | none =>
        have hfinding : finding letter arg = .unknown := by
          unfold finding
          rw [hletter]
        rw [hfinding]
        exact .inr (.inl ⟨⟨0, .head⟩, rfl⟩)
      | some mode =>
        have hfinding : finding letter arg =
            if mode.accepts arg then .accepted else .rejected mode arg := by
          unfold finding
          rw [hletter]
        dsimp only
        rw [hfinding]
        by_cases haccepts : mode.accepts arg
        · rw [if_pos haccepts, if_pos haccepts]
          rcases ih (position + 1) args with
            ⟨hall, hrun⟩ | ⟨⟨i, hi⟩, hrun⟩ | ⟨i, m, t, hi, hrun⟩
          · exact .inl ⟨List.forall_mem_cons.mpr ⟨rfl, hall⟩, hrun⟩
          · exact .inr (.inl ⟨⟨i + 1, hi.tail⟩, hrun⟩)
          · refine .inr (.inr ⟨i + 1, m, t, hi.tail, ?_⟩)
            rw [hrun, Nat.add_assoc, Nat.add_comm 1 i]
        · rw [if_neg haccepts, if_neg haccepts]
          exact .inr (.inr ⟨0, mode, arg, .head, rfl⟩)

/-- The check reports a wrong length, or what is found first. -/
theorem check_cases (functor pattern : String) (args : List Term) :
    (pattern.length ≠ args.length ∧
      check functor pattern args = .error (.invalidMode functor pattern)) ∨
    pattern.length = args.length ∧
      ((∀ x ∈ findings pattern args, x = .accepted) ∧ check functor pattern args = .ok () ∨
      (∃ i, FirstAt (findings pattern args) i .unknown) ∧
        check functor pattern args = .error (.invalidMode functor pattern) ∨
      ∃ i mode arg, FirstAt (findings pattern args) i (.rejected mode arg) ∧
        check functor pattern args = .error (.mode functor (i + 1) mode arg)) := by
  unfold check
  by_cases hlength : pattern.length = args.length
  · rw [if_pos hlength]
    refine .inr ⟨hlength, ?_⟩
    rcases checkFrom_cases functor pattern 1 pattern.toList args with
      h | h | ⟨i, mode, arg, hi, hrun⟩
    · exact .inl h
    · exact .inr (.inl h)
    · exact .inr (.inr ⟨i, mode, arg, hi, by rw [hrun, Nat.add_comm]⟩)
  · rw [if_neg hlength]
    exact .inl ⟨hlength, rfl⟩

theorem check_eq_ok_iff : check functor pattern args = .ok () ↔
    pattern.length = args.length ∧ ∀ x ∈ findings pattern args, x = .accepted := by
  rcases check_cases functor pattern args with
    ⟨hne, hrun⟩ | ⟨heq, ⟨hall, hrun⟩ | ⟨⟨i, hi⟩, hrun⟩ | ⟨i, mode, arg, hi, hrun⟩⟩
  · exact iff_of_false (by rw [hrun]; nofun) fun h => hne h.1
  · exact iff_of_true hrun ⟨heq, hall⟩
  · exact iff_of_false (by rw [hrun]; nofun) fun h => hi.not_all_accepted nofun h.2
  · exact iff_of_false (by rw [hrun]; nofun) fun h => hi.not_all_accepted nofun h.2

theorem check_eq_invalidMode_iff :
    check functor pattern args = .error (.invalidMode functor pattern) ↔
      pattern.length ≠ args.length ∨ ∃ i, FirstAt (findings pattern args) i .unknown := by
  rcases check_cases functor pattern args with
    ⟨hne, hrun⟩ | ⟨heq, ⟨hall, hrun⟩ | ⟨⟨i, hi⟩, hrun⟩ | ⟨i, mode, arg, hi, hrun⟩⟩
  · exact iff_of_true hrun (.inl hne)
  · refine iff_of_false (by rw [hrun]; nofun) ?_
    rintro (hne | ⟨i, hi⟩)
    · exact hne heq
    · exact hi.not_all_accepted nofun hall
  · exact iff_of_true hrun (.inr ⟨i, hi⟩)
  · refine iff_of_false (by rw [hrun]; nofun) ?_
    rintro (hne | ⟨k, hk⟩)
    · exact hne heq
    · cases (hi.unique hk nofun nofun).2

theorem check_eq_mode_iff {position : Nat} {mode : Mode} {arg : Term} :
    check functor pattern args = .error (.mode functor position mode arg) ↔
      pattern.length = args.length ∧ ∃ i, position = i + 1 ∧
        FirstAt (findings pattern args) i (.rejected mode arg) := by
  rcases check_cases functor pattern args with
    ⟨hne, hrun⟩ | ⟨heq, ⟨hall, hrun⟩ | ⟨⟨i, hi⟩, hrun⟩ | ⟨i, m, t, hi, hrun⟩⟩
  · exact iff_of_false (by rw [hrun]; nofun) fun h => hne h.1
  · refine iff_of_false (by rw [hrun]; nofun) ?_
    rintro ⟨-, k, -, hk⟩
    exact hk.not_all_accepted nofun hall
  · refine iff_of_false (by rw [hrun]; nofun) ?_
    rintro ⟨-, k, -, hk⟩
    cases (hi.unique hk nofun nofun).2
  · rw [hrun]
    constructor
    · intro h
      cases h
      exact ⟨heq, i, rfl, hi⟩
    · rintro ⟨-, k, rfl, hk⟩
      obtain ⟨rfl, hfinding⟩ := hi.unique hk nofun nofun
      cases hfinding
      rfl

/-- A pattern in order is never reported. -/
theorem WellFormed.not_firstAt_unknown (h : WellFormed pattern args.length) :
    ¬ FirstAt (findings pattern args) i .unknown := by
  rintro ⟨hunknown, -⟩
  obtain ⟨letter, arg, hletter, -, hfinding⟩ := List.getElem?_zipWith_eq_some.mp hunknown
  have hknown := h.2 letter (List.mem_of_getElem? hletter)
  unfold finding at hfinding
  split at hfinding
  · exact hknown ‹_›
  · split at hfinding <;> cases hfinding

/-- A pattern whose letters are all accepted by arguments is in order. -/
theorem wellFormed_of_accepted (hlength : pattern.length = args.length)
    (hall : ∀ x ∈ findings pattern args, x = .accepted) : WellFormed pattern args.length := by
  refine ⟨hlength, fun letter hletter hnone => ?_⟩
  obtain ⟨i, hi⟩ := List.mem_iff_getElem?.mp hletter
  have hlt : i < args.length := by
    have := (List.getElem?_eq_some_iff.mp hi).1
    rwa [String.length_toList, hlength] at this
  have hfound : (findings pattern args)[i]? = some (finding letter args[i]) :=
    List.getElem?_zipWith_eq_some.mpr ⟨letter, args[i], hi, List.getElem?_eq_getElem hlt, rfl⟩
  have haccepted := hall _ (List.mem_of_getElem? hfound)
  unfold finding at haccepted
  rw [hnone] at haccepted
  cases haccepted

end Mode

open Mode

/-- A check reports a wrong length, or else the first position where a letter is unknown or an
argument is rejected. So a malformed pattern is reported only if no argument before its first
unknown letter is rejected. A call of a builtin that declares such a pattern never runs it: the call
aborts if the pattern is reported, and fails if an argument is. -/
theorem check_reports (functor pattern : String) (args : List Term) :
    (Mode.check functor pattern args = .error (.invalidMode functor pattern) ↔
      pattern.length ≠ args.length ∨ ∃ i, FirstAt (findings pattern args) i .unknown) ∧
    (Mode.check functor pattern args = .error (.invalidMode functor pattern) →
      ¬ WellFormed pattern args.length) ∧
    (∀ position mode arg,
      Mode.check functor pattern args = .error (.mode functor position mode arg) ↔
        pattern.length = args.length ∧ ∃ i, position = i + 1 ∧
          FirstAt (findings pattern args) i (.rejected mode arg)) ∧
    (Mode.check functor pattern args = .ok () ↔
      pattern.length = args.length ∧ ∀ x ∈ findings pattern args, x = .accepted) ∧
    (∀ e, Mode.check functor pattern args = .error e →
      e = .invalidMode functor pattern ∨ ∃ position mode arg, e = .mode functor position mode arg) ∧
    ∀ (table : BuiltinTable) (b : Builtin) (scope : Scope) (f : Formula),
      table.find? functor args.length = some b → b.mode = pattern →
      ¬ WellFormed pattern args.length →
      (∃ i, FirstAt (findings pattern args) i .unknown) ∧
        (table.call scope functor args).run f = some (.error (.invalidMode functor pattern), f) ∨
      ∃ i mode arg, FirstAt (findings pattern args) i (.rejected mode arg) ∧
        (table.call scope functor args).run f =
          some (.ok (.failed (.mode functor (i + 1) mode arg)), f) := by
  refine ⟨check_eq_invalidMode_iff, ?sound, fun _ _ _ => check_eq_mode_iff, check_eq_ok_iff,
    ?errors, ?calls⟩
  case sound =>
    intro hreported hformed
    rcases check_eq_invalidMode_iff.mp hreported with hne | ⟨i, hi⟩
    · exact hne hformed.1
    · exact hformed.not_firstAt_unknown hi
  case errors =>
    intro e he
    rcases check_cases functor pattern args with
      ⟨-, hrun⟩ | ⟨-, ⟨-, hrun⟩ | ⟨-, hrun⟩ | ⟨i, mode, arg, -, hrun⟩⟩
    all_goals rw [hrun] at he; cases he
    · exact .inl rfl
    · exact .inl rfl
    · exact .inr ⟨i + 1, mode, arg, rfl⟩
  case calls =>
    rintro table b scope f hfind rfl hmalformed
    have hlength : b.mode.length = args.length := by
      have hanswers := List.find?_some hfind
      simp only [Builtin.answersTo, Bool.and_eq_true, decide_eq_true_eq] at hanswers
      exact hanswers.2
    rw [BuiltinTable.run_call hfind]
    rcases check_cases functor b.mode args with
      ⟨hne, -⟩ | ⟨-, ⟨hall, -⟩ | ⟨hunknown, hrun⟩ | ⟨i, mode, arg, hi, hrun⟩⟩
    · exact absurd hlength hne
    · exact absurd (wellFormed_of_accepted hlength hall) hmalformed
    · rw [hrun]
      exact .inl ⟨hunknown, rfl⟩
    · rw [hrun]
      exact .inr ⟨i, mode, arg, hi, rfl⟩

/-- A table with one builtin, which declares this pattern and answers whatever it is called with. -/
def oddTable (pattern : String) : BuiltinTable :=
  BuiltinTable.empty.register ⟨"odd", pattern, fun _ args => return [(args, .always)]⟩

/-- An unknown letter in front of everything is reported, whatever the arguments. -/
theorem check_reports_odd :
    Mode.check "odd" "gi" [.atom "a", .var "X"] = .error (.mode "odd" 2 .integer (.var "X")) ∧
    ((oddTable "?g").call (standardContext.scope 1) "odd" [.var "X", .var "Y"]).run .empty =
      some (.error (.invalidMode "odd" "?g"), .empty) := by
  have hmode := (check_reports "odd" "gi" [.atom "a", .var "X"]).2.2.1 2 .integer (.var "X")
  have hfirst : FirstAt (findings "gi" [.atom "a", .var "X"]) 1 (.rejected .integer (.var "X")) := by
    refine ⟨by decide, fun j hj => ?_⟩
    obtain rfl : j = 0 := by omega
    decide
  refine ⟨hmode.mpr ⟨rfl, 1, rfl, hfirst⟩, ?_⟩
  have hunknown : FirstAt (findings "?g" [.var "X", .var "Y"]) 0 .unknown := ⟨by decide, nofun⟩
  rcases (check_reports "odd" "?g" [.var "X", .var "Y"]).2.2.2.2.2 (oddTable "?g") _
      (standardContext.scope 1) .empty rfl rfl (fun h => h.not_firstAt_unknown hunknown) with
    ⟨-, hcall⟩ | ⟨i, mode, arg, hi, -⟩
  · exact hcall
  · cases (hunknown.unique hi nofun nofun).2

/-- The second letter belongs to no mode, but the first argument is looked at before. So the
declaration is not reported, and a call fails although it ought to abort. -/
theorem malformed_pattern_fails :
    ¬ WellFormed "g?" 2 ∧
    Mode.check "odd" "g?" [.var "X", .constant (.int 1)] =
      .error (.mode "odd" 1 .ground (.var "X")) ∧
    ((oddTable "g?").call (standardContext.scope 1) "odd" [.var "X", .constant (.int 1)]).run
        .empty =
      some (.ok (.failed (.mode "odd" 1 .ground (.var "X"))), .empty) :=
  ⟨fun h => h.2 '?' (by decide) (by decide), rfl, rfl⟩

end Grounding
