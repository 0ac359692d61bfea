import Grounding.Proofs.Builtin.Sink
import Grounding.Proofs.Session.Finish
import Grounding.Proofs.Session.Rejection

/-!
# What a consumer of a call is told

A builtin pushes results while it works, and the call turns the end of its run into answers. Either
the run came to its end, and the answers are what was pushed, or a recoverable error ended it, and
there are none, however much was pushed before. A consumer is told the answers in the order in which
they were pushed, the last one marked, and then of the completion, whether it is driven or pulls.
-/

namespace Grounding

open GroundingM

variable {table : BuiltinTable} {scope : Scope} {b : Builtin} {name : String} {args : List Term}
  {f g : Formula} {rule : Scope → List Term → SinkM Unit}

namespace AnswerStream

/-- The stream after some notifications were pulled. -/
def after : Nat → AnswerStream → AnswerStream
  | 0, s => s
  | n + 1, s => after n s.next.2

theorem next_after_completed (n : Nat) : (after n ⟨[], true⟩).next.1 = none := by
  induction n with
  | zero => rfl
  | succ n ih => exact ih

/-- The notifications are pulled in order, and then nothing is left. -/
theorem next_after (n : Nat) (remaining : List Answer) :
    (after n ⟨remaining, false⟩).next.1 = (remaining.map .result ++ [.complete])[n]? := by
  induction n generalizing remaining with
  | zero => cases remaining <;> rfl
  | succ n ih =>
    cases remaining with
    | nil => exact next_after_completed n
    | cons a rest => exact ih rest

theorem drive_completed {σ : Type} (k : Continuation σ) (state : σ) :
    drive k ⟨[], true⟩ state = state := by
  rw [drive]
  rfl

/-- A consumer that is driven by a stream is told what the stream gives, one by one. -/
theorem drive_start {σ : Type} (k : Continuation σ) (remaining : List Answer) (state : σ) :
    drive k ⟨remaining, false⟩ state =
      k.onComplete (remaining.foldl (fun state answer => k.onResult answer state) state) := by
  induction remaining generalizing state with
  | nil =>
    rw [drive]
    exact drive_completed k _
  | cons answer rest ih =>
    rw [drive]
    exact ih (k.onResult answer state)

end AnswerStream

namespace Answers

theorem markLast_eq_mapIdx (pushed : Results) :
    markLast pushed = pushed.mapIdx fun i p => ⟨p.1, p.2, i + 1 = pushed.length⟩ := by
  fun_induction markLast pushed with
  | case1 | case2 => rfl
  | case3 args guard rest hrest ih =>
    have hlength : rest.length ≠ 0 := fun h => hrest (List.length_eq_zero_iff.mp h)
    rw [ih, List.mapIdx_cons]
    simp [hlength, eq_comm]

/-- A consumer of the answers is told exactly these results and then of the completion. -/
structure Delivers (answers : Answers) (pushed : Results) : Prop where
  /-- The results are in order, and the last of them is marked. -/
  results : answers.results = pushed.mapIdx fun i p => ⟨p.1, p.2, i + 1 = pushed.length⟩
  /-- A consumer that is driven is told each result once, and at last of the completion. -/
  driven : ∀ {σ : Type} (k : Continuation σ) (state : σ), answers.drive k state =
    k.onComplete (answers.results.foldl (fun state answer => k.onResult answer state) state)
  /-- A consumer that pulls is told the same, and nothing more. -/
  pulled : ∀ n, ((AnswerStream.start answers).after n).next.1 =
    (answers.results.map .result ++ [.complete])[n]?
  succeeded : answers.succeeded ↔ ∃ p ∈ pushed, p.2 ≠ .never

theorem delivers_of_results {answers : Answers} {pushed : Results}
    (h : answers.results = markLast pushed) : answers.Delivers pushed where
  results := h.trans (markLast_eq_mapIdx pushed)
  driven k state := AnswerStream.drive_start k answers.results state
  pulled n := AnswerStream.next_after n answers.results
  succeeded := by
    have hnever (g : Guard) : (!g.isNever) = true ↔ g ≠ .never := by
      cases g <;> simp [Guard.isNever]
    unfold succeeded
    rw [h, List.any_eq_true]
    constructor
    · rintro ⟨a, ha, hguard⟩
      exact ⟨_, mem_markLast ha, (hnever a.guard).mp hguard⟩
    · rintro ⟨p, hp, hguard⟩
      obtain ⟨i, hi, rfl⟩ := List.getElem_of_mem hp
      refine ⟨⟨pushed[i].1, pushed[i].2, i + 1 = pushed.length⟩, ?_, (hnever _).mpr hguard⟩
      rw [markLast_eq_mapIdx]
      exact List.mem_mapIdx.mpr ⟨i, hi, rfl⟩

theorem delivers_completed (pushed : Results) : (completed pushed).Delivers pushed :=
  delivers_of_results rfl

theorem delivers_failed (e : Error) : (failed e).Delivers [] := delivers_of_results rfl

end Answers

/-- The body of a call: the check, and then the rule. -/
def SinkM.checked (b : Builtin) (rule : Scope → List Term → SinkM Unit) (name : String)
    (scope : Scope) (args : List Term) : SinkM Unit := do
  lift (ofExcept (Mode.check name b.mode args))
  rule scope args

namespace BuiltinTable

/-- A call ends as its body does. -/
theorem run_call_pushing (hfind : table.find? name args.length = some b) (hb : b.PushesBy rule)
    (f : Formula) : (table.call scope name args).run f =
      (((SinkM.checked b rule name scope args).run.run []).run f).map fun p =>
        (Answers.ofRun (p.1.1.map fun _ => p.1.2), p.2) := by
  have hcollect : (do ofExcept (Mode.check name b.mode args); b.run scope args :
        GroundingM Results).run f =
      (((SinkM.checked b rule name scope args).run.run []).run f).map fun p =>
        (p.1.1.map fun _ => p.1.2, p.2) := by
    rw [← SinkM.run_collect, SinkM.checked, SinkM.collect_lift_bind, hb scope args]
  have hcall : (table.call scope name args).run f =
      ((do ofExcept (Mode.check name b.mode args); b.run scope args :
        GroundingM Results).run f).map fun p =>
        (Answers.ofRun p.1, p.2) := by
    rw [run_call hfind]
    cases Mode.check name b.mode args <;> rfl
  rw [hcall, hcollect, Option.map_map]
  rfl

/-- No call is aborted by an error that makes a branch fail. -/
theorem not_isRecoverable_of_run_call {e : Error}
    (h : (table.call scope name args).run f = some (.error e, g)) : e.isRecoverable = false := by
  have hofRun {r : Except Error Results} (hr : Answers.ofRun r = .error e) :
      e.isRecoverable = false := by
    cases r with
    | ok results => cases hr
    | error e' =>
      unfold Answers.ofRun at hr
      dsimp only at hr
      split at hr
      · cases hr
      · next hnot =>
        cases hr
        exact Bool.eq_false_iff.mpr hnot
  cases hfind : table.find? name args.length with
  | none =>
    unfold call at h
    rw [hfind] at h
    cases h
    rfl
  | some b =>
    rcases run_call_cases hfind h with ⟨e', -, hr, -⟩ | ⟨-, r', -, hr⟩
    · exact hofRun hr.symm
    · exact hofRun hr.symm

end BuiltinTable

open BuiltinTable

/-- A call is aborted only by an error that is not recoverable. It delivers what the rule of the
builtin pushed if its run came to its end, and nothing, with the error as the reason, if a
recoverable error ended it, wherever that was and however much was pushed before. The standard
builtins with several results push each of them as soon as they have it, and a call of a standard
builtin comes to an end whenever evaluation leads to finitely many terms, with the fuel of a session
under every resolver table. -/
theorem call_delivers (table : BuiltinTable) (name : String) (args : List Term) (f : Formula) :
    (∀ scope, table.find? name args.length = none →
      (table.call scope name args).run f = some (.error (.unknownBuiltin name args.length), f)) ∧
    (∀ scope b rule, table.find? name args.length = some b → b.PushesBy rule →
      ((((SinkM.checked b rule name scope args).run.run []).run f = none →
        (table.call scope name args).run f = none) ∧
      (∀ pushed g,
        ((SinkM.checked b rule name scope args).run.run []).run f = some ((.ok (), pushed), g) →
          ∃ answers, (table.call scope name args).run f = some (.ok answers, g) ∧
            answers.Delivers pushed ∧ answers.failure? = none) ∧
      ∀ e pushed g,
        ((SinkM.checked b rule name scope args).run.run []).run f = some ((.error e, pushed), g) →
          if e.isRecoverable then
            ∃ answers, (table.call scope name args).run f = some (.ok answers, g) ∧
              answers.Delivers [] ∧ answers.failure? = some e
          else (table.call scope name args).run f = some (.error e, g))) ∧
    (∀ scope e g, (table.call scope name args).run f = some (.error e, g) →
      e.isRecoverable = false) ∧
    ((∀ b : Builtin, b.PushesBy b.pushAtEnd) ∧
      (∀ k : Comparison, k.builtin.PushesBy (Builtin.pushTwo k.name k.pushResults)) ∧
      Builtin.asBuiltin.PushesBy (Builtin.pushTwo "as" Builtin.pushAs) ∧
      Builtin.densityBuiltin.PushesBy (Builtin.pushOne "density" Builtin.pushDensities) ∧
      Builtin.observationBuiltin.PushesBy
        (Builtin.pushTwo "observation" Builtin.pushObservations)) ∧
    ((∀ b, table.find? name args.length = some b → b ∈ standardBuiltins) →
      (∀ c : Context, (∀ a ∈ args, ∀ u, a.Part u → {s | c.Reached f u s}.Finite) →
        ∃ depth, ∀ fuel, depth ≤ fuel → ((table.call (c.scope fuel) name args).run f).isSome) ∧
      ∀ (session : Session) (rows : ResolverTable), session.builtins = table →
        session.formula = f → (session.call rows name args).isSome) := by
  refine ⟨fun scope hfind => ?_, fun scope b rule hfind hb => ⟨fun hnone => ?_,
    fun pushed g hrun => ?_, fun e pushed g hrun => ?_⟩,
    fun scope e g => not_isRecoverable_of_run_call,
    ⟨Builtin.pushesBy_pushAtEnd, fun k => Builtin.binary_pushesBy k.collect_pushResults,
      Builtin.binary_pushesBy Builtin.collect_pushAs,
      Builtin.unary_pushesBy Builtin.collect_pushDensities,
      Builtin.binary_pushesBy Builtin.collect_pushObservations⟩,
    fun hstandard => ⟨fun c hfinite => isSome_run_call_of_finite hstandard hfinite, ?_⟩⟩
  · unfold call
    rw [hfind]
    rfl
  · rw [run_call_pushing hfind hb, hnone]
    rfl
  · refine ⟨.completed pushed, ?_, Answers.delivers_completed pushed, rfl⟩
    rw [run_call_pushing hfind hb, hrun]
    rfl
  · have hcall : (table.call scope name args).run f = some (Answers.ofRun (.error e), g) := by
      rw [run_call_pushing hfind hb, hrun]
      rfl
    rw [hcall, Answers.ofRun]
    split
    · exact ⟨.failed e, rfl, Answers.delivers_failed e, rfl⟩
    · rfl
  · rintro session rows rfl rfl
    unfold Session.call Session.run
    rw [Option.isSome_map]
    exact isSome_run_call_of_table hstandard rfl (Nat.le_refl _) _

/-- The value at the first site is pushed, and then the second site refuses a vector. The call
delivers nothing, and asked for a point it delivers both sites. -/
theorem call_delivers_mixed :
    (∃ pushed g, ((SinkM.checked Builtin.asBuiltin (Builtin.pushTwo "as" Builtin.pushAs) "as"
          (standardContext.scope 1) [.ofList [.var "A", .var "B"], .atom "x"]).run.run []).run
        Formula.mixed =
          some ((.error (.incorrectArgument (.pinnedDimensions "x#2" 1 2)), pushed), g) ∧
      pushed.length = 1 ∧
      ∃ answers, (BuiltinTable.standard.call (standardContext.scope 1) "as"
          [.ofList [.var "A", .var "B"], .atom "x"]).run Formula.mixed = some (.ok answers, g) ∧
        answers.Delivers [] ∧
        answers.failure? = some (.incorrectArgument (.pinnedDimensions "x#2" 1 2))) ∧
    (∃ answers g, (BuiltinTable.standard.call (standardContext.scope 1) "as"
        [.var "X", .atom "x"]).run Formula.mixed = some (.ok answers, g) ∧
      answers.Delivers [([.coordinate "x#1" 0, .atom "x"], .always),
        ([.coordinate "x#2" 0, .atom "x"], .always)]) ∧
    (∃ depth, ∀ fuel, depth ≤ fuel → ((BuiltinTable.standard.call (standardContext.scope fuel) "as"
      [.var "X", .atom "x"]).run Formula.mixed).isSome) := by
  have hfinite : ∀ a ∈ [Term.var "X", .atom "x"], ∀ u, a.Part u →
      {s | standardContext.Reached Formula.mixed u s}.Finite :=
    fun _ _ u _ => (ResolverTable.empty.finite_reached (c := standardContext) rfl u)
  obtain ⟨-, hvector, -, ⟨-, -, has, -⟩, -⟩ := call_delivers .standard "as"
    [.ofList [.var "A", .var "B"], .atom "x"] Formula.mixed
  obtain ⟨-, hpoint, -, -, hends⟩ := call_delivers .standard "as"
    [.var "X", .atom "x"] Formula.mixed
  obtain ⟨-, -, herror⟩ := hvector (standardContext.scope 1) Builtin.asBuiltin _ rfl has
  obtain ⟨-, hok, -⟩ := hpoint (standardContext.scope 1) Builtin.asBuiltin _ rfl has
  refine ⟨⟨_, _, rfl, rfl, herror _ _ _ rfl⟩, ?_, ?_⟩
  · obtain ⟨answers, hcall, hdelivers, -⟩ := hok _ _ rfl
    exact ⟨answers, _, hcall, hdelivers⟩
  · exact (hends fun b hb => mem_of_find? hb).1 standardContext hfinite

end Grounding
