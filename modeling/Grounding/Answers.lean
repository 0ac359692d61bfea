import Grounding.Error
import Grounding.Formula.Guard

/-!
# Answers

A builtin can hold in several mutually exclusive ways, so a call has any number of results, each
under a guard, and ends with one completion. The last result is marked. A call that fails because of
a recoverable error has no results and keeps the error as the reason.

A consumer is driven by the results and the completion in this order, or pulls them one by one from
a stream.
-/

namespace Grounding

/-- One way in which a call holds. -/
structure Answer where
  /-- The arguments after the bindings of the call. -/
  args : List Term
  /-- The condition; `never` reports a branch that was decided and failed. -/
  guard : Guard
  /-- Whether no further result follows. -/
  isLast : Bool
deriving DecidableEq

/-- The results of a completed call, in order, or the reason of a failed one. -/
inductive Answers where
  | completed (results : List (List Term × Guard))
  | failed (reason : Error)
deriving DecidableEq

/-- What a consumer of answers is told. -/
inductive Notification where
  | result (answer : Answer)
  | complete
deriving DecidableEq

/-- A consumer with a state of its own. -/
structure Continuation (σ : Type) where
  onResult : Answer → σ → σ
  onComplete : σ → σ

def Continuation.notify {σ : Type} (k : Continuation σ) : Notification → σ → σ
  | .result answer => k.onResult answer
  | .complete => k.onComplete

namespace Answers

/-- Marks the last result. -/
def markLast : List (List Term × Guard) → List Answer
  | [] => []
  | [(args, guard)] => [⟨args, guard, true⟩]
  | (args, guard) :: rest => ⟨args, guard, false⟩ :: markLast rest

def results : Answers → List Answer
  | .completed results => markLast results
  | .failed _ => []

/-- The recoverable error that made the call fail. -/
def failure? : Answers → Option Error
  | .completed _ => none
  | .failed reason => some reason

/-- Whether some result holds under a guard that is not `never`. -/
def succeeded (answers : Answers) : Bool := answers.results.any fun a => !a.guard.isNever

end Answers

/-- Answers that are pulled one notification at a time. -/
structure AnswerStream where
  remaining : List Answer
  completed : Bool

namespace AnswerStream

def start (answers : Answers) : AnswerStream := ⟨answers.results, false⟩

/-- The next notification, if any, and the stream after it. -/
def next : AnswerStream → Option Notification × AnswerStream
  | ⟨answer :: rest, completed⟩ => (some (.result answer), ⟨rest, completed⟩)
  | ⟨[], true⟩ => (none, ⟨[], true⟩)
  | ⟨[], false⟩ => (some .complete, ⟨[], true⟩)

/-- The number of notifications that are still to come. -/
def left (s : AnswerStream) : Nat := s.remaining.length + if s.completed then 0 else 1

theorem left_next {s rest : AnswerStream} {notification : Notification}
    (h : s.next = (some notification, rest)) : rest.left < s.left := by
  obtain ⟨_ | ⟨answer, answers⟩, _ | _⟩ := s <;> cases h <;> simp [left]

/-- Pulls all notifications and tells them to a consumer. -/
def drive {σ : Type} (k : Continuation σ) (s : AnswerStream) (state : σ) : σ :=
  match _ : s.next with
  | (none, _) => state
  | (some notification, rest) => drive k rest (k.notify notification state)
termination_by s.left
decreasing_by exact left_next ‹_›

/-- The first notifications that are pulled, at most this many. -/
def take : Nat → AnswerStream → List Notification × AnswerStream
  | 0, s => ([], s)
  | n + 1, s =>
    match s.next with
    | (none, s) => ([], s)
    | (some notification, s) =>
      let (rest, s) := s.take n
      (notification :: rest, s)

end AnswerStream

/-- Tells a consumer every result and then the completion. -/
def Answers.drive {σ : Type} (answers : Answers) (k : Continuation σ) (state : σ) : σ :=
  (AnswerStream.start answers).drive k state

end Grounding
