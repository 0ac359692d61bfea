import Grounding.Answers
import Grounding.Evaluation.Basic

/-!
# Builtins

A builtin is a predicate with a rule of its own: it gets its arguments as terms, may evaluate
expressions, and reports every way in which it holds. Its mode pattern has one letter for each
argument and says how the arguments must be instantiated. The check goes through pattern and
arguments together from left to right and reports the first fault it meets: a letter that no mode
has, or an argument that does not meet its mode.

`BuiltinTable.call` checks the mode before it runs a builtin, and turns a recoverable error into a
failed call; any other error aborts the query.
-/

namespace Grounding

namespace Mode

/-- Checks arguments from `position` on against the letters of `pattern`. -/
def checkFrom (functor pattern : String) (position : Nat) :
    List Char → List Term → Except Error Unit
  | letter :: letters, arg :: args =>
    match ofLetter? letter with
    | none => .error (.invalidMode functor pattern)
    | some mode =>
      if mode.accepts arg then checkFrom functor pattern (position + 1) letters args
      else .error (.mode functor position mode arg)
  | _, _ => .ok ()

/-- Checks the arguments of a call of `functor` against its mode pattern. -/
def check (functor pattern : String) (args : List Term) : Except Error Unit :=
  if pattern.length = args.length then checkFrom functor pattern 1 pattern.toList args
  else .error (.invalidMode functor pattern)

end Mode

/-- What a builtin can use beside the formula. -/
structure Scope where
  evaluate : Term → GroundingM (List GuardedValue)
  settings : Settings

/-- What a builtin can use when it runs in a context. -/
def Context.scope (c : Context) (fuel : Nat) : Scope := ⟨Grounding.evaluate c fuel, c.settings⟩

/-- The arguments of the answers of a builtin with their guards, in order. -/
abbrev Results := List (List Term × Guard)

/-- A predicate with a rule of its own. -/
structure Builtin where
  name : String
  /-- One letter for each argument. -/
  mode : String
  run : Scope → List Term → GroundingM Results

namespace Builtin

def arity (b : Builtin) : Nat := b.mode.length

/-- A builtin of one argument, which is given to the rule by position. -/
def unary (name mode : String) (rule : Scope → Term → GroundingM Results) : Builtin where
  name := name
  mode := mode
  run scope
    | [a] => rule scope a
    | args => throw (.incorrectArgument (.argumentCount name 1 args.length))

/-- A builtin of two arguments, which are given to the rule by position. -/
def binary (name mode : String) (rule : Scope → Term → Term → GroundingM Results) : Builtin where
  name := name
  mode := mode
  run scope
    | [a, b] => rule scope a b
    | args => throw (.incorrectArgument (.argumentCount name 2 args.length))

/-- Whether the builtin answers to this name and arity. -/
def answersTo (b : Builtin) (name : String) (arity : Nat) : Bool := b.name = name && b.arity = arity

end Builtin

/-- The builtins that can be called, at most one for each name and arity. -/
structure BuiltinTable where
  builtins : List Builtin

namespace BuiltinTable

def empty : BuiltinTable := ⟨[]⟩

def size (table : BuiltinTable) : Nat := table.builtins.length

def isEmpty (table : BuiltinTable) : Bool := table.builtins.isEmpty

/-- The builtin of this name and arity. -/
def find? (table : BuiltinTable) (name : String) (arity : Nat) : Option Builtin :=
  table.builtins.find? (·.answersTo name arity)

def contains (table : BuiltinTable) (name : String) (arity : Nat) : Bool :=
  (table.find? name arity).isSome

/-- Adds a builtin in place of any other of the same name and arity. -/
def register (table : BuiltinTable) (b : Builtin) : BuiltinTable :=
  ⟨b :: table.builtins.filter fun other => !other.answersTo b.name b.arity⟩

/-- The table of these builtins; of two that collide the later one stays. -/
def ofList (builtins : List Builtin) : BuiltinTable := builtins.foldl register empty

/-- A recoverable error makes the call fail, any other error aborts it. -/
def recover (e : Error) : GroundingM Answers :=
  if e.isRecoverable then return .failed e else throw e

/-- Runs a builtin on arguments that are checked against its mode first. -/
def call (table : BuiltinTable) (scope : Scope) (name : String) (args : List Term) :
    GroundingM Answers :=
  match table.find? name args.length with
  | none => throw (.unknownBuiltin name args.length)
  | some b =>
    tryCatch (do
      ofExcept (Mode.check name b.mode args)
      return .completed (← b.run scope args)) recover

end BuiltinTable

end Grounding
