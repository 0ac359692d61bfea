import Grounding.Error

/-!
# Arithmetic functions

A function has a name, an arity and a rule on lists of numbers. The evaluator applies it only to
lists as long as the arity. The builders below give a rule on the arguments by position and refuse
any other number of arguments.

A function table holds at most one function for each name and arity.
-/

namespace Grounding

/-- A function that arithmetic expressions can use. -/
structure ArithmeticFunction where
  name : String
  arity : Nat
  apply : List Number → Except Error Number

namespace ArithmeticFunction

/-- The answer to a wrong number of arguments. -/
def wrongCount (name : String) (arity : Nat) (args : List Number) : Except Error Number :=
  .error (.incorrectArgument (.argumentCount name arity args.length))

/-- A constant. -/
def nullary (name : String) (value : Number) : ArithmeticFunction where
  name := name
  arity := 0
  apply
    | [] => .ok value
    | args => wrongCount name 0 args

/-- A function of one argument. -/
def unary (name : String) (rule : Number → Except Error Number) : ArithmeticFunction where
  name := name
  arity := 1
  apply
    | [a] => rule a
    | args => wrongCount name 1 args

/-- A function of two arguments. -/
def binary (name : String) (rule : Number → Number → Except Error Number) : ArithmeticFunction where
  name := name
  arity := 2
  apply
    | [a, b] => rule a b
    | args => wrongCount name 2 args

/-- Whether the function answers to this name and arity. -/
def answersTo (f : ArithmeticFunction) (name : String) (arity : Nat) : Bool :=
  f.name = name && f.arity = arity

end ArithmeticFunction

/-- The functions that expressions can use. -/
structure FunctionTable where
  functions : List ArithmeticFunction

namespace FunctionTable

def empty : FunctionTable := ⟨[]⟩

def size (table : FunctionTable) : Nat := table.functions.length

def isEmpty (table : FunctionTable) : Bool := table.functions.isEmpty

/-- The function of this name and arity. -/
def find? (table : FunctionTable) (name : String) (arity : Nat) : Option ArithmeticFunction :=
  table.functions.find? (·.answersTo name arity)

def contains (table : FunctionTable) (name : String) (arity : Nat) : Bool :=
  (table.find? name arity).isSome

/-- Whether some arity of the name is registered. -/
def knowsName (table : FunctionTable) (name : String) : Bool :=
  table.functions.any (·.name = name)

/-- Adds a function in place of any other of the same name and arity. -/
def register (table : FunctionTable) (f : ArithmeticFunction) : FunctionTable :=
  ⟨f :: table.functions.filter fun g => !g.answersTo f.name f.arity⟩

/-- The table of these functions; of two that collide the later one stays. -/
def ofList (functions : List ArithmeticFunction) : FunctionTable :=
  functions.foldl register empty

end FunctionTable

end Grounding
