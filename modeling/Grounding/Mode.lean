import Grounding.Term.Basic

/-!
# Argument modes

A builtin declares for each argument how far it has to be instantiated. A mode has a letter, which
stands in mode patterns, and a description for messages.
-/

namespace Grounding

/-- A requirement on one argument of a builtin. -/
inductive Mode where
  | ground
  | callable
  | any
  | list
  | var
  | nonVar
  | integer
  | atom
deriving DecidableEq

namespace Mode

def letter : Mode → Char
  | .ground => 'g'
  | .callable => 'c'
  | .any => '*'
  | .list => 'l'
  | .var => 'v'
  | .nonVar => 'n'
  | .integer => 'i'
  | .atom => 'a'

/-- The mode with this letter. -/
def ofLetter? : Char → Option Mode
  | 'g' => some .ground
  | 'c' => some .callable
  | '*' => some .any
  | 'l' => some .list
  | 'v' => some .var
  | 'n' => some .nonVar
  | 'i' => some .integer
  | 'a' => some .atom
  | _ => none

def description : Mode → String
  | .ground => "ground"
  | .callable => "callable"
  | .any => "any term"
  | .list => "a list"
  | .var => "a variable"
  | .nonVar => "non-variable"
  | .integer => "an integer"
  | .atom => "an atom"

/-- Whether the argument meets the requirement. -/
def accepts : Mode → Term → Bool
  | .ground, t => t.isGround
  | .callable, t => t.isCallable
  | .any, _ => true
  | .list, t => t.isList
  | .var, t => t.isVar
  | .nonVar, t => !t.isVar
  | .integer, .constant (.int _) => true
  | .integer, _ => false
  | .atom, .atom _ => true
  | .atom, _ => false

end Mode

end Grounding
