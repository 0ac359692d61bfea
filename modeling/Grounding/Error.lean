import Grounding.Mode
import Grounding.Term.Order
import Grounding.Term.Text

/-!
# Errors

An error records what went wrong; `Error.message` is the only place where it is put into words.
Recoverable errors make the current branch of a proof fail, the others abort the query. Functions
and builtins supplied by a host may give a reason of their own as text.
-/

namespace Grounding

/-- Why an arithmetic function has no result. -/
inductive ArithmeticFault where
  | divisionByZero
  | overflow (left : Int64) (name : String) (right : Int64)
  | unaryOverflow (name : String) (arg : Int64)
  | exponentTooLarge (exponent : Int64)
  | negativeExponent (base : Int64) (name : String) (exponent : Int64)
  | undefinedPower (base : Binary64) (name : String) (exponent : Binary64)
  | outsideDomain (name : String) (arg : Number)
  | floatOverflow (name : String) (arg : Number)
  | notAnInteger (value : Binary64)
  | other (reason : String)
deriving DecidableEq

/-- What is wrong with the shape of an argument. -/
inductive ArgumentFault where
  | unbound (variableName : String)
  | cyclicRealization (term : Term)
  | expectsIntegers (name : String) (left right : Number)
  | argumentCount (name : String) (expected given : Nat)
  | pinnedDimensions (name : String) (pinned asked : Nat)
  | notADistribution (term : Term)
  | expectsList (term : Term)
  | expectsRealizedValue (term : Term)
  | observedExpectsList (dimensions : Nat) (observed : Term)
  | observedLength (dimensions observed : Nat)
  | observedList (observed : Nat)
  | other (reason : String)
deriving DecidableEq

/-- Why a value has no counterpart on the other side of an exchange. -/
inductive ConversionFault where
  | noTermForm (kind : String) (shown : String)
  | noNativeForm (term : Term)
  | other (reason : String)
deriving DecidableEq

/-- What can go wrong while a builtin runs or an expression is evaluated. -/
inductive Error where
  /-- Argument `position`, counted from one, does not meet its mode. -/
  | mode (functor : String) (position : Nat) (expected : Mode) (found : Term)
  | unknownFunction (name : String) (arity : Nat)
  | unknownBuiltin (name : String) (arity : Nat)
  /-- The mode pattern has an unknown letter or the wrong length. -/
  | invalidMode (functor : String) (pattern : String)
  | arithmetic (fault : ArithmeticFault)
  /-- A density was asked of a term without realization site. -/
  | notARandomVariable (term : Term)
  /-- A value was asked of a term without realization site. -/
  | undefinedRealization (term : Term)
  | conversion (fault : ConversionFault)
  | incorrectArgument (fault : ArgumentFault)
  | combinatorialExplosion (size limit : Nat)
deriving DecidableEq

namespace ArithmeticFault

def message : ArithmeticFault → String
  | .divisionByZero => "Division by zero."
  | .overflow left name right =>
    "Integer overflow: " ++ toString left.toInt ++ " " ++ name ++ " " ++ toString right.toInt
  | .unaryOverflow name arg =>
    "Integer overflow: " ++ name ++ "(" ++ toString arg.toInt ++ ")"
  | .exponentTooLarge exponent => "Exponent too large: " ++ toString exponent.toInt
  | .negativeExponent base name exponent =>
    toString base.toInt ++ " " ++ name ++ " " ++ toString exponent.toInt ++
      ": negative exponent on an integer base"
  | .undefinedPower base name exponent =>
    "Undefined: " ++ base.plainText ++ " " ++ name ++ " " ++ exponent.plainText
  | .outsideDomain name arg => name ++ "(" ++ arg.text ++ ") is outside the function's domain"
  | .floatOverflow name arg => "Float overflow: " ++ name ++ "(" ++ arg.text ++ ")"
  | .notAnInteger value => "Cannot convert " ++ value.plainText ++ " to an integer"
  | .other reason => reason

end ArithmeticFault

namespace ArgumentFault

def message : ArgumentFault → String
  | .unbound name => "Arguments are not sufficiently instantiated: " ++ name
  | .cyclicRealization term => "cyclic realization of " ++ term.text
  | .expectsIntegers name left right =>
    "'" ++ name ++ "' expects integers, got " ++ left.text ++ " and " ++ right.text
  | .argumentCount name expected given =>
    "'" ++ name ++ "' expects " ++ toString expected ++ " argument(s), got " ++ toString given
  | .pinnedDimensions name pinned asked =>
    name ++ " is realized with " ++ toString pinned ++ " dimension(s), not " ++ toString asked
  | .notADistribution term => term.text ++ " is not a distribution"
  | .expectsList term => "free_list expects a list, got " ++ term.text
  | .expectsRealizedValue term =>
    "observation expects a realized value, got " ++ term.kind ++ " (" ++ term.text ++ ")"
  | .observedExpectsList dimensions observed =>
    "observation of a " ++ toString dimensions ++ "-dimensional value expects a list, got " ++
      observed.kind
  | .observedLength dimensions observed =>
    "observation dimension mismatch: value has " ++ toString dimensions ++ ", observed has " ++
      toString observed
  | .observedList observed =>
    "observation dimension mismatch: value is a point, observed has " ++ toString observed
  | .other reason => reason

end ArgumentFault

namespace ConversionFault

def message : ConversionFault → String
  | .noTermForm kind shown => "unhandled native " ++ kind ++ " value: " ++ shown
  | .noNativeForm term => term.kind ++ " has no native representation: " ++ term.text
  | .other reason => reason

end ConversionFault

namespace Error

/-- Whether the error makes a branch fail instead of aborting the query. -/
def isRecoverable : Error → Bool
  | .mode .. | .arithmetic _ | .incorrectArgument _ => true
  | _ => false

def message : Error → String
  | .mode functor position expected found =>
    "Mode error in " ++ functor ++ ": argument " ++ toString position ++ " must be " ++
      expected.description ++ " ('" ++ expected.letter.toString ++ "'), got " ++ found.text
  | .unknownFunction name arity => "Unknown function '" ++ name ++ "'/" ++ toString arity
  | .unknownBuiltin name arity => "Unknown builtin '" ++ name ++ "'/" ++ toString arity
  | .invalidMode functor pattern =>
    "Builtin '" ++ functor ++ "' declares invalid mode pattern '" ++ pattern ++ "'"
  | .arithmetic fault => "Arithmetic error: " ++ fault.message
  | .notARandomVariable term =>
    "Cannot query density of discrete random variable (" ++ term.text ++ ")"
  | .undefinedRealization term =>
    "The value of a discrete random variable (" ++ term.text ++ ") is not defined"
  | .conversion fault => "Conversion error: " ++ fault.message
  | .incorrectArgument fault => "Incorrect argument: " ++ fault.message
  | .combinatorialExplosion size limit =>
    "Combinatorial explosion: evaluation would produce " ++ toString size ++
      " guarded values, exceeding limit of " ++ toString limit

end Error

end Grounding
