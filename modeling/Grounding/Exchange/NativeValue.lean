import Grounding.Number.Basic
import Grounding.Text.Literal

/-!
# Values of a native logic engine

A logic engine outside of this library has values of its own. Most of them have a counterpart among
the terms; strings and dictionaries have none.

`shown` writes a value with all its structure, for messages about values that cannot be converted.
-/

namespace Grounding

/-- A value as a native logic engine produces or consumes it. -/
inductive NativeValue where
  | functor (name : String) (args : List NativeValue)
  | atom (name : String)
  | int (value : Int64)
  | float (value : Binary64)
  | list (items : List NativeValue)
  | var (name : String)
  | str (text : String)
  | dict (entries : List (String × NativeValue))

namespace NativeValue

/-- Puts an entry at its place in the order of the keys, in place of any other with this key. -/
def insertEntry (key : String) (value : NativeValue) :
    List (String × NativeValue) → List (String × NativeValue)
  | [] => [(key, value)]
  | (k, v) :: rest =>
    match compare key k with
    | .lt => (key, value) :: (k, v) :: rest
    | .eq => (key, value) :: rest
    | .gt => (k, v) :: insertEntry key value rest

/-- The dictionary of these entries in the order of the keys; the last value of a key counts. -/
def ofEntries (entries : List (String × NativeValue)) : NativeValue :=
  .dict (entries.foldl (fun sorted (key, value) => insertEntry key value sorted) [])

/-- What kind of value this is, in a word. -/
def kind : NativeValue → String
  | .functor .. => "functor"
  | .atom _ => "atom"
  | .int _ => "integer"
  | .float _ => "float"
  | .list _ => "list"
  | .var _ => "variable"
  | .str _ => "string"
  | .dict _ => "dict"

/-- Shown values in brackets. -/
def bracketed (shown : List String) : String := "[" ++ String.intercalate ", " shown ++ "]"

mutual

/-- The value with all its structure. -/
def shown : NativeValue → String
  | .functor name args =>
    "Functor \x7b name: " ++ Text.literal name ++ ", args: " ++ bracketed (shownAll args) ++ " \x7d"
  | .atom name => "Atom(" ++ Text.literal name ++ ")"
  | .int value => "Int(" ++ toString value.toInt ++ ")"
  | .float value => "Float(" ++ value.scientificText ++ ")"
  | .list items => "List(" ++ bracketed (shownAll items) ++ ")"
  | .var name => "Variable(" ++ Text.literal name ++ ")"
  | .str text => "Str(" ++ Text.literal text ++ ")"
  | .dict entries => "Dict(\x7b" ++ String.intercalate ", " (shownEntries entries) ++ "\x7d)"

/-- Each value of a list with all its structure. -/
def shownAll : List NativeValue → List String
  | [] => []
  | v :: vs => v.shown :: shownAll vs

/-- Each entry of a dictionary, the key before a colon. -/
def shownEntries : List (String × NativeValue) → List String
  | [] => []
  | (key, value) :: rest => (Text.literal key ++ ": " ++ value.shown) :: shownEntries rest

end

end NativeValue

end Grounding
