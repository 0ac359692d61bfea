import Grounding.Term.Basic

/-!
# The canonical text of a term

Names that read as they are stand bare: `[]`, `!`, `;`, a run of operator characters, and a lower
case ASCII letter followed by ASCII letters, digits and underscores. Any other name of an atom or
functor is quoted, and a quote inside it is written `\'`. Names of variables and realizations are
always bare.

Lists are written with brackets, a tail that is no list after `|`. The text of a variable is part of
the name of its realizations.
-/

namespace Grounding

/-- The characters that may form a bare operator name. -/
def operatorChars : List Char := "+-*/\\^<>=~:.?@#&$".toList

/-- Whether the name must be quoted when it is written as an atom or functor. -/
def needsQuotes (name : String) : Bool :=
  match name.toList with
  | [] => true
  | c :: cs =>
    !(name = "[]" || name = "!" || name = ";"
      || (c :: cs).all operatorChars.contains
      || c.isLower && cs.all fun d => d.isAlphanum || d = '_')

/-- The characters of a quoted name; a quote in it is escaped, nothing else is. -/
def escapeQuotes : List Char → List Char
  | [] => []
  | c :: cs => if c = '\'' then '\\' :: '\'' :: escapeQuotes cs else c :: escapeQuotes cs

/-- The text of a name as an atom or functor. -/
def nameText (name : String) : String :=
  if needsQuotes name then "'" ++ String.ofList (escapeQuotes name.toList) ++ "'" else name

/-- The texts of arguments, separated by commas. -/
def argsText (args : List String) : String := String.intercalate "," args

/-- The text of a functor applied to arguments; without arguments there are no parentheses. -/
def callText (functor : String) (args : List String) : String :=
  if args.isEmpty then nameText functor else nameText functor ++ "(" ++ argsText args ++ ")"

namespace Term

mutual

/-- The text of a term by itself, or of what follows the items when the term is the tail of a
list: nothing for the empty list, further items for a cell, and any other term after a bar. -/
def textAt (asTail : Bool) : Term → String
  | .constant n => bar asTail ++ n.text
  | .atom name => if asTail && name = nilName then "" else bar asTail ++ nameText name
  | .var name => bar asTail ++ name
  | .compound functor [head, tail] =>
    if functor = cellFunctor then
      let items := head.textAt false ++ tail.textAt true
      if asTail then "," ++ items else "[" ++ items ++ "]"
    else bar asTail ++ callText functor [head.textAt false, tail.textAt false]
  | .compound functor args | .symbolic functor args _ =>
    bar asTail ++ callText functor (texts args)
  | .density name => bar asTail ++ "density(" ++ name ++ ")"
  | .realized functor args name dimensions =>
    bar asTail ++ "value(" ++ name ++ "," ++ nameText functor ++ "(" ++
      argsText (texts args) ++ ")," ++ toString dimensions ++ ")"
  | .coordinate name index => bar asTail ++ name ++ "[" ++ toString index ++ "]"
where
  /-- Separates a tail that is no list from the items. -/
  bar : Bool → String
    | true => "|"
    | false => ""

/-- The texts of the terms of a list. -/
def texts : List Term → List String
  | [] => []
  | t :: ts => t.textAt false :: texts ts

end

/-- The canonical text. -/
def text (t : Term) : String := t.textAt false

theorem texts_eq_map (ts : List Term) : texts ts = ts.map text := by
  induction ts with
  | nil => rfl
  | cons t ts ih => rw [texts, ih, List.map_cons, text]

end Term

end Grounding
