/-!
# Settings

What a session can be configured with. Everything has a default.

Settings are read from a TOML document that assigns `keep_builtins` a boolean and
`max_cartesian_results` a nonnegative integer. Either may be left out; nothing else may be assigned,
and nothing twice. As every other value is an error, a document can be read line by line: a line is
blank or assigns one key, and may end in a comment.
-/

namespace Grounding

/-- The configuration of a session. -/
structure Settings where
  /-- Whether a passing comparison of numbers is kept as an atom of the formula. -/
  keepBuiltins : Bool := false
  /-- The greatest number of tuples that one function application may produce. -/
  maxCombinations : Nat := 10000
deriving DecidableEq

namespace Settings

/-- The lines of a document. A line ends in a line feed, which a carriage return may precede. -/
def documentLines : List Char → List (List Char)
  | [] => [[]]
  | '\n' :: cs => [] :: documentLines cs
  | '\r' :: '\n' :: cs => [] :: documentLines cs
  | c :: cs =>
    match documentLines cs with
    | [] => [[c]]
    | line :: lines => (c :: line) :: lines

def isBlank (c : Char) : Bool := c = ' ' || c = '\t'

/-- Whether a comment may hold the character: no control but the tab. -/
def isCommentChar (c : Char) : Bool := c = '\t' || 0x20 ≤ c.toNat && c.toNat ≠ 0x7f

/-- Whether a key without quotes may hold the character. -/
def isBareKeyChar (c : Char) : Bool := c.isAlphanum || c = '_' || c = '-'

/-- Whether nothing but a comment is left of a line. -/
def endsLine (cs : List Char) : Bool :=
  match cs.dropWhile isBlank with
  | [] => true
  | c :: rest => c = '#' && rest.all isCommentChar

/-- The value of a digit in a base up to 16. -/
def digit? (base : Nat) (c : Char) : Option Nat :=
  let value :=
    if c.isDigit then some (c.toNat - '0'.toNat)
    else if 'a' ≤ c && c ≤ 'f' then some (c.toNat - 'a'.toNat + 10)
    else if 'A' ≤ c && c ≤ 'F' then some (c.toNat - 'A'.toNat + 10)
    else none
  value.filter (· < base)

/-- The number that digits have after `acc`; a single underscore may stand between two digits. -/
def digitsFrom (base acc : Nat) : List Char → Option Nat
  | [] => some acc
  | '_' :: c :: cs => (digit? base c).bind fun d => digitsFrom base (acc * base + d) cs
  | c :: cs => (digit? base c).bind fun d => digitsFrom base (acc * base + d) cs

/-- The number of a nonempty run of digits. -/
def digits? (base : Nat) : List Char → Option Nat
  | [] => none
  | c :: cs => (digit? base c).bind fun d => digitsFrom base d cs

/-- The number of decimal digits without superfluous zeros. -/
def decimal? (cs : List Char) : Option Nat :=
  if 2 ≤ cs.length && cs.head? = some '0' then none else digits? 10 cs

/-- The number of an integer literal. Only decimal ones may have a sign. -/
def integer? : List Char → Option Int
  | '0' :: 'x' :: cs => (digits? 16 cs).map Int.ofNat
  | '0' :: 'o' :: cs => (digits? 8 cs).map Int.ofNat
  | '0' :: 'b' :: cs => (digits? 2 cs).map Int.ofNat
  | '-' :: cs => (decimal? cs).map fun n => -(n : Int)
  | '+' :: cs => (decimal? cs).map Int.ofNat
  | cs => (decimal? cs).map Int.ofNat

/-- The character with this hexadecimal code point. -/
def codePoint? (hex : List Char) : Option Char :=
  (hex.mapM (digit? 16)).bind fun ds =>
    let n := ds.foldl (fun n d => 16 * n + d) 0
    if n.isValidChar then some (Char.ofNat n) else none

/-- The character that a backslash and a letter stand for. -/
def escape? : Char → Option Char
  | 'b' => some '\x08'
  | 't' => some '\t'
  | 'n' => some '\n'
  | 'f' => some '\x0c'
  | 'r' => some '\r'
  | '"' => some '"'
  | '\\' => some '\\'
  | _ => none

/-- A key up to its closing double quote, and what follows. -/
def quotedKey? : List Char → Option (List Char × List Char)
  | [] => none
  | '"' :: rest => some ([], rest)
  | '\\' :: 'u' :: h₁ :: h₂ :: h₃ :: h₄ :: rest => do
    let c ← codePoint? [h₁, h₂, h₃, h₄]
    let (key, rest) ← quotedKey? rest
    return (c :: key, rest)
  | '\\' :: 'U' :: h₁ :: h₂ :: h₃ :: h₄ :: h₅ :: h₆ :: h₇ :: h₈ :: rest => do
    let c ← codePoint? [h₁, h₂, h₃, h₄, h₅, h₆, h₇, h₈]
    let (key, rest) ← quotedKey? rest
    return (c :: key, rest)
  | '\\' :: letter :: rest => do
    let c ← escape? letter
    let (key, rest) ← quotedKey? rest
    return (c :: key, rest)
  | c :: rest => do
    guard (isCommentChar c && c ≠ '\\')
    let (key, rest) ← quotedKey? rest
    return (c :: key, rest)

/-- A key up to its closing single quote, and what follows. Nothing is escaped in it. -/
def literalKey? : List Char → Option (List Char × List Char)
  | [] => none
  | '\'' :: rest => some ([], rest)
  | c :: rest => do
    guard (isCommentChar c)
    let (key, rest) ← literalKey? rest
    return (c :: key, rest)

/-- A key, and what follows. -/
def key? : List Char → Option (List Char × List Char)
  | '"' :: rest => quotedKey? rest
  | '\'' :: rest => literalKey? rest
  | cs =>
    if (cs.takeWhile isBareKeyChar).isEmpty then none
    else some (cs.takeWhile isBareKeyChar, cs.dropWhile isBareKeyChar)

/-- A key with the text of its value, both without the blanks around them. -/
def assignment? (cs : List Char) : Option (String × List Char) := do
  let (key, rest) ← key? cs
  match rest.dropWhile isBlank with
  | '=' :: rest =>
    let rest := rest.dropWhile isBlank
    let inValue := fun c => !(isBlank c || c = '#')
    guard (endsLine (rest.dropWhile inValue))
    return (String.ofList key, rest.takeWhile inValue)
  | _ => none

def boolean? (text : List Char) : Option Bool :=
  if text = "true".toList then some true
  else if text = "false".toList then some false
  else none

/-- A nonnegative integer that fits a machine word. -/
def limit? (text : List Char) : Option Nat :=
  (integer? text).bind fun z => if 0 ≤ z ∧ z ≤ 0x7fffffffffffffff then some z.toNat else none

/-- The values assigned so far. -/
structure Assigned where
  keepBuiltins : Option Bool := none
  maxCombinations : Option Nat := none

/-- Adds one assignment, unless the key is unknown or assigned already. -/
def Assigned.assign (a : Assigned) (key : String) (text : List Char) : Option Assigned :=
  if key = "keep_builtins" && a.keepBuiltins.isNone then
    (boolean? text).map fun b => { a with keepBuiltins := some b }
  else if key = "max_cartesian_results" && a.maxCombinations.isNone then
    (limit? text).map fun n => { a with maxCombinations := some n }
  else none

/-- Adds what a line assigns. -/
def Assigned.readLine (a : Assigned) (line : List Char) : Option Assigned :=
  if endsLine line then some a
  else (assignment? (line.dropWhile isBlank)).bind fun (key, text) => a.assign key text

/-- The settings with defaults for what was not assigned. -/
def Assigned.settings (a : Assigned) : Settings where
  keepBuiltins := a.keepBuiltins.getD ({} : Settings).keepBuiltins
  maxCombinations := a.maxCombinations.getD ({} : Settings).maxCombinations

/-- Drops the byte order mark that may open a document. -/
def withoutMark : List Char → List Char
  | '\uFEFF' :: cs => cs
  | cs => cs

/-- The settings that a document gives, unless it is malformed. -/
def ofDocument? (document : String) : Option Settings :=
  ((documentLines (withoutMark document.toList)).foldlM Assigned.readLine {}).map Assigned.settings

end Settings

end Grounding
