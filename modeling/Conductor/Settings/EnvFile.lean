import Conductor.Entries
import Conductor.Text.Digit

/-!
# Environment files

An environment file sets variables line by line: a name, an equals sign and a value. Values may be
quoted; a value without quotes ends at a comment and loses the blanks behind it. Afterwards every
reference to a variable in braces is replaced by the value of that variable, or by the default
given with it.

A line that fits none of this is skipped.
-/

namespace Conductor

namespace EnvFile

/-- Whether a character ends a line. -/
def isLineEnd (c : Char) : Bool := c == '\n' || c == '\r'

/-- Whether a character is blank: a blank of any script, or one of the four separators of
records. -/
def isBlank (c : Char) : Bool := Text.isBlank c || (0x1c ≤ c.toNat && c.toNat ≤ 0x1f)

/-- Whether a character is a blank inside a line. -/
def isSpace (c : Char) : Bool := isBlank c && !isLineEnd c

/-- The text behind the end of the current line. -/
def nextLine : List Char → List Char
  | [] => []
  | c :: cs => if isLineEnd c then cs else nextLine cs

/-- The text behind an optional word that marks a variable for export. -/
def dropExport (cs : List Char) : List Char :=
  let word := "export".toList
  let rest := cs.drop word.length
  if cs.take word.length == word && rest.head?.any isSpace then rest.dropWhile isSpace else cs

/-- The inside of a quoted text up to its closing mark, and what follows it. A mark behind a
backslash closes only if no other mark does. -/
def takeQuoted? (mark : Char) : List Char → Option (List Char × List Char)
  | [] => none
  | '\\' :: c :: cs =>
    if c == mark then
      match takeQuoted? mark cs with
      | some (a, b) => some ('\\' :: c :: a, b)
      | none => some (['\\'], cs)
    else (takeQuoted? mark (c :: cs)).map fun (a, b) => ('\\' :: a, b)
  | c :: cs =>
    if c == mark then some ([], cs) else (takeQuoted? mark cs).map fun (a, b) => (c :: a, b)
termination_by cs => cs.length

/-- The character that an escape in double quotes stands for. -/
def escaped? : Char → Option Char
  | '\\' => some '\\'
  | '\'' => some '\''
  | '"' => some '"'
  | 'a' => some '\x07'
  | 'b' => some '\x08'
  | 'f' => some '\x0c'
  | 'n' => some '\n'
  | 'r' => some '\r'
  | 't' => some '\t'
  | 'v' => some '\x0b'
  | _ => none

/-- Replaces the escapes that are known in a quoted text. -/
def unescape (known : Char → Option Char) : List Char → List Char
  | '\\' :: c :: cs =>
    match known c with
    | some d => d :: unescape known cs
    | none => '\\' :: unescape known (c :: cs)
  | c :: cs => c :: unescape known cs
  | [] => []
termination_by cs => cs.length

/-- The escapes in single quotes. -/
def escapedSingle? (c : Char) : Option Char :=
  if c == '\\' || c == '\'' then some c else none

/-- A value without quotes, cut at a comment that follows a blank. -/
def cutComment : List Char → List Char
  | [] => []
  | c :: cs =>
    if isBlank c && ((cs.dropWhile isBlank).head? == some '#') then []
    else c :: cutComment cs

/-- A list of characters without the blanks at its end. -/
def trimEnd (cs : List Char) : List Char := (cs.reverse.dropWhile isBlank).reverse

/-- Reads a value, and gives what follows it. -/
def takeValue? : List Char → Option (List Char × List Char)
  | '\'' :: cs => (takeQuoted? '\'' cs).map fun (a, b) => (unescape escapedSingle? a, b)
  | '"' :: cs => (takeQuoted? '"' cs).map fun (a, b) => (unescape escaped? a, b)
  | cs =>
    let (line, rest) := cs.span fun c => !isLineEnd c
    some (trimEnd (cutComment line), rest)

/-- Reads a name, and gives what follows it. A comment has none. -/
def takeName? : List Char → Option (Option (List Char) × List Char)
  | '#' :: cs => some (none, '#' :: cs)
  | '\'' :: cs =>
    let (name, rest) := cs.span (· != '\'')
    if name.isEmpty then none
    else match rest with
      | _ :: rest => some (some name, rest)
      | [] => none
  | cs =>
    let (name, rest) := cs.span fun c => c != '=' && c != '#' && !isBlank c
    if name.isEmpty then none else some (some name, rest)

/-- Whether a line may end here: only blanks and a comment follow. -/
def endsLine (cs : List Char) : Bool :=
  match cs.dropWhile isSpace with
  | [] => true
  | c :: _ => c == '#' || isLineEnd c

/-- A variable that is set, or named without a value. -/
abbrev Setting := String × Option String

/-- The value behind a name, if there is an equals sign, and what follows it. -/
def takeAssigned? : List Char → Option (Option (List Char) × List Char)
  | '=' :: cs => (takeValue? (cs.dropWhile isSpace)).map fun (v, r) => (some v, r)
  | cs => some (none, cs)

/-- Reads one line that is not blank: a variable, if it sets one, and the lines after it. A line
that does not fit is given up where it stops to fit, which may be behind a value of several
lines. -/
def readLine (cs : List Char) : Option Setting × List Char :=
  match takeName? (dropExport cs) with
  | none => (none, nextLine cs)
  | some (name, rest) =>
    match takeAssigned? (rest.dropWhile isSpace) with
    | none => (none, nextLine rest)
    | some (value, rest) =>
      (if endsLine rest then name.map fun n => (String.ofList n, value.map String.ofList) else none,
        nextLine rest)

/-- Reads lines; the fuel bounds their number. -/
def readLines : Nat → List Char → List Setting
  | 0, _ => []
  | fuel + 1, cs =>
    match cs.dropWhile isBlank with
    | [] => []
    | cs =>
      let (setting, rest) := readLine cs
      setting.toList ++ readLines fuel rest

/-- The text of a variable among those that are known; one without a value is empty. -/
def known (env : List Setting) (name fallback : List Char) : List Char :=
  match env.reverse.lookup (String.ofList name) with
  | some value => (value.getD "").toList
  | none => fallback

/-- Replaces references to variables; the fuel bounds the length of the text. -/
def resolve (env : List Setting) : Nat → List Char → List Char
  | fuel + 1, '$' :: '\x7b' :: cs =>
    let (inside, rest) := cs.span (· != '\x7d')
    let (name, more) := inside.span (· != ':')
    match rest, more with
    | _ :: rest, [] => known env name [] ++ resolve env fuel rest
    | _ :: rest, ':' :: '-' :: fallback => known env name fallback ++ resolve env fuel rest
    | _, _ => '$' :: '\x7b' :: resolve env fuel cs
  | fuel + 1, c :: cs => c :: resolve env fuel cs
  | _, cs => cs

/-- Resolves the references in variables one after another; each sees those before it. -/
def resolveAll (env : List Setting) : List Setting → List Setting
  | [] => []
  | (name, value) :: rest =>
    let value := value.map fun v => String.ofList (resolve env (v.length + 1) v.toList)
    (name, value) :: resolveAll (env ++ [(name, value)]) rest

/-- A text whose lines all end in the same way. -/
def evenLines : List Char → List Char
  | '\r' :: '\n' :: cs => '\n' :: evenLines cs
  | '\r' :: cs => '\n' :: evenLines cs
  | c :: cs => c :: evenLines cs
  | [] => []

/-- The variables that a file sets, given those of the environment. -/
def read (env : List (String × String)) (content : String) : List Setting :=
  let set := readLines (content.length + 1) (evenLines content.toList)
  resolveAll (env.map fun (k, v) => (k, some v)) set

end EnvFile

end Conductor
