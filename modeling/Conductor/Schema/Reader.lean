import Conductor.Datum
import Conductor.Schema.Fault
import Conductor.Text.Numeral

/-!
# Readers

A reader turns data into a value of a type, or finds faults in it. Readers are lenient where nothing
is lost: a numeral stands for its number, a whole floating-point number for an integer, and a few
words for the truth values.
-/

namespace Conductor

namespace Schema

/-- Turns data into a value of a type. -/
abbrev Reader (α : Type) := Datum → Checked α

/-! ## Numerals -/

/-- The most characters of an integer numeral. -/
def numeralLimit : Nat := 4300

/-- An integer numeral: digits with single underscores between them, and no fraction but zeros. -/
def looseInteger? (cs : List Char) : Option Int :=
  let (minus, body) := Text.takeSign cs
  let whole := body.takeWhile (· != '.')
  let fraction := (body.dropWhile (· != '.')).drop 1
  match Text.dropGroups? ' ' whole with
  | none => none
  | some ds =>
    if ds.isEmpty || !ds.all Char.isDigit || !fraction.all (· == '0') then none
    else
      let n := Text.digitsValue ds
      some (if minus then -(n : Int) else n)

/-- Reads an integer numeral. -/
def readInteger (s : String) : Checked Int :=
  let cs := Text.trim s.toList
  if numeralLimit < (String.ofList cs).utf8ByteSize then .broken .integerTooLong
  else match looseInteger? cs with
    | some i => .ok i
    | none => .broken .integerNumeral

/-- Whether two neighbours in a text are underscores. -/
def hasDoubleUnderscore : List Char → Bool
  | a :: b :: rest => (a == '_' && b == '_') || hasDoubleUnderscore (b :: rest)
  | _ => false

/-- A text without its underscores, if it has any, and all of them are single and inside. -/
def dropUnderscores? (cs : List Char) : Option (List Char) :=
  if cs.head? == some '_' || cs.getLast? == some '_' || hasDoubleUnderscore cs || !cs.contains '_'
  then none
  else some (cs.filter (· != '_'))

/-- Reads a floating-point numeral. -/
def readNumeral (s : String) : Checked Binary64 :=
  match Text.readDecimal? (Text.trim s.toList) with
  | some x => .ok x
  | none =>
    match (dropUnderscores? s.toList).bind Text.readDecimal? with
    | some x => .ok x
    | none => .broken .numberNumeral

/-! ## Plain types -/

/-- Anything at all. -/
def anything : Reader Datum := .ok

/-- A text. -/
def text : Reader String
  | .text s => .ok s
  | .symbol y => .ok y.value
  | _ => .broken .text

/-- An integer, or something that stands for one. -/
def integer : Reader Int
  | .bool b => .ok (if b then 1 else 0)
  | .int i => .ok i
  | .float x =>
    if !x.isFinite then .broken .finite
    else if x.isWhole then .ok x.truncate
    else .broken .integerFraction
  | .text s => readInteger s
  | _ => .broken .integer

/-- A number, or something that stands for one. -/
def number : Reader Binary64
  | .bool b => .ok (if b then Binary64.one else Binary64.zero)
  | .int i =>
    match Binary64.ofInt? i with
    | some x => .ok x
    | none => .broken .number
  | .float x => .ok x
  | .text s => readNumeral s
  | _ => .broken .number

/-- The words for the truth values, in lower case. -/
def truthWords : List (String × Bool) :=
  [("0", false), ("off", false), ("f", false), ("false", false), ("n", false), ("no", false),
    ("1", true), ("on", true), ("t", true), ("true", true), ("y", true), ("yes", true)]

/-- A truth value as zero or one. -/
def bit : Int → Checked Bool
  | 0 => .ok false
  | 1 => .ok true
  | _ => .broken .truthWord

/-- A truth value, or something that stands for one. -/
def truth : Reader Bool
  | .bool b => .ok b
  | .text s =>
    match truthWords.lookup (String.ofList (s.toList.map Char.toLower)) with
    | some b => .ok b
    | none => .broken .truthWord
  | .int i => if (Binary64.ofInt? i).isSome then bit i else .broken .truth
  | .float x => if x.isFinite && x.isWhole then bit x.truncate else .broken .truth
  | _ => .broken .truth

/-! ## Compound types -/

section
variable {α : Type}

/-- Nothing, or what another reader gives. -/
def optional (r : Reader α) : Reader (Option α)
  | .null => .ok none
  | d => (r d).map some

/-- Reads items one after another, under their positions. -/
def readItems (r : Reader α) : Nat → List Datum → Checked (List α)
  | _, [] => .ok []
  | n, d :: ds =>
    .part ((Checked.within (toString n) (r d)).map List.cons) (readItems r (n + 1) ds)

/-- A list. -/
def list (r : Reader α) : Reader (List α)
  | .list ds | .tuple ds => readItems r 0 ds
  | _ => .broken .list

/-- Reads entries one after another, under their keys. -/
def readEntries (r : Reader α) : List (String × Datum) → Checked (List (String × α))
  | [] => .ok []
  | (k, d) :: es =>
    .part ((Checked.within k (r d)).map fun a rest => (k, a) :: rest) (readEntries r es)

/-- A dictionary. -/
def dictionary (r : Reader α) : Reader (List (String × α))
  | .dict es => readEntries r es
  | _ => .broken .dictionary

/-- One of several values, given by their texts. -/
def choice (isNamed : Bool) (options : List (String × α)) : Reader α
  | .text s =>
    match options.lookup s with
    | some a => .ok a
    | none => .broken (.choice isNamed (options.map Prod.fst))
  | _ => .broken (.choice isNamed (options.map Prod.fst))

/-- Checks a rule on what another reader gives. -/
def restrict (r : Reader α) (isMet : α → Bool) (rule : Rule) : Reader α := fun d =>
  match r d with
  | .ok a => if isMet a then .ok a else .broken rule
  | .error fs => .error fs

end

/-! ## Bounds -/

/-- A number of at most a given bound. -/
def atMost (bound : Nat) (r : Reader Binary64) : Reader Binary64 :=
  restrict r (fun x => x.le (Binary64.ofNat bound)) (.atMost bound)

/-- A number of at least a given bound. -/
def atLeast (bound : Nat) (r : Reader Binary64) : Reader Binary64 :=
  restrict r (fun x => (Binary64.ofNat bound).le x) (.atLeast bound)

/-- A number from zero to one. -/
def fraction : Reader Binary64 := atLeast 0 (atMost 1 number)

/-- A positive integer; `rule` says how its bound is worded. -/
def positive (rule : Rule) : Reader { n : Nat // 0 < n } := fun d =>
  match integer d with
  | .ok i => if h : 0 < i then .ok ⟨i.toNat, by omega⟩ else .broken rule
  | .error fs => .error fs

/-! ## Models -/

section
variable {α : Type}

/-- The entries of a dictionary that is to become a model. -/
def model (name : String) (read : List (String × Datum) → Checked α) : Reader α
  | .dict es => read es
  | _ => .broken (.model name)

/-- A field that has to be there. -/
def required (name : String) (r : Reader α) (es : List (String × Datum)) : Checked α :=
  match es.lookup name with
  | some d => Checked.within name (r d)
  | none => Checked.within name (.broken .missing)

/-- A field with a default. -/
def field (name : String) (r : Reader α) (default : α) (es : List (String × Datum)) :
    Checked α :=
  match es.lookup name with
  | some d => Checked.within name (r d)
  | none => .ok default

end

end Schema

end Conductor
