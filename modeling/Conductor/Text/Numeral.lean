import Conductor.Binary64.Decimal
import Conductor.Text.Digit

/-!
# Reading numerals

An integer is an optional sign and decimal digits of any script, with blanks allowed around it
and single underscores between digits; a numeral of more than `digitLimit` digits is refused
before it is read. A floating-point numeral has an optional fraction and exponent, or is one of the
words for infinity and not-a-number in any case.
-/

namespace Conductor.Text

/-- The most digits that an integer numeral may have. -/
def digitLimit : Nat := 4300

/-- Why a text is not an integer. -/
inductive NumeralError where
  | malformed
  | tooLong (digits : Nat)
  deriving DecidableEq, Repr

/-- Writes decimal digits of any script as ASCII digits and blanks as spaces. -/
def plainChar (c : Char) : Char :=
  match decimalValue? c with
  | some d => Char.ofNat ('0'.toNat + d)
  | none => if isBlank c then ' ' else c

/-- The value of a list of ASCII digits. -/
def digitsValue (cs : List Char) : Nat :=
  cs.foldl (fun n c => 10 * n + (c.toNat - '0'.toNat)) 0

/-- Splits off an optional sign; true means minus. -/
def takeSign : List Char → Bool × List Char
  | '-' :: cs => (true, cs)
  | '+' :: cs => (false, cs)
  | cs => (false, cs)

/-- Removes the underscores of a numeral if each stands between two digits. -/
def dropGroups? (previous : Char) : List Char → Option (List Char)
  | [] => if previous == '_' then none else some []
  | c :: cs =>
    if c == '_' then (if previous.isDigit then dropGroups? c cs else none)
    else if previous == '_' && !c.isDigit then none
    else (dropGroups? c cs).map (c :: ·)

/-- Reads an integer. -/
def readInteger (s : String) : Except NumeralError Int :=
  let (minus, body) := takeSign (trim (s.toList.map plainChar))
  let run := body.takeWhile fun c => c.isDigit || c == '_'
  match dropGroups? ' ' run with
  | none => .error .malformed
  | some ds =>
    if ds.length > digitLimit then .error (.tooLong ds.length)
    else if ds.isEmpty || run.length < body.length then .error .malformed
    else
      let n := digitsValue ds
      .ok (if minus then -(n : Int) else n)

/-! ## Floating-point numerals -/

/-- The exponent part of a numeral: nothing, or a mark and an integer up to the end. -/
def readExponent? : List Char → Option Int
  | [] => some 0
  | e :: cs =>
    if e == 'e' || e == 'E' then
      let (minus, ds) := takeSign cs
      if ds.isEmpty || !ds.all Char.isDigit then none
      else some (if minus then -(digitsValue ds : Int) else digitsValue ds)
    else none

/-- A fraction part: nothing, or a point and the digits after it; with what follows. -/
def takeFraction : List Char → List Char × List Char
  | '.' :: cs => cs.span Char.isDigit
  | cs => ([], cs)

/-- Reads an unsigned decimal numeral in ASCII digits. -/
def readUnsigned? (minus : Bool) (cs : List Char) : Option Binary64 :=
  let (whole, rest) := cs.span Char.isDigit
  let (fraction, tail) := takeFraction rest
  if whole.isEmpty && fraction.isEmpty then none
  else (readExponent? tail).map fun e =>
    Binary64.ofDecimal minus (digitsValue (whole ++ fraction)) (e - fraction.length)

/-- Reads a floating-point numeral in ASCII, without blanks and underscores. -/
def readDecimal? (cs : List Char) : Option Binary64 :=
  let (minus, body) := takeSign cs
  match String.ofList (body.map Char.toLower) with
  | "inf" | "infinity" => some (.infinite minus)
  | "nan" => some .nan
  | _ => readUnsigned? minus body

/-- Reads a floating-point numeral: digits of any script, blanks around it, and underscores between
digits. -/
def readFloat? (s : String) : Option Binary64 :=
  (dropGroups? ' ' (trim (s.toList.map plainChar))).bind readDecimal?

end Conductor.Text
