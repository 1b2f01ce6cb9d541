import Conductor.Datum
import Conductor.Entries
import Conductor.Text.Numeral

/-!
# Reading JSON

Integers and floating-point numbers are kept apart: a number with a fraction or an exponent is a
floating-point number, any other an integer of any size. The words for numbers that are not finite
are accepted, and of several values under one key the last is kept.

The reader works on a list of characters and returns what it has not read. Nested values are read
with a fuel that the length of the text bounds, since every value takes at least one character.
-/

namespace Conductor.Json

/-! ## Texts -/

/-- The value of a hexadecimal digit. -/
def hexValue? (c : Char) : Option Nat :=
  if c.isDigit then some (c.toNat - '0'.toNat)
  else if 'a' ≤ c && c ≤ 'f' then some (c.toNat - 'a'.toNat + 10)
  else if 'A' ≤ c && c ≤ 'F' then some (c.toNat - 'A'.toNat + 10)
  else none

/-- A code of four hexadecimal digits. -/
def code? (a b c d : Char) : Option Nat := do
  let a ← hexValue? a
  let b ← hexValue? b
  let c ← hexValue? c
  let d ← hexValue? d
  some (((a * 16 + b) * 16 + c) * 16 + d)

/-- The character of a short escape. -/
def shortEscape? : Char → Option Char
  | '"' => some '"'
  | '\\' => some '\\'
  | '/' => some '/'
  | 'b' => some (Char.ofNat 8)
  | 'f' => some (Char.ofNat 12)
  | 'n' => some '\n'
  | 'r' => some '\r'
  | 't' => some '\t'
  | _ => none

/-- Reads a text up to its closing quote, which is dropped. Two escapes that form a pair of
surrogates give one character; a lone surrogate is replaced. -/
def readText : List Char → Option (List Char × List Char)
  | [] => none
  | '"' :: cs => some ([], cs)
  | '\\' :: 'u' :: a :: b :: c :: d :: cs =>
    match code? a b c d with
    | none => none
    | some high =>
      let lone := (readText cs).map fun (t, rest) => (Char.ofNat 0xfffd :: t, rest)
      if 0xd800 ≤ high && high < 0xdc00 then
        match cs with
        | '\\' :: 'u' :: e :: f :: g :: h :: more =>
          match code? e f g h with
          | some low =>
            if 0xdc00 ≤ low && low < 0xe000 then
              (readText more).map fun (t, rest) =>
                (Char.ofNat (0x10000 + (high - 0xd800) * 0x400 + (low - 0xdc00)) :: t, rest)
            else lone
          | none => none
        | _ => lone
      else if 0xdc00 ≤ high && high < 0xe000 then lone
      else (readText cs).map fun (t, rest) => (Char.ofNat high :: t, rest)
  | '\\' :: c :: cs =>
    match shortEscape? c with
    | some e => (readText cs).map fun (t, rest) => (e :: t, rest)
    | none => none
  | c :: cs =>
    if c.toNat < 0x20 then none else (readText cs).map fun (t, rest) => (c :: t, rest)

/-! ## Numbers -/

/-- The whole part of a number: a zero, or digits that do not start with one. -/
def takeWhole? : List Char → Option (List Char × List Char)
  | '0' :: cs => some (['0'], cs)
  | cs =>
    let (ds, rest) := cs.span Char.isDigit
    if ds.isEmpty then none else some (ds, rest)

/-- The fraction of a number; a point without digits after it is not part of the number. -/
def takeFraction (cs : List Char) : Option (List Char) × List Char :=
  match cs with
  | '.' :: more =>
    let (ds, rest) := more.span Char.isDigit
    if ds.isEmpty then (none, cs) else (some ds, rest)
  | _ => (none, cs)

/-- The exponent of a number; a mark without digits after it is not part of the number. -/
def takeExponent (cs : List Char) : Option Int × List Char :=
  match cs with
  | e :: more =>
    if e == 'e' || e == 'E' then
      let (minus, digits) := Text.takeSign more
      let (ds, rest) := digits.span Char.isDigit
      if ds.isEmpty then (none, cs)
      else
        let n := Text.digitsValue ds
        (some (if minus then -(n : Int) else n), rest)
    else (none, cs)
  | [] => (none, cs)

/-- Reads an unsigned number. -/
def readNumber? (minus : Bool) (cs : List Char) : Option (Datum × List Char) :=
  (takeWhole? cs).map fun (whole, afterWhole) =>
    let (fraction, afterFraction) := takeFraction afterWhole
    let (exponent, rest) := takeExponent afterFraction
    match fraction, exponent with
    | none, none =>
      let n := Text.digitsValue whole
      (.int (if minus then -(n : Int) else n), rest)
    | _, _ =>
      let ds := fraction.getD []
      let digits := Text.digitsValue (whole ++ ds)
      (.float (Binary64.ofDecimal minus digits (exponent.getD 0 - ds.length)), rest)

/-! ## Values -/

/-- Drops the blanks between the parts of a value. -/
def skip (cs : List Char) : List Char :=
  cs.dropWhile fun c => c == ' ' || c == '\n' || c == '\t' || c == '\r'

/-- What follows a word at the front of a text. -/
def afterWord? (word : String) (cs : List Char) : Option (List Char) :=
  if cs.take word.length == word.toList then some (cs.drop word.length) else none

/-- The words that stand for values. -/
def words : List (String × Datum) :=
  [("null", .null), ("true", .bool true), ("false", .bool false), ("NaN", .float .nan),
    ("Infinity", .float (.infinite false)), ("-Infinity", .float (.infinite true))]

/-- Reads a word or a number. -/
def readLeaf (cs : List Char) : Option (Datum × List Char) :=
  match words.findSome? fun (word, d) => (afterWord? word cs).map (d, ·) with
  | some found => some found
  | none =>
    match cs with
    | '-' :: more => readNumber? true more
    | _ => readNumber? false cs

mutual

/-- Reads a value, with nesting bounded by the fuel. -/
def readValue : Nat → List Char → Option (Datum × List Char)
  | 0, _ => none
  | fuel + 1, cs =>
    match cs with
    | '"' :: more => (readText more).map fun (t, rest) => (.text (String.ofList t), rest)
    | '[' :: more =>
      match skip more with
      | ']' :: rest => some (.list [], rest)
      | body => (readItems fuel body).map fun (xs, rest) => (.list xs, rest)
    | '{' :: more =>
      match skip more with
      | '}' :: rest => some (.dict [], rest)
      | body => (readEntries fuel body).map fun (es, rest) => (.dict (Entries.ofList es), rest)
    | _ => readLeaf cs

/-- Reads the items of a list up to its closing bracket. -/
def readItems : Nat → List Char → Option (List Datum × List Char)
  | 0, _ => none
  | fuel + 1, cs => do
    let (x, rest) ← readValue fuel cs
    match skip rest with
    | ']' :: rest => some ([x], rest)
    | ',' :: rest =>
      let (xs, rest) ← readItems fuel (skip rest)
      some (x :: xs, rest)
    | _ => none

/-- Reads the entries of a dictionary up to its closing brace. -/
def readEntries : Nat → List Char → Option (List (String × Datum) × List Char)
  | 0, _ => none
  | fuel + 1, cs => do
    let '"' :: more := cs | none
    let (key, rest) ← readText more
    let ':' :: rest := skip rest | none
    let (v, rest) ← readValue fuel (skip rest)
    match skip rest with
    | '}' :: rest => some ([(String.ofList key, v)], rest)
    | ',' :: rest =>
      let (es, rest) ← readEntries fuel (skip rest)
      some ((String.ofList key, v) :: es, rest)
    | _ => none

end

/-- Reads a text that holds exactly one value. -/
def read (s : String) : Option Datum :=
  let cs := skip s.toList
  match readValue (2 * cs.length + 1) cs with
  | some (d, rest) => if (skip rest).isEmpty then some d else none
  | none => none

end Conductor.Json
