import Conductor.Datum
import Conductor.Text.Numeral

/-!
# Writing JSON

A datum on one line, with a blank after every comma and colon. Texts are written with the characters
that they hold; only quotes, backslashes and control characters are escaped, so the result has no
line break. Numbers that are not finite are written as bare words, and data that JSON has no form
for as the text that shows them. An integer with too many digits is not written at all, wherever it
stands.
-/

namespace Conductor.Json

/-- Floating-point numbers in JSON. -/
def numbers : Binary64.Spelling := { Binary64.plain with nan := "NaN", infinity := "Infinity" }

/-- A character inside a JSON text. -/
def escape (c : Char) : List Char :=
  if c == '"' then ['\\', '"']
  else if c == '\\' then ['\\', '\\']
  else if c == '\n' then ['\\', 'n']
  else if c == '\r' then ['\\', 'r']
  else if c == '\t' then ['\\', 't']
  else if c.toNat == 8 then ['\\', 'b']
  else if c.toNat == 12 then ['\\', 'f']
  else if c.toNat < 0x20 then '\\' :: 'u' :: Text.hex 4 c.toNat
  else [c]

/-- A JSON text. -/
def writeText (s : String) : String :=
  String.ofList ('"' :: s.toList.flatMap escape ++ ['"'])

mutual

/-- The JSON form of a datum. -/
def write : Datum → String
  | .null => "null"
  | .bool b => if b then "true" else "false"
  | .int i => toString i
  | .float x => x.text numbers
  | .text s => writeText s
  | .list xs | .tuple xs => "[" ++ Datum.joined ", " (writeItems xs) ++ "]"
  | .dict es => "\x7b" ++ Datum.joined ", " (writeEntries es) ++ "\x7d"
  | .symbol s => writeText s.value
  | .results es => writeText (Datum.repr (.results es))
  | .record k fs => writeText (Datum.repr (.record k fs))
  | .failure k t => writeText (Datum.repr (.failure k t))
  | .foreign t => writeText t
  | .entity e => writeText (Datum.entityText e)

/-- The JSON forms of a list of data. -/
def writeItems : List Datum → List String
  | [] => []
  | x :: xs => write x :: writeItems xs

/-- The JSON forms of dictionary entries. -/
def writeEntries : List (String × Datum) → List String
  | [] => []
  | (k, v) :: es => (writeText k ++ ": " ++ write v) :: writeEntries es

end

/-! ## Long integers -/

/-- Whether an integer has more digits than may be written. -/
def isLong (i : Int) : Bool := Nat.pow 10 Text.digitLimit ≤ i.natAbs

mutual

/-- Whether there is an integer in a datum that has too many digits. -/
def hasLong : Datum → Bool
  | .int i => isLong i
  | .list xs | .tuple xs => hasLongItem xs
  | .dict es | .results es | .record _ es => hasLongEntry es
  | _ => false

/-- Whether there is such an integer in a list of data. -/
def hasLongItem : List Datum → Bool
  | [] => false
  | x :: xs => hasLong x || hasLongItem xs

/-- Whether there is such an integer in entries. -/
def hasLongEntry : List (String × Datum) → Bool
  | [] => false
  | (_, x) :: es => hasLong x || hasLongEntry es

end

/-- What is wrong with an integer that has too many digits. -/
def longText : String :=
  "Exceeds the limit (4300 digits) for integer string conversion; " ++
    "use sys.set_int_max_str_digits() to increase the limit"

/-- The JSON form of a datum, if it can be written. -/
def dump (d : Datum) : Except Cause String :=
  if hasLong d then .error (.raised .badValue longText) else .ok (write d)

end Conductor.Json
