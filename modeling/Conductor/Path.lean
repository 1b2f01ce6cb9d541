import Conductor.Store.Attribute
import Conductor.Text.Numeral

/-!
# Paths

A path is a text of segments with dots between them. Reading follows one segment after another: a
key of a mapping, a position in a row of values, or an attribute of an object. A segment that leads
nowhere gives nothing, and so does everything behind it.

Writing goes through dictionaries only. It creates those that are missing and keeps everything
beside the path; a segment that holds anything else stops it before a single cell is written.
-/

namespace Conductor

namespace Path

/-- Splits a list of characters at every dot. -/
def splitDots : List Char → List (List Char)
  | [] => [[]]
  | c :: cs =>
    if c = '.' then [] :: splitDots cs
    else match splitDots cs with
      | [] => [[c]]
      | p :: ps => (c :: p) :: ps

/-- The segments of a path; there is always at least one. -/
def segments (path : String) : List String := (splitDots path.toList).map String.ofList

/-- Where paths into the results of other steps begin. -/
def stepsStart : String := "steps."

/-- Whether a text is a path into the results of other steps. -/
def isStepReference (source : String) : Bool :=
  source.toList.take stepsStart.length == stepsStart.toList

/-- Whether a key asks for a position: digits, with any number of dashes in front. -/
def isPosition (key : String) : Bool :=
  let digits := key.toList.dropWhile (· == '-')
  !digits.isEmpty && digits.all Text.isDigit

/-- The most characters of a numeral that are shown when it cannot be read. -/
def shownLimit : Nat := 200

/-- The position that a key asks for. -/
def position (key : String) : Except Cause Int :=
  match Text.readInteger key with
  | .ok i => .ok i
  | .error .malformed =>
    .error (.badInteger (String.ofList ((Text.quoted key).toList.take shownLimit)))
  | .error (.tooLong n) => .error (.longInteger n)

/-- The value at a position, counted from the end if negative; nothing outside the row. -/
def element (xs : List Value) (i : Int) : Value :=
  if 0 ≤ i then xs.getD i.toNat .null
  else if -(xs.length : Int) ≤ i then xs.getD (i + xs.length).toNat .null
  else .null

end Path

namespace Store

/-- What one segment finds in a value. -/
def lookup (s : Store) (v : Value) (key : String) : Except Cause Value :=
  match s.mapping? v with
  | some es => .ok ((Entries.get? es key).getD .null)
  | none =>
    match s.row? v with
    | some xs =>
      if Path.isPosition key then (Path.position key).map (Path.element xs) else .ok .null
    | none => .ok (s.attributeOf v key)

/-- What a row of segments finds in a value. -/
def follow (s : Store) (v : Value) : List String → Except Cause Value
  | [] => .ok v
  | key :: keys =>
    if v.isNull then .ok .null
    else do
      let w ← s.lookup v key
      s.follow w keys

/-- What a path finds in a value. -/
def getPath (s : Store) (v : Value) (path : String) : Except Cause Value :=
  s.follow v (Path.segments path)

/-- Writes a value behind a row of segments, having walked some of the path. -/
def writeAlong (s : Store) (path : String) (node : Ref .dict) (walked : List String) (v : Value) :
    List String → Except Cause Store
  | [] => .ok s
  | [leaf] => .ok (s.insert node leaf v)
  | key :: keys =>
    let walked := walked ++ [key]
    match (Entries.get? (s.get node) key).getD .null with
    | .null =>
      let (child, s) := s.newDict []
      writeAlong (s.insert node key (.dict child)) path child walked v keys
    | .dict child => writeAlong s path child walked v keys
    | other => .error (.blockedPath path (String.intercalate "." walked) (s.kindName other))

/-- Writes a value at a path in a dictionary. -/
def setPath (s : Store) (target : Ref .dict) (path : String) (v : Value) : Except Cause Store :=
  writeAlong s path target [] v (Path.segments path)

end Store

end Conductor
