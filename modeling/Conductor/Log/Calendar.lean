import Conductor.Clock

/-!
# Calendar

Points in time on the Gregorian calendar in universal time. A point in time is given in microseconds
after the beginning of 1970; the days are counted in cycles of four hundred years that begin on the
first of March, so that a leap day is the last day of its year.
-/

namespace Conductor

namespace Calendar

/-- A point in time on the calendar. -/
structure Moment where
  year : Int
  month : Nat
  day : Nat
  hour : Nat
  minute : Nat
  second : Nat
  microsecond : Nat
  deriving DecidableEq, Repr

/-- The days from the first of March of the year zero to the beginning of 1970. -/
def epochDays : Int := 719468

/-- The days in a cycle of four hundred years. -/
def cycleDays : Int := 146097

/-- Year, month and day of a day counted from the beginning of 1970. -/
def dateOf (days : Int) : Int × Nat × Nat :=
  let shifted := days + epochDays
  let cycle := shifted.fdiv cycleDays
  let d := (shifted - cycle * cycleDays).toNat
  let y := (d - d / 1460 + d / 36524 - d / 146096) / 365
  let inYear := d - (365 * y + y / 4 - y / 100)
  let m := (5 * inYear + 2) / 153
  let day := inYear - (153 * m + 2) / 5 + 1
  let month := if m < 10 then m + 3 else m - 9
  (y + cycle * 400 + (if month ≤ 2 then 1 else 0), month, day)

/-- The point in time of a number of microseconds. -/
def ofMicroseconds (us : Int) : Moment :=
  let days := us.fdiv Clock.dayLength
  let rest := (us - days * Clock.dayLength).toNat
  let (year, month, day) := dateOf days
  ⟨year, month, day, rest / 3600000000, rest / 60000000 % 60, rest / 1000000 % 60,
    rest % 1000000⟩

/-- A number with at least a given count of digits. -/
def padded (count n : Nat) : String :=
  let ds := Nat.toDigits 10 n
  String.ofList (List.replicate (count - ds.length) '0' ++ ds)

namespace Moment

/-- The date. -/
def date (m : Moment) : String :=
  padded 4 m.year.toNat ++ "-" ++ padded 2 m.month ++ "-" ++ padded 2 m.day

/-- The time of day in whole seconds. -/
def time (m : Moment) : String :=
  padded 2 m.hour ++ ":" ++ padded 2 m.minute ++ ":" ++ padded 2 m.second

/-- Date and time with the offset from universal time. Microseconds are left out if there are
none. -/
def text (m : Moment) : String :=
  let fraction := if m.microsecond = 0 then "" else "." ++ padded 6 m.microsecond
  m.date ++ "T" ++ m.time ++ fraction ++ "+00:00"

/-- Date and time in whole seconds. -/
def plainText (m : Moment) : String := m.date ++ " " ++ m.time

end Moment

/-- What is wrong with a time that no machine word holds. -/
def wordText : String := "timestamp out of range for platform time_t"

/-- What is wrong with a time whose year no machine word holds. -/
def yearText : String := "[Errno 75] Value too large for defined data type"

/-- The point in time after a number of seconds. The seconds have to fit into a word of 64 bits, the
years after 1900 into one of 32, and the calendar has the years from 1 to 9999. -/
def ofSeconds (x : Binary64) : Except Cause Moment :=
  match x with
  | .nan => .error (.raised .badValue "Invalid value NaN (not a number)")
  | .infinite _ => .error (.raised .overflow wordText)
  | .finite .. =>
    let us := x.toMicroseconds
    let seconds := us.fdiv 1000000
    let moment := ofMicroseconds us
    let year := moment.year
    if seconds < -Int.pow 2 63 || Int.pow 2 63 ≤ seconds then .error (.raised .overflow wordText)
    else if year - 1900 < -Int.pow 2 31 || Int.pow 2 31 ≤ year - 1900 then
      .error (.raised .system yearText)
    else if year < 1 || 9999 < year then .error (.raised .badValue s!"year {year} is out of range")
    else .ok moment

/-- A number of seconds in microseconds, down to whole seconds. -/
def floorSeconds (x : Binary64) : Int :=
  let whole := x.truncate
  (if x.isNegative && !x.isWhole then whole - 1 else whole) * 1000000

end Calendar

end Conductor
