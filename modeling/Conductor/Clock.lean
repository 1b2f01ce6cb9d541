import Conductor.Store.Basic

/-!
# Time

The clock of a store counts seconds as a floating-point number. Points in time are kept in whole
microseconds, rounded with a half going to the even neighbour: the seconds and their fraction are
taken apart first, and the fraction is scaled with one rounding of its own.
-/

namespace Conductor

namespace Binary64

/-- A number of seconds in whole microseconds. -/
def toMicroseconds : Binary64 → Int
  | .finite s k =>
    let u := units k
    let whole := u / unitsOfOne * 1000000
    let fraction := roundHalfEven (units (roundRank (u % unitsOfOne * 1000000) 1)) unitsOfOne
    signed s (whole + fraction)
  | _ => 0

/-- A number of whole microseconds in seconds. -/
def ofMicroseconds (us : Int) : Binary64 :=
  ofUnits (decide (us < 0)) (us.natAbs * unitsOfOne) 1000000

end Binary64

namespace Clock

/-- The microseconds in a day. -/
def dayLength : Int := 86400000000

/-- The days from the beginning of the clock, which is that of the year 2024, to the end of the year
9999. -/
def calendarDays : Int := 2913174

/-- The most days of a span. -/
def longestSpan : Int := 999999999

/-- The point in time after a number of microseconds, if the calendar goes that far. -/
def moment (us : Int) : Except Cause Int :=
  let days := us / dayLength
  if days < calendarDays then .ok us
  else if days ≤ longestSpan then .error .dateTooLate
  else if days < Int.pow 2 31 then .error (.spanTooLong days)
  else .error (.exceedsWord false)

end Clock

namespace Store

/-- The time in microseconds after the beginning of the clock. The clock can run beyond the
calendar; then there is no such time. -/
def now (s : Store) : Except Cause Int :=
  match s.clock with
  | .nan => .error .timeUndefined
  | .infinite _ => .error .timeInfinite
  | x => Clock.moment x.toMicroseconds

end Store

namespace Context

/-- The whole milliseconds between start and end, toward zero; nothing while the run is not over. -/
def duration? (c : Context) : Option Int :=
  c.endTime.map fun e =>
    ((Binary64.ofMicroseconds (e - c.startTime)).mul (Binary64.ofNat 1000)).truncate

end Context

end Conductor
