import Conductor.Binary64.Basic

/-!
# Floating-point numbers and decimal text

Reading: `ofDecimal` gives the number nearest to `digits · 10 ^ exponent`.

Writing comes in two forms. `shortest` finds the fewest digits that read back as the same number
and, of those, the ones nearest to it: it walks through the grids of 1, 2, … 17 digits and takes
the first that has a point inside the interval of reals which round to the number. `fixed` writes
a given number of places after the point, exactly rounded.

How digits are laid out is data: `Spelling` holds the texts of the special numbers and the range
in which the point is written out.
-/

namespace Conductor.Binary64

/-! ## Digits -/

/-- The decimal digits of a natural number, most significant first. -/
def digitsOf (n : Nat) : List Char := Nat.toDigits 10 n

/-- How many decimal digits a natural number has; 1 for zero. -/
def digitCount (n : Nat) : Nat := (digitsOf n).length

/-! ## Reading -/

/-- The number nearest to `digits · 10 ^ exponent`. Exponents far outside the range of the format
are settled without computing the power. -/
def ofDecimal (negative : Bool) (digits : Nat) (exponent : Int) : Binary64 :=
  let reach := exponent + digitCount digits
  if digits = 0 then ofUnits negative 0 1
  else if reach > 400 then .infinite negative
  else if reach < -400 then ofUnits negative 0 1
  else if exponent ≥ 0 then ofUnits negative (digits * Nat.pow 10 exponent.toNat * unitsOfOne) 1
  else ofUnits negative (digits * unitsOfOne) (Nat.pow 10 (-exponent).toNat)

/-! ## Shortest digits -/

/-- The position of the decimal point of a positive magnitude: the `p` with
`10 ^ (p - 1) ≤ u / unitsOfOne < 10 ^ p`. -/
def pointPosition (u : Nat) : Int :=
  if u ≥ unitsOfOne then digitCount (u / unitsOfOne)
  else 1 - (digitCount ((unitsOfOne - 1) / u) : Int)

/-- The reals that round to rank `k`, as twice their units: from `low` to `high`, the ends
belonging to them when the rank is even. -/
structure Interval where
  low : Nat
  high : Nat
  closed : Bool

/-- The interval of reals that round to the rank `k`, for `k` positive. -/
def interval (k : Nat) : Interval :=
  ⟨units (k - 1) + units k, units k + units (k + 1), k % 2 == 0⟩

/-- Whether the decimal `digits · 10 ^ exponent` lies in an interval. -/
def Interval.holds (i : Interval) (digits : Nat) (exponent : Int) : Bool :=
  let point := 2 * digits * unitsOfOne * Nat.pow 10 exponent.toNat
  let scale := Nat.pow 10 (-exponent).toNat
  if i.closed then decide (i.low * scale ≤ point) && decide (point ≤ i.high * scale)
  else decide (i.low * scale < point) && decide (point < i.high * scale)

/-- The best decimal of `count` digits inside the interval of rank `k`, if there is one: of the two
grid points next to the number the nearer one, and the even one on a tie. -/
def onGrid? (k : Nat) (count : Nat) : Option (Nat × Int) :=
  let u := units k
  let exponent := pointPosition u - count
  let num := u * Nat.pow 10 (-exponent).toNat
  let den := unitsOfOne * Nat.pow 10 exponent.toNat
  let below := num / den
  let belowIn := (interval k).holds below exponent
  let aboveIn := (interval k).holds (below + 1) exponent
  if belowIn && aboveIn then some (roundHalfEven num den, exponent)
  else if belowIn then some (below, exponent)
  else if aboveIn then some (below + 1, exponent)
  else none

/-- The shortest decimal that reads back as the positive finite number of rank `k`, as digits and
an exponent of ten. Seventeen digits always suffice. -/
def shortest (k : Nat) : Nat × Int :=
  ((List.range 17).findSome? fun n => onGrid? k (n + 1)).getD (0, 0)

/-! ## Layout -/

/-- The texts of the numbers that have no digits, and the positions of the decimal point that are
written without an exponent. -/
structure Spelling where
  nan : String
  infinity : String
  leastPoint : Int
  mostPoint : Int

/-- Drops the zeros at the end of a digit list, moving them into the exponent. -/
def stripZeros (digits : List Char) : List Char :=
  (digits.reverse.dropWhile (· == '0')).reverse

/-- An exponent of ten with its sign and at least two digits. -/
def exponentText (e : Int) : List Char :=
  let ds := digitsOf e.natAbs
  (if e < 0 then '-' else '+') :: (if ds.length < 2 then '0' :: ds else ds)

/-- Lays out significant digits whose decimal point stands after `point` of them. -/
def layout (style : Spelling) (digits : List Char) (point : Int) : List Char :=
  if style.leastPoint ≤ point ∧ point ≤ style.mostPoint then
    if point ≤ 0 then
      '0' :: '.' :: List.replicate (-point).toNat '0' ++ digits
    else
      let whole := digits.take point.toNat
      let fraction := digits.drop point.toNat
      whole ++ List.replicate (point.toNat - digits.length) '0' ++
        '.' :: (if fraction.isEmpty then ['0'] else fraction)
  else
    let mantissa := match digits with
      | [] => ['0']
      | [d] => [d]
      | d :: ds => d :: '.' :: ds
    mantissa ++ 'e' :: exponentText (point - 1)

/-- The shortest text of a number in a given spelling. -/
def text (style : Spelling) : Binary64 → String
  | .nan => style.nan
  | .infinite s => (if s then "-" else "") ++ style.infinity
  | .finite s k =>
    let body :=
      if k.val = 0 then ['0', '.', '0']
      else
        let (digits, exponent) := shortest k
        let ds := digitsOf digits
        layout style (stripZeros ds) (ds.length + exponent)
    String.ofList (if s then '-' :: body else body)

/-- Numbers as they stand in messages: the point is written out for magnitudes from `0.0001` up to
below `10 ^ 16`, and one digit after the point is always kept. -/
def plain : Spelling := ⟨"nan", "inf", -3, 16⟩

/-- The text of a number in messages. -/
def toText (x : Binary64) : String := x.text plain

/-! ## Fixed places -/

/-- A number of tenth-powers written with `places` digits after the point. -/
def placed (scaled places : Nat) : List Char :=
  let ds := digitsOf scaled
  let padded := List.replicate (places + 1 - ds.length) '0' ++ ds
  let whole := padded.take (padded.length - places)
  if places = 0 then whole else whole ++ '.' :: padded.drop (padded.length - places)

/-- The number with `places` digits after the point, exactly rounded, a tie to the even digit. -/
def fixed (places : Nat) : Binary64 → String
  | .nan => "nan"
  | .infinite s => if s then "-inf" else "inf"
  | .finite s k =>
    let body := placed (roundHalfEven (units k * Nat.pow 10 places) unitsOfOne) places
    String.ofList (if s then '-' :: body else body)

/-! ## Significant digits -/

/-- The digits of a positive magnitude rounded to `count` significant ones, a tie to the even digit,
with the exponent of ten of the first of them. -/
def significant (u count : Nat) : Nat × Int :=
  let top := pointPosition u - 1
  let shift := (count : Int) - 1 - top
  let digits := roundHalfEven (u * Nat.pow 10 shift.toNat) (unitsOfOne * Nat.pow 10 (-shift).toNat)
  if Nat.pow 10 count ≤ digits then (digits / 10, top + 1) else (digits, top)

/-- The digits of a magnitude rounded to `count` significant ones, and the exponent of the first. -/
def significantDigits (u count : Nat) : List Char × Int :=
  if u = 0 then (List.replicate count '0', 0)
  else
    let (digits, top) := significant u count
    (digitsOf digits, top)

/-- Digits with a point behind the first of them and an exponent. -/
def withExponent (digits : List Char) (top : Int) : List Char :=
  let mantissa := match digits with
    | [] => ['0']
    | [d] => [d]
    | d :: ds => d :: '.' :: ds
  mantissa ++ 'e' :: exponentText top

/-- The magnitude with an exponent and `places` digits after the point. -/
def scientific (places u : Nat) : List Char :=
  let (digits, top) := significantDigits u (places + 1)
  withExponent digits top

/-- The magnitude with at most `count` significant digits, with an exponent only where the point
would stand far from the digits, and without zeros at the end unless they are kept. -/
def general (count : Nat) (keepsZeros : Bool) (u : Nat) : List Char :=
  let count := Nat.max count 1
  let (digits, top) := significantDigits u count
  let strip (ds : List Char) : List Char := if keepsZeros then ds else stripZeros ds
  if top < -4 || (count : Int) ≤ top then
    withExponent (digits.take 1 ++ strip (digits.drop 1)) top
  else if top < 0 then
    '0' :: '.' :: List.replicate (-top - 1).toNat '0' ++ strip digits
  else
    let whole := digits.take (top.toNat + 1)
    let fraction := strip (digits.drop (top.toNat + 1))
    if fraction.isEmpty then whole else whole ++ '.' :: fraction

end Conductor.Binary64
