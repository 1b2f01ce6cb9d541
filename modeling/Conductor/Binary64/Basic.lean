/-!
# Binary floating-point numbers of 64 bits

A finite number is a sign and a *rank*: its position among the non-negative finite numbers in
increasing order. Rank 0 is zero, ranks below `2 ^ 52` are the subnormal numbers, and every
further block of `2 ^ 52` ranks is one binary exponent. So every finite number has exactly one
representation, and the order of the numbers is the order of the ranks.

All finite numbers are whole multiples of the smallest one. `units` is that multiple, a natural
number, and with it every operation is exact integer arithmetic followed by one rounding
(`roundRank`): to the nearest rank, and a tie to the even one.
-/

namespace Conductor

/-- How many non-negative finite numbers there are: 2047 exponents with `2 ^ 52` fractions. -/
def Binary64.finiteCount : Nat := 2047 * Nat.pow 2 52

/-- A floating-point number: not a number, an infinity, or a finite number given by its rank. -/
inductive Binary64 where
  | nan
  | infinite (negative : Bool)
  | finite (negative : Bool) (rank : Fin Binary64.finiteCount)
  deriving DecidableEq, Repr

namespace Binary64

/-! ## Ranks and units -/

/-- The magnitude of rank `k` as a multiple of the smallest positive number. -/
def units (k : Nat) : Nat :=
  if k < Nat.pow 2 52 then k
  else (Nat.pow 2 52 + k % Nat.pow 2 52) * Nat.pow 2 (k / Nat.pow 2 52 - 1)

/-- One as a multiple of the smallest positive number. -/
def unitsOfOne : Nat := Nat.pow 2 1074

/-- The greatest rank whose magnitude is at most `u` units. -/
def rankBelow (u : Nat) : Nat :=
  if u < Nat.pow 2 52 then u
  else
    let shift := u.log2 - 52
    (shift + 1) * Nat.pow 2 52 + (u / Nat.pow 2 shift - Nat.pow 2 52)

/-- The rank nearest to `num / den` units; of two equally near ranks the even one. -/
def roundRank (num den : Nat) : Nat :=
  let k := rankBelow (num / den)
  let middle := (units k + units (k + 1)) * den
  if 2 * num < middle then k
  else if 2 * num = middle then k + k % 2
  else k + 1

/-- The number nearest to `num / den` units; beyond the largest finite number, an infinity. -/
def ofUnits (negative : Bool) (num den : Nat) : Binary64 :=
  let k := roundRank num den
  if h : k < finiteCount then .finite negative ⟨k, h⟩ else .infinite negative

/-! ## Zero, one and whole numbers -/

/-- The positive zero. -/
def zero : Binary64 := .finite false ⟨0, by decide⟩

/-- The number one. -/
def one : Binary64 := .finite false ⟨1023 * Nat.pow 2 52, by decide⟩

instance : Inhabited Binary64 := ⟨zero⟩

/-- The number nearest to an integer, or nothing if that is beyond the largest finite number. -/
def ofInt? (i : Int) : Option Binary64 :=
  match ofUnits (decide (i < 0)) (i.natAbs * unitsOfOne) 1 with
  | .infinite _ => none
  | x => some x

/-- A natural number that is small enough, rounded. -/
def ofNat (n : Nat) : Binary64 := ofUnits false (n * unitsOfOne) 1

/-! ## Sign and order -/

/-- The number with its sign changed. -/
def neg : Binary64 → Binary64
  | .nan => .nan
  | .infinite s => .infinite (!s)
  | .finite s k => .finite (!s) k

/-- Whether the number carries a minus sign; no sign is seen on `nan`. -/
def isNegative : Binary64 → Bool
  | .nan => false
  | .infinite s => s
  | .finite s _ => s

/-- Whether the number is a positive or negative zero. -/
def isZero : Binary64 → Bool
  | .finite _ k => k.val == 0
  | _ => false

/-- A magnitude with its sign, as an integer. -/
def signed (negative : Bool) (magnitude : Nat) : Int :=
  if negative then -(magnitude : Int) else magnitude

/-- The place of a number on the integer line of units; the infinities lie just outside the
finite numbers, and `nan` has no place. -/
def place : Binary64 → Option Int
  | .nan => none
  | .infinite s => some (signed s (units finiteCount))
  | .finite s k => some (signed s (units k))

/-- Strictly less; false as soon as one side is `nan`. -/
def lt (a b : Binary64) : Bool :=
  match a.place, b.place with
  | some x, some y => decide (x < y)
  | _, _ => false

/-- Less or equal; false as soon as one side is `nan`. -/
def le (a b : Binary64) : Bool :=
  match a.place, b.place with
  | some x, some y => decide (x ≤ y)
  | _, _ => false

/-- Equality of numbers: the two zeros are equal, and `nan` equals nothing. -/
def eqv (a b : Binary64) : Bool :=
  match a.place, b.place with
  | some x, some y => decide (x = y)
  | _, _ => false

/-- Whether the number equals the integer `i`. -/
def eqInt (a : Binary64) (i : Int) : Bool :=
  match a with
  | .finite s k => decide (signed s (units k) = i * unitsOfOne)
  | _ => false

/-- The smaller of two numbers, the first unless the second is strictly less. -/
def min (a b : Binary64) : Binary64 := if b.lt a then b else a

/-- The greater of two numbers, the first unless the second is strictly greater. -/
def max (a b : Binary64) : Binary64 := if a.lt b then b else a

/-! ## Back to integers -/

/-- The integer part, toward zero; 0 for what is not finite. -/
def truncate : Binary64 → Int
  | .finite s k => signed s (units k / unitsOfOne)
  | _ => 0

/-- Whether the number is finite and has no fraction. -/
def isWhole : Binary64 → Bool
  | .finite _ k => units k % unitsOfOne == 0
  | _ => false

/-- Whether the number is neither infinite nor `nan`. -/
def isFinite : Binary64 → Bool
  | .finite _ _ => true
  | _ => false

/-- A quotient of natural numbers rounded to the nearest integer, a half to the even one. -/
def roundHalfEven (num den : Nat) : Nat :=
  let q := num / den
  let r := num % den
  if 2 * r < den then q
  else if 2 * r = den then q + q % 2
  else q + 1

end Binary64

end Conductor
