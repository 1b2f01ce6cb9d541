import Conductor.Binary64.Basic

/-!
# Arithmetic of floating-point numbers

Each operation computes the exact result in units of the smallest positive number and rounds it
once. Sums and products of finite numbers are finite or overflow to an infinity; the cases with
an infinity or `nan` are listed in front.
-/

namespace Conductor.Binary64

/-- A sum of signed units; an exact zero is positive unless both terms are negative. -/
def ofSum (bothNegative : Bool) (total : Int) : Binary64 :=
  if total = 0 then (if bothNegative then neg zero else zero)
  else ofUnits (decide (total < 0)) total.natAbs 1

/-- The sum, rounded once. -/
def add : Binary64 → Binary64 → Binary64
  | .nan, _ => .nan
  | _, .nan => .nan
  | .infinite s, .infinite t => if s = t then .infinite s else .nan
  | .infinite s, .finite _ _ => .infinite s
  | .finite _ _, .infinite t => .infinite t
  | .finite s k, .finite t l => ofSum (s && t) (signed s (units k) + signed t (units l))

/-- The product, rounded once. -/
def mul : Binary64 → Binary64 → Binary64
  | .nan, _ => .nan
  | _, .nan => .nan
  | .infinite s, .infinite t => .infinite (s != t)
  | .infinite s, .finite t l => if l.val = 0 then .nan else .infinite (s != t)
  | .finite s k, .infinite t => if k.val = 0 then .nan else .infinite (s != t)
  | .finite s k, .finite t l => ofUnits (s != t) (units k * units l) unitsOfOne

/-- The quotient, rounded once. Callers keep zero out of the divisor; here it gives `nan`. -/
def div : Binary64 → Binary64 → Binary64
  | .nan, _ => .nan
  | _, .nan => .nan
  | .infinite _, .infinite _ => .nan
  | .infinite s, .finite t _ => .infinite (s != t)
  | .finite s _, .infinite t => if s != t then neg zero else zero
  | .finite s k, .finite t l =>
    if l.val = 0 then .nan else ofUnits (s != t) (units k * unitsOfOne) (units l)

/-- The power with a natural exponent: the exact power rounded once, or nothing if a finite base
leaves the finite numbers. Every base has the power one at exponent zero. -/
def pow? (x : Binary64) (n : Nat) : Option Binary64 :=
  if n = 0 then some one
  else match x with
    | .nan => some .nan
    | .infinite s => some (.infinite (s && n % 2 == 1))
    | .finite s k =>
      match ofUnits (s && n % 2 == 1) (Nat.pow (units k) n) (Nat.pow unitsOfOne (n - 1)) with
      | .infinite _ => none
      | y => some y

/-- The sum of a list from left to right, rounded at each step, starting at the positive zero. -/
def sum (xs : List Binary64) : Binary64 := xs.foldl add zero

end Conductor.Binary64
