import Conductor.Binary64.Arithmetic
import Conductor.Binary64.Decimal
import Conductor.Failure

/-!
# Numbers of either kind

Delays and backoff factors may be integers or floating-point numbers. Integers are computed with
exactly; as soon as a floating-point number takes part the integer is rounded first, which fails if
it is too large.
-/

namespace Conductor

/-- An integer or a floating-point number. -/
inductive Number where
  | int (i : Int)
  | float (x : Binary64)
  deriving DecidableEq, Repr

namespace Number

instance : Inhabited Number := ⟨.int 0⟩

/-- What comes of rounding an integer; it may be too large. -/
def rounded : Option Binary64 → Except Cause Binary64
  | some x => .ok x
  | none => .error .integerTooLarge

/-- The number rounded to a floating-point number. -/
def toBinary64 : Number → Except Cause Binary64
  | .int i => rounded (Binary64.ofInt? i)
  | .float x => .ok x

/-- Whether the number is greater than zero. -/
def isPositive : Number → Bool
  | .int i => decide (0 < i)
  | .float x => Binary64.zero.lt x

/-- The power with a natural exponent. -/
def pow : Number → Nat → Except Cause Number
  | .int i, n => .ok (.int (Int.pow i n))
  | .float x, n =>
    match x.pow? n with
    | some y => .ok (.float y)
    | none => .error .powerTooLarge

/-- The product. -/
def mul : Number → Number → Except Cause Number
  | .int i, .int j => .ok (.int (i * j))
  | a, b => do
    let x ← a.toBinary64
    let y ← b.toBinary64
    .ok (.float (x.mul y))

/-- The number with a fixed number of places. -/
def fixed (places : Nat) (n : Number) : Except Cause String := do
  let x ← n.toBinary64
  .ok (x.fixed places)

end Number

end Conductor
