import Conductor.Schedule.Step

/-!
# Running schedules

A routine is run by giving it a branch of its own, whose turn begins at once, and by stepping until
that branch has ended. All others are left as they are at that moment; they go on with the next
routine that is run. The number of steps is bounded by a fuel.
-/

namespace Conductor

namespace Schedule

/-- Gives a routine a branch and its turn. -/
def launch (m : Schedule) (r : Routine Value) : BranchId × Schedule :=
  let b := m.branches.size
  (b, { m with branches := m.branches.push default }.activate b r)

/-- Steps until a branch has ended, nothing is left to do, or the fuel is used up. -/
def runUntil (body : Procedure → Routine Value) (b : BranchId) : Nat → Schedule → Schedule
  | 0, m => m
  | fuel + 1, m =>
    if m.isOpen b then
      match m.step body with
      | some m => runUntil body b fuel m
      | none => m
    else m

/-- Runs a routine to its end. -/
def run (body : Procedure → Routine Value) (fuel : Nat) (r : Routine Value) (m : Schedule) :
    Option (Except Failure Value) × Schedule :=
  let (b, m) := m.launch r
  let m := runUntil body b fuel m
  (m.outcome? b, m)

/-- The routine that waits until no branch is left behind, after a mark in the journal. -/
def drain : Routine Value := do
  .alter fun s => s.write .drain
  .drain
  pure .null

/-- How many branches are left behind. -/
def pending (m : Schedule) : Nat := m.detached.length

end Schedule

end Conductor
