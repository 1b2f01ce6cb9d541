import Conductor.Goal.Model

/-!
# Settings of goals

What holds for goals that do not say it themselves.
-/

namespace Conductor

namespace Goal

/-- How results are judged, and how often a goal is attempted. -/
structure Settings where
  /-- Whether results are scored at all. -/
  enabled : Bool
  /-- The least average score of a result that passes. -/
  threshold : Binary64
  /-- The number of attempts, the first one included. -/
  maxAttempts : Nat
  /-- The strategy where none was chosen. -/
  strategy : Strategy
  /-- Whether progress is logged to be seen by default. -/
  verbose : Bool
  maxAttempts_pos : 0 < maxAttempts

/-- The usual threshold, seven tenths. -/
def Settings.usualThreshold : Binary64 := Binary64.ofUnits false (7 * Binary64.unitsOfOne) 10

/-- The usual number of attempts. -/
def Settings.usualAttempts : { n : Nat // 0 < n } := ⟨2, by decide⟩

instance : Inhabited Settings :=
  ⟨⟨true, Settings.usualThreshold, Settings.usualAttempts.val, .auto, false,
    Settings.usualAttempts.property⟩⟩

end Goal

end Conductor
