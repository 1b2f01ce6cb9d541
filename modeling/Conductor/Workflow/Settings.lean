import Conductor.Binary64.Basic

/-!
# Settings of workflows

The defaults for steps that leave something open.
-/

namespace Conductor

namespace Workflow

/-- What holds for steps that do not say it themselves. -/
structure Settings where
  /-- How many items of a map step run side by side. -/
  mapConcurrency : Nat
  /-- The delay before a retry step tries again, in seconds. -/
  retryDelay : Binary64
  /-- The factor by which the delay grows with each try. -/
  retryBackoff : Binary64
  mapConcurrency_pos : 0 < mapConcurrency

/-- The usual number of items side by side. -/
def Settings.usualConcurrency : { n : Nat // 0 < n } := ⟨5, by decide⟩

instance : Inhabited Settings :=
  ⟨⟨Settings.usualConcurrency.val, Binary64.one, Binary64.one,
    Settings.usualConcurrency.property⟩⟩

end Workflow

end Conductor
