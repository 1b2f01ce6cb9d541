import Conductor.Goal.Pursuit
import Conductor.Workflow.Visit

/-!
# Setups

A setup is what stays the same during a run: how user code is called, and the settings of workflows
and goals. It says what the parts of a run do that call each other.
-/

namespace Conductor

/-- What stays the same during a run. -/
structure Setup where
  workflow : Workflow.Settings
  desk : Pursuit.Desk

namespace Setup

/-- What a part of a run does. -/
def body (σ : Setup) : Procedure → Routine Value
  | .visit step w c => Visit.Scene.visit ⟨σ.desk.call, σ.workflow, w, c⟩ step
  | .pursue g input attempt parent => σ.desk.pursue g input attempt parent

end Setup

end Conductor
