import Conductor.Hook.Emission
import Conductor.Store.Data
import Conductor.Workflow.Context

/-!
# Running workflows

A run of a workflow makes a fresh context, visits the entrypoint, and closes the context when the
visit is over. Hooks and handlers of the workflow see the start, and then either the output or the
failure; a failure is noted in the context and passed on as it is.
-/

namespace Conductor

namespace Workflow

/-- Where runs of workflows are logged. -/
def logger : String := "workflow.engine"

/-- The name under which the failure of a whole run is noted. -/
def failureKey : String := "workflow"

/-- A fresh context for a run. Without input it gets an empty dictionary. -/
def openContext (input : Value) (metadata : Entries Value) : Routine (Ref .context) := do
  let moment ← .query Store.now
  .modifyGet fun s =>
    let (input, s) :=
      if input.isNull then let (r, s) := s.newDict []; (Value.dict r, s) else (input, s)
    s.newContext input [] [] [] metadata none moment

/-- Calls handlers one after another. -/
def notify (call : Handlers) (args : List Value) (handlers : List (Ref .callable)) :
    Routine Unit :=
  Routine.each (fun h => (call h args).bind fun _ => .done ()) handlers

/-- What happens after a run has failed. -/
def closeFailed (call : Handlers) (r : Ref .workflow) (c : Ref .context) (f : Failure) :
    Routine Value := do
  let moment ← .query Store.now
  .alter fun s => (s.close c moment).noteError c failureKey f
  let w ← .read fun s => s.get r
  let name := w.name
  let step ← .read fun s => (Store.textOrNull (s.get c).currentStep).toText
  let reason := f.message
  .log .error logger s!"Workflow {name} failed at step {step}: {reason}"
    [("workflow_id", .text w.id)]
  HookName.workflowError.emit call [.workflow r, .context c, .failure f]
  notify call [.failure f, .context c] w.onError
  .fail f

/-- What happens after a run has succeeded. -/
def closeCompleted (call : Handlers) (r : Ref .workflow) (c : Ref .context) (result : Value) :
    Routine Value := do
  .alter fun s => s.update c fun x => { x with result }
  let moment ← .query Store.now
  .alter fun s => s.close c moment
  let w ← .read fun s => s.get r
  let output ← .read fun s => Value.dict (s.get c).output
  HookName.workflowEnd.emit call [.workflow r, .context c, output]
  notify call [output, .context c] w.onCompleted
  let context ← .read fun s => s.get c
  let name := w.name
  let duration := context.duration?.getD 0
  let count ← .read fun s => (s.get context.steps).length
  .log .info logger s!"Workflow {name} completed in {duration}ms"
    [("workflow_id", .text w.id), ("step_count", .int count)]
  pure (.context c)

/-- Runs a workflow once and gives the context of the run. -/
def execute (call : Handlers) (r : Ref .workflow) (input : Value) (metadata : Entries Value) :
    Routine Value := do
  let c ← openContext input metadata
  let w ← .read fun s => s.get r
  let name := w.name
  .log .info logger s!"Starting workflow {name}" [("workflow_id", .text w.id)]
  HookName.workflowStart.emit call [.workflow r, .context c]
  match ← (Routine.call (.visit w.entrypoint r c)).attempt with
  | .error f => closeFailed call r c f
  | .ok v => closeCompleted call r c v

end Workflow

end Conductor
