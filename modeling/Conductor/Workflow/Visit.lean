import Conductor.Path
import Conductor.Task.Registry
import Conductor.Workflow.Context
import Conductor.Workflow.Settings

/-!
# Visiting steps

A visit runs one step, records its result in the context and goes on with the successor. `dispatch`
is the part that depends on the variant of the step; whatever leaves it as a failure is noted under
the step, and is tried again as long as a task step has retries left. A failure behind the step is
none of its own.

Branches never end each other. When one of several branches fails, or when the first of them decides
a race, the others go on, and what they write still lands in the shared context.
-/

namespace Conductor

namespace Visit

/-- Where visits are logged. -/
def logger : String := "workflow.interpreter"

/-- One visit: how user code is run, the settings, and the step in its workflow and context. -/
structure Scene where
  call : Handlers
  settings : Workflow.Settings
  workflow : Ref .workflow
  context : Ref .context

namespace Scene

/-- Goes on with another step of the same workflow and context. -/
def go (σ : Scene) (step : String) : Routine Value :=
  .call (.visit step σ.workflow σ.context)

/-- Runs steps of the same workflow and context side by side. -/
def side (σ : Scene) (steps : List String) : List Procedure :=
  steps.map fun step => .visit step σ.workflow σ.context

/-- Runs steps side by side and collects their results in a new list. -/
def gather (σ : Scene) (steps : List String) : Routine Value := do
  let vs ← .all (σ.side steps)
  .modifyGet fun s => s.newList vs

/-- Whether a condition holds. A failure of the condition is a fault of the workflow. -/
def holds (σ : Scene) (condition : Ref .callable) (step : String) : Routine Bool := do
  match ← (σ.call condition [.context σ.context]).attempt with
  | .ok v => .read fun s => s.isTruthy v
  | .error f => .raise (.predicateFailed step f.message)

/-! ## Tasks -/

/-- The value of one source of a task's input. -/
def source (σ : Scene) : Source → Routine Value
  | .call c => σ.call c [.context σ.context]
  | .text t =>
    .query fun s =>
      if Path.isStepReference t then s.getPath (.context σ.context) t
      else s.lookup (s.get σ.context).input t

/-- The values of the sources of a task's input, one after another. -/
def sources (σ : Scene) : Entries Source → Routine (Entries Value)
  | [] => pure []
  | (key, source) :: rest => do
    let v ← σ.source source
    let vs ← σ.sources rest
    pure ((key, v) :: vs)

/-- The input of a task. -/
def inputOf (σ : Scene) (t : TaskStep) : Routine Value :=
  match t.inputs with
  | none => .read fun s => (s.get σ.context).input
  | some m => do
    let vs ← σ.sources m
    .modifyGet fun s => let (r, s) := s.newDict vs; (.dict r, s)

/-- Writes one part of a result into the output. -/
def writeOutput (σ : Scene) (result : Value) (key path : String) : Routine Unit := do
  let v ← .query fun s => s.lookup result key
  let s' ← .query fun s => s.setPath (s.get σ.context).output path v
  .put s' (.done ())

/-- Writes a result into the output: what the output map names, or all of a mapping. -/
def applyOutput (σ : Scene) (t : TaskStep) (result : Value) : Routine Unit :=
  match t.outputs with
  | none => .alter fun s =>
    match s.mapping? result with
    | some es => s.insertAll (s.get σ.context).output es
    | none => s
  | some m => Routine.each (fun (key, path) => σ.writeOutput result key path) m

/-- Runs the task of a step. -/
def runTask (σ : Scene) (t : TaskStep) (r : Ref .task) : Routine Value := do
  let input ← σ.inputOf t
  let result ← Task.execute σ.call r input (.context σ.context)
  σ.applyOutput t result
  pure result

/-- Runs a task step, unless its condition does not hold. -/
def task (σ : Scene) (step : String) (t : TaskStep) : Routine Value := do
  let r ← .query fun s => s.task t.task
  match t.condition with
  | none => σ.runTask t r
  | some condition =>
    if ← σ.holds condition step then σ.runTask t r
    else
      .log .debug logger s!"Step {step} skipped by its condition" [("step_id", .text step)]
      pure .null

/-! ## Branches and choices -/

/-- Runs the branches of a parallel step: all of them, or until the first one ends. -/
def parallel (σ : Scene) (branches : List String) (waitForAll : Bool) : Routine Value :=
  if waitForAll then σ.gather branches
  else if branches.isEmpty then pure .null
  else .first (σ.side branches)

/-- Goes on with one of two steps. -/
def choose (σ : Scene) (step : String) (predicate : Ref .callable)
    (trueNext falseNext : String) : Routine Value := do
  let chosen ← σ.holds predicate step
  let next := if chosen then trueNext else falseNext
  let shown := (Datum.bool chosen).repr
  .log .debug logger s!"Condition {step} evaluated {shown}, following {next}"
    [("step_id", .text step)]
  σ.go next

/-! ## Maps -/

/-- Where the items of a map step come from, and what is there. -/
def findItems (σ : Scene) (s : Store) : Items → Except Cause (Value × String)
  | .literal v => .ok (v, "literal")
  | .source t =>
    if Path.isStepReference t then
      (s.getPath (.context σ.context) t).map fun v => (v, s!"'{t}'")
    else (s.lookup (s.get σ.context).input t).map fun v => (v, s!"input '{t}'")

/-- The items of a map step. -/
def itemsOf (σ : Scene) (items : Items) (s : Store) : Except Cause (List Value) := do
  let (v, origin) ← σ.findItems s items
  match s.row? v with
  | some vs => .ok vs
  | none => .error (.badItems origin (s.kindName v))

/-- How many items of a map step run side by side. -/
def batchSize (σ : Scene) (concurrency : Option Int) : Nat :=
  match concurrency with
  | some n => if 0 < n then n.toNat else σ.settings.mapConcurrency
  | none => σ.settings.mapConcurrency

/-- A list cut into pieces of a given size, of which only the last may be shorter. -/
def batches {α : Type} (size : Nat) : Nat → List α → List (List α)
  | 0, _ => []
  | _, [] => []
  | fuel + 1, xs => xs.take size :: batches size fuel (xs.drop size)

/-- Runs a step for the items of one batch, each in a context of its own. -/
def runBatch (σ : Scene) (iterator : String) (items : List Value) : Routine (List Value) := do
  let contexts ← .modifyGet fun s => s.forkAll σ.context items
  .all (contexts.map fun c => .visit iterator σ.workflow c)

/-- Runs a step for all items, one batch after another. -/
def runBatches (σ : Scene) (iterator : String) : List (List Value) → Routine (List Value)
  | [] => pure []
  | batch :: rest => do
    let vs ← σ.runBatch iterator batch
    let ws ← σ.runBatches iterator rest
    pure (vs ++ ws)

/-- Runs a map step. -/
def map (σ : Scene) (items : Items) (iterator : String) (concurrency : Option Int) :
    Routine Value := do
  let vs ← .query (σ.itemsOf items)
  let results ← σ.runBatches iterator (batches (σ.batchSize concurrency) vs.length vs)
  .modifyGet fun s => s.newList results

/-! ## Retries -/

/-- The wait after a failed try, which grows by the factor with each try. -/
def wait (σ : Scene) (r : RetryStep) (attempt : Nat) : Except Cause Number := do
  let factor ← (r.backoff.getD (.float σ.settings.retryBackoff)).pow attempt
  (r.delay.getD (.float σ.settings.retryDelay)).mul factor

/-- Waits for some time, if it is positive. -/
def pause (n : Number) : Routine Unit :=
  if n.isPositive then do
    let seconds ← .ofExcept n.toBinary64
    .sleep seconds
  else pure ()

/-- Whether a failed try is to be followed by another one. -/
def wantsRetry (σ : Scene) (step : String) (r : RetryStep) (f : Failure) (attempt : Nat) :
    Routine Bool :=
  match r.shouldRetry with
  | none => pure true
  | some c => do
    match ← (σ.call c [.failure f, .int attempt]).attempt with
    | .ok v => .read fun s => s.isTruthy v
    | .error g => .raise (.retryPredicateFailed step g.message)

/-- Announces the next try and waits for it. -/
def awaitRetry (σ : Scene) (step : String) (r : RetryStep) (attempt : Nat) : Routine Unit := do
  let wait ← .ofExcept (σ.wait r attempt)
  let shown ← .ofExcept (wait.fixed 3)
  let workflow ← .read fun s => (s.get σ.workflow).id
  let target := r.target
  let count := attempt + 1
  let limit := r.maxRetries
  .log .info logger s!"Retrying step {target} in {shown}s (attempt {count}/{limit})"
    [("workflow_id", .text workflow), ("step_id", .text step)]
  pause wait

/-- Runs the target of a retry step, and notes its failure under the number of the try. -/
def tryTarget (σ : Scene) (r : RetryStep) (attempt : Nat) : Routine (Except Failure Value) := do
  let outcome ← (σ.go r.target).attempt
  match outcome with
  | .ok _ => pure outcome
  | .error f =>
    let target := r.target
    .alter fun s => s.noteError σ.context s!"{target}_attempt_{attempt}" f
    pure outcome

/-- Runs the target of a retry step until it succeeds or no tries remain. -/
def retryFrom (σ : Scene) (step : String) (r : RetryStep) (attempt : Nat) : Nat → Routine Value
  | 0 => do
    let outcome ← σ.tryTarget r attempt
    .ofOutcome outcome
  | remaining + 1 => do
    match ← σ.tryTarget r attempt with
    | .ok v => pure v
    | .error f =>
      if ← σ.wantsRetry step r f attempt then
        σ.awaitRetry step r attempt
        retryFrom σ step r (attempt + 1) remaining
      else .fail f

/-- Runs a retry step. -/
def retry (σ : Scene) (step : String) (r : RetryStep) : Routine Value :=
  σ.retryFrom step r 0 r.maxRetries.toNat

/-! ## Visits -/

/-- What a step does, by its variant. -/
def dispatch (σ : Scene) (step : Step) : Routine Value :=
  match step.kind with
  | .task t => σ.task step.id t
  | .parallel branches waitForAll => σ.parallel branches waitForAll
  | .condition predicate trueNext falseNext => σ.choose step.id predicate trueNext falseNext
  | .map items iterator concurrency => σ.map items iterator concurrency
  | .retry r => σ.retry step.id r
  | .unknown name => .raise (.unknownStepKind name)

/-- Goes on behind a step with a given result. -/
def follow (σ : Scene) (next : Successor) (result : Value) : Routine Value :=
  match next with
  | .none => pure result
  | .one step => σ.go step
  | .fan steps => σ.gather steps

/-- The arguments of the hooks of a step. -/
def stepArguments (σ : Scene) (step : String) : List Value :=
  [.workflow σ.workflow, .step σ.workflow step, .context σ.context]

/-- What log records say about the step of a given id. -/
def extras (workflow id : String) (step : Step) : List (String × Datum) :=
  [("workflow_id", .text workflow), ("step_id", .text id), ("step_type", .text step.type)]

/-- The step with one retry less. -/
def fewer (step : Step) (t : TaskStep) : Step :=
  { step with kind := .task { t with retries := t.retries - 1 } }

/-- A copy of the workflow in which a task step has one retry less. The workflow that others see
keeps all of them. -/
def lower (σ : Scene) (step : Step) (t : TaskStep) : Routine (Ref .workflow) :=
  .modifyGet fun s => s.alloc ((s.get σ.workflow).withStep (fewer step t))

/-- What happens after a step has failed. A task step with retries left is to be run again, in
another workflow. -/
def regroup (σ : Scene) (workflow id : String) (step : Step) (f : Failure) :
    Routine (Ref .workflow) := do
  .alter fun s => s.noteError σ.context id f
  HookName.stepError.emit σ.call (σ.stepArguments id ++ [.failure f])
  let reason := f.message
  let giveUp : Routine (Ref .workflow) := do
    .log .debug logger s!"Step {id} failed: {reason}" (extras workflow id step)
    .fail f
  match step.kind with
  | .task t =>
    if 0 < t.retries then
      let left := t.retries
      .log .warning logger s!"Step {id} failed ({reason}); {left} retries left"
        (extras workflow id step)
      pause t.retryDelay
      σ.lower step t
    else giveUp
  | _ => giveUp

/-- Runs a step again after it has failed, as long as there are retries left. -/
def recover (σ : Scene) (workflow id : String) (step : Step) (f : Failure) : Routine Value := do
  let w ← σ.regroup workflow id step f
  .call (.visit id w σ.context)

/-- What happens after a step has succeeded. -/
def settle (σ : Scene) (id : String) (step : Step) (result : Value) : Routine Value := do
  .alter fun s => s.record σ.context id result
  HookName.stepEnd.emit σ.call (σ.stepArguments id ++ [result])
  σ.follow step.next result

/-- Begins a visit of the step of a given id, and gives it with the id of its workflow. -/
def arrive (σ : Scene) (id : String) : Routine (String × Step) := do
  let w ← .read fun s => s.get σ.workflow
  let step ← .ofExcept (w.step id)
  .alter fun s => s.enter σ.context id
  HookName.stepStart.emit σ.call (σ.stepArguments id)
  .log .debug logger s!"Running step {id}" (extras w.id id step)
  pure (w.id, step)

/-- Visits the step of a given id. -/
def visit (σ : Scene) (id : String) : Routine Value := do
  let (workflow, step) ← σ.arrive id
  match ← (σ.dispatch step).attempt with
  | .error f => σ.recover workflow id step f
  | .ok v => σ.settle id step v

end Scene

end Visit

end Conductor
