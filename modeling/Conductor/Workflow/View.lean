import Conductor.Clock
import Conductor.Store.Data

/-!
# Views of workflows

What workflows, steps and contexts look like as data. Where order matters, entries are shown as rows
of a key and a value.
-/

namespace Conductor

/-- User code as data. -/
def codeMark : Datum := .entity .code

/-- A mark for user code, or nothing. -/
def codeOrNull (c : Option (Ref .callable)) : Datum := c.elim .null fun _ => codeMark

namespace Number

/-- A number as data. -/
def view : Number → Datum
  | .int i => .int i
  | .float x => .float x

end Number

namespace Successor

/-- A successor as data. -/
def view : Successor → Datum
  | .none => .null
  | .one s => .text s
  | .fan ss => .list (ss.map .text)

/-- A successor from data. -/
def ofDatum : Datum → Except Cause Successor
  | .null => .ok .none
  | .text s => .ok (.one s)
  | .list xs => .ok (.fan (xs.map Datum.asText))
  | .dict es => .ok (.fan (es.map Prod.fst))
  | d => .error (.raised .badType s!"'{d.kindName}' object is not iterable")

end Successor

namespace Source

/-- A source as data. -/
def view : Source → Datum
  | .call _ => codeMark
  | .text s => .text s

end Source

namespace Store

/-- Entries as they are now. -/
def snapshots (s : Store) (es : Entries Value) : List (String × Datum) :=
  es.map fun (k, v) => (k, s.snapshot v)

/-- The fields of a step that its variant has. -/
def variantFields (s : Store) : StepKind → List (String × Datum)
  | .task t =>
    [("task_name", .text t.task),
      ("input_map", t.inputs.elim .null fun m => .ofPairs (m.map fun (k, v) => (k, v.view))),
      ("output_map", t.outputs.elim .null fun m => .ofPairs (m.map fun (k, v) => (k, .text v))),
      ("condition", codeOrNull t.condition), ("retries", .int t.retries),
      ("retry_delay", t.retryDelay.view)]
  | .parallel branches waitForAll =>
    [("branches", .list (branches.map .text)), ("wait_for_all", .bool waitForAll)]
  | .condition _ trueNext falseNext =>
    [("predicate", codeMark), ("true_next", .text trueNext), ("false_next", .text falseNext)]
  | .map items iterator concurrency =>
    [("items", match items with | .literal v => s.snapshot v | .source t => .text t),
      ("iterator", .text iterator), ("concurrency", concurrency.elim .null .int)]
  | .retry r =>
    [("step_id", .text r.target), ("max_retries", .int r.maxRetries),
      ("delay", r.delay.elim .null Number.view),
      ("backoff_factor", r.backoff.elim .null Number.view),
      ("should_retry", codeOrNull r.shouldRetry)]
  | .unknown _ => []

/-- The fields of a step. -/
def stepView (s : Store) (step : Step) : Datum :=
  .dict ([("id", .text step.id), ("type", .text step.type), ("class", .text step.variant),
    ("next", step.next.view)] ++ s.variantFields step.kind)

/-- The fields of a workflow. -/
def workflowView (s : Store) (w : Workflow) : Datum :=
  .dict [("id", .text w.id), ("name", .text w.name), ("entrypoint", .text w.entrypoint),
    ("description", s.snapshot w.description), ("input_schema", s.snapshot w.inputSchema),
    ("output_schema", s.snapshot w.outputSchema), ("tags", .list (w.tags.map .text)),
    ("on_completed", .int w.onCompleted.length), ("on_error", .int w.onError.length),
    ("steps", .list (w.steps.map fun (_, step) => s.stepView step))]

/-- The fields of a context. -/
def contextView (s : Store) (r : Ref .context) : Datum :=
  let c := s.get r
  .dict [("input", s.snapshot c.input), ("steps", .ofPairs (s.snapshots (s.get c.steps))),
    ("output", s.snapshot (.dict c.output)), ("current_step", textOrNull c.currentStep),
    ("errors", .ofPairs (s.snapshots (s.get c.errors))),
    ("metadata", s.snapshot (.dict c.metadata)), ("result", s.snapshot c.result),
    ("duration_ms", c.duration?.elim .null .int)]

end Store

end Conductor
