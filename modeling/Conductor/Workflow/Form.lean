import Conductor.Script.Form
import Conductor.Workflow.Context
import Conductor.Workflow.Builder
import Conductor.Workflow.View

/-!
# Workflows as data

Steps, contexts and the calls that build a workflow can be given as data. User code in them goes
into the store; everything else becomes part of the step or of the draft. A step that is given
directly is taken as it is, without the checks of a draft.
-/

namespace Conductor

namespace Store

/-- Puts user code into the store. -/
def placeCode (s : Store) (p : Script.Parameters) (d : Datum) : Ref .callable × Store :=
  s.alloc (Script.Callable.ofDatum p d)

/-- Puts user code into the store, if there is any. -/
def placeCode? (s : Store) (p : Script.Parameters) : Datum → Option (Ref .callable) × Store
  | .null => (none, s)
  | d => let (r, s) := s.placeCode p d; (some r, s)

/-- Puts marked data into the store. -/
def place (s : Store) (d : Datum) : Value × Store := s.build (Script.unmark d)

/-- Puts the entries of marked data into the store. -/
def placeEntries (s : Store) (d : Datum) : Entries Value × Store :=
  s.buildEntries (Script.unmark d).entries

/-- Puts rows of a key and marked data into the store. -/
def placePairs (s : Store) (d : Datum) : Entries Value × Store :=
  let (es, s) := s.buildEntries (Script.unmarkEntries d.asPairs)
  (Entries.ofList es, s)

end Store

/-! ## Steps -/

namespace Number

/-- A number from data, if it is one. -/
def ofDatum? : Datum → Option Number
  | .int i => some (.int i)
  | .bool b => some (.int (if b then 1 else 0))
  | .float x => some (.float x)
  | _ => none

end Number

namespace Step

/-- The sources of an input map, one after another. -/
def placeSources (s : Store) : List (String × Datum) → List (String × Source) × Store
  | [] => ([], s)
  | (k, .text t) :: rest =>
    let (es, s) := placeSources s rest
    ((k, .text t) :: es, s)
  | (k, d) :: rest =>
    let (c, s) := s.placeCode .ofContext d
    let (es, s) := placeSources s rest
    ((k, .call c) :: es, s)

/-- An input map, if there is one. -/
def placeInputs (s : Store) : Datum → Option (Entries Source) × Store
  | .null => (none, s)
  | d => let (es, s) := placeSources s d.asPairs; (some (Entries.ofList es), s)

/-- An output map, if there is one. -/
def outputsOf : Datum → Option (Entries String)
  | .null => none
  | d => some (Entries.ofList (d.asPairs.map fun (k, v) => (k, v.asText)))

/-- The number in a field, if there is one. -/
def numberField (d : Datum) (key : String) : Option Number :=
  Number.ofDatum? (Script.unmark (d.field key))

/-- A task step from its fields. -/
def placeTask (s : Store) (task : String) (d : Datum) : TaskStep × Store :=
  let (inputs, s) := placeInputs s (d.field "input_map")
  let (condition, s) := s.placeCode? .ofContext (d.field "condition")
  (⟨task, inputs, outputsOf (d.field "output_map"), condition,
    (d.field "retries").asInt?.getD 0,
    (numberField d "retry_delay").getD (.float Binary64.zero)⟩, s)

/-- A retry step from its fields. -/
def placeRetry (s : Store) (target : String) (d : Datum) : RetryStep × Store :=
  let (shouldRetry, s) := s.placeCode? .ofRetry (d.field "should_retry")
  (⟨target, (d.field "max_retries").asInt?.getD 0, numberField d "delay",
    numberField d "backoff_factor", shouldRetry⟩, s)

/-- The items of a map step that is given directly. -/
def placeItems (s : Store) (d : Datum) : Items × Store :=
  match Script.unmark d with
  | .text t => (.source t, s)
  | d => let (v, s) := s.build d; (.literal v, s)

/-- Whether a parallel step waits for all of its branches. -/
def waitsForAll (d : Datum) : Bool :=
  match d.field "wait_for_all" with
  | .bool b => b
  | _ => true

/-- A step that is given directly. -/
def place (s : Store) (d : Datum) : Except Cause (Step × Store) := do
  let id := (d.field "id").asText
  let next ← Successor.ofDatum (d.field "next")
  match (d.field "kind").asText with
  | "task" =>
    let (t, s) := placeTask s (d.field "task_name").asText d
    .ok (⟨id, .task t, next⟩, s)
  | "parallel" =>
    .ok (⟨id, .parallel (d.field "branches").asTexts (waitsForAll d), next⟩, s)
  | "condition" =>
    let (p, s) := s.placeCode .ofContext (d.field "predicate")
    .ok (⟨id, .condition p (d.field "true_next").asText (d.field "false_next").asText, next⟩, s)
  | "map" =>
    let (items, s) := placeItems s (d.field "items")
    .ok (⟨id, .map items (d.field "iterator").asText (d.field "concurrency").asInt?, next⟩, s)
  | "retry" =>
    let (r, s) := placeRetry s (d.field "step_id").asText d
    .ok (⟨id, .retry r, next⟩, s)
  | _ => .ok (⟨id, .unknown "BogusStep", next⟩, s)

end Step

/-! ## Calls on builders -/

namespace Builder.Call

/-- An input map as a value. -/
def placeInputs (s : Store) : Datum → Value × Store
  | .null => (.null, s)
  | d =>
    let (es, s) := Step.placeSources s d.asPairs
    let (r, s) := s.newDict (Entries.ofList (es.map fun (k, x) => (k, x.toValue)))
    (.dict r, s)

/-- An output map as a value. -/
def placeOutputs (s : Store) : Datum → Value × Store
  | .null => (.null, s)
  | d =>
    let (r, s) := s.newDict (Entries.ofList (d.asPairs.map fun (k, v) => (k, .text v.asText)))
    (.dict r, s)

/-- A call that declares a step: its kind, its id, its arguments and its options. -/
def placeStep (s : Store) (call : Datum) : Builder.Call × Store :=
  let id := (call.item 1).asText
  match (call.item 0).asText with
  | "task" =>
    let options := call.item 3
    let (inputs, s) := placeInputs s (options.field "input_map")
    let (outputs, s) := placeOutputs s (options.field "output_map")
    let (guard, s) := s.placeCode? .ofContext (options.field "condition")
    let (next, s) := s.build (options.field "next")
    (.task id (call.item 2).asText inputs outputs guard ((options.field "retries").asInt?.getD 0)
      ((Step.numberField options "retry_delay").getD (.float Binary64.zero)) next, s)
  | "parallel" =>
    let options := call.item 3
    let (branches, s) := s.build (call.item 2)
    let (next, s) := s.build (options.field "next")
    (.parallel id branches (Step.waitsForAll options) next, s)
  | "map" =>
    let options := call.item 4
    let (items, s) := s.place (call.item 2)
    let (next, s) := s.build (options.field "next")
    (.map id items (call.item 3).asText (options.field "concurrency").asInt? next, s)
  | "retry" =>
    let options := call.item 3
    let (r, s) := Step.placeRetry s (call.item 2).asText options
    let (next, s) := s.build (options.field "next")
    (.retry id r next, s)
  | _ =>
    let options := call.item 3
    let (p, s) := s.placeCode .ofContext (call.item 2)
    (.condition id p (options.field "true_next").asText (options.field "false_next").asText, s)

/-- A call on a builder. -/
def place (s : Store) (call : Datum) : Builder.Call × Store :=
  match (call.item 0).asText with
  | "then" =>
    let (next, s) := s.build (call.item 2)
    (.follow (call.item 1).asText next, s)
  | "sequence" =>
    let (ids, s) := s.build (call.item 1)
    (.sequence ids, s)
  | "entry" => (.entry (call.item 1).asText, s)
  | "describe" =>
    let (v, s) := s.place (call.item 1)
    (.describe v, s)
  | "input" =>
    let (v, s) := s.place (call.item 1)
    (.input v, s)
  | "output" =>
    let (v, s) := s.place (call.item 1)
    (.output v, s)
  | "tag" => (.tag ((call.items.drop 1).map Datum.asText), s)
  | "on_completed" =>
    let (c, s) := s.placeCode .ofCompleted (call.item 1)
    (.onCompleted c, s)
  | "on_error" =>
    let (c, s) := s.placeCode .ofFailed (call.item 1)
    (.onError c, s)
  | _ => placeStep s call

end Builder.Call

namespace Draft

/-- One call that builds a workflow. -/
def apply (s : Store) (d : Draft) (call : Datum) : Except Cause (Draft × Store) :=
  let (c, s) := Builder.Call.place s call
  match Builder.respond ⟨s, d, []⟩ c with
  | (.ok _, b) => .ok (b.draft, b.store)
  | (.error cause, _) => .error cause

/-- All calls that build a workflow. -/
def applyAll (s : Store) (d : Draft) : List Datum → Except Cause (Draft × Store)
  | [] => .ok (d, s)
  | call :: rest => do
    let (d, s) ← apply s d call
    applyAll s d rest

end Draft

namespace Workflow

/-- Puts steps that are given directly in the place of others. -/
def overrideAll (s : Store) (w : Workflow) : List Datum → Except Cause (Workflow × Store)
  | [] => .ok (w, s)
  | d :: ds => do
    let (step, s) ← Step.place s d
    overrideAll s (w.withStep step) ds

end Workflow

/-! ## Contexts -/

namespace Store

/-- A context from its fields, which starts at the given time if its fields do not tell. -/
def placeContext (s : Store) (start : Int) (d : Datum) : Ref .context × Store :=
  let (input, s) := s.place (d.field "input")
  let (results, s) := s.placePairs (d.field "steps")
  let (output, s) := s.placeEntries (d.field "output")
  let (errors, s) := s.placePairs (d.field "errors")
  let (metadata, s) := s.placeEntries (d.field "metadata")
  let (result, s) := s.place (d.field "result")
  let (r, s) := s.newContext input results output errors metadata
    (d.field "current_step").asText? ((d.field "start_time").asInt?.getD start)
  (r, s.update r fun c => { c with endTime := (d.field "end_time").asInt?, result })

end Store

end Conductor
