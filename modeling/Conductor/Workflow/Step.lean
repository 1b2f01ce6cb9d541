import Conductor.Entries
import Conductor.Number
import Conductor.Value

/-!
# Steps

A workflow is made of steps of five variants: a task, branches side by side, a choice between two
steps, one step mapped over items, and another step run again until it succeeds. Every step names
its successor: none, one step, or several that run side by side.
-/

namespace Conductor

/-- What follows a step. -/
inductive Successor where
  | none
  | one (step : String)
  | fan (steps : List String)
  deriving DecidableEq, Repr, Inhabited

/-- Where an entry of a task's input comes from: user code, a path into the results of other steps,
or a key of the workflow's input. -/
inductive Source where
  | call (c : Ref .callable)
  | text (s : String)
  deriving DecidableEq, Repr, Inhabited

/-- The source that a value stands for. -/
def Source.ofValue : Value → Source
  | .callable c => .call c
  | v => .text v.asText

/-- A source as a value. -/
def Source.toValue : Source → Value
  | .call c => .callable c
  | .text s => .text s

/-- The items of a map step: given directly, or found through a text. -/
inductive Items where
  | literal (v : Value)
  | source (s : String)
  deriving DecidableEq, Repr, Inhabited

/-- A step that runs a registered task. Without an input map the task gets the workflow's input;
without an output map its result is merged into the output. -/
structure TaskStep where
  task : String
  inputs : Option (Entries Source)
  outputs : Option (Entries String)
  condition : Option (Ref .callable)
  retries : Int
  retryDelay : Number

/-- A step that runs another step again, after a delay that grows by a factor. -/
structure RetryStep where
  target : String
  maxRetries : Int
  delay : Option Number
  backoff : Option Number
  shouldRetry : Option (Ref .callable)

/-- The variants of steps. -/
inductive StepKind where
  | task (t : TaskStep)
  | parallel (branches : List String) (waitForAll : Bool)
  | condition (predicate : Ref .callable) (trueNext falseNext : String)
  | map (items : Items) (iterator : String) (concurrency : Option Int)
  | retry (r : RetryStep)
  /-- A variant that this library does not know. -/
  | unknown (className : String)

/-- A step. -/
structure Step where
  id : String
  kind : StepKind
  next : Successor

instance : Inhabited Step := ⟨⟨"", .unknown "", .none⟩⟩

namespace Step

/-- The name of a step's type. -/
def type (s : Step) : String :=
  match s.kind with
  | .task _ | .unknown _ => "task"
  | .parallel .. => "parallel"
  | .condition .. => "condition"
  | .map .. => "map"
  | .retry _ => "retry"

/-- The name of a step's variant. -/
def variant (s : Step) : String :=
  match s.kind with
  | .task _ => "TaskStep"
  | .parallel .. => "ParallelStep"
  | .condition .. => "ConditionStep"
  | .map .. => "MapStep"
  | .retry _ => "RetryStep"
  | .unknown n => n

/-- The types of steps, as members of their choice. -/
def types : List Symbol :=
  [⟨"StepType", "TASK", "task"⟩, ⟨"StepType", "PARALLEL", "parallel"⟩,
    ⟨"StepType", "CONDITION", "condition"⟩, ⟨"StepType", "MAP", "map"⟩,
    ⟨"StepType", "RETRY", "retry"⟩]

/-- The step with another successor. -/
def withNext (s : Step) (next : Successor) : Step := { s with next }

end Step

end Conductor
