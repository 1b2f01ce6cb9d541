import Conductor.Clock
import Conductor.Store.Data

/-!
# Attributes

Beside mappings and lists, a path may lead through the attributes of an object: the fields of
contexts, workflows, steps, tasks, agents and models, and the parts of a number. A name that is no
attribute gives nothing. Operations that an object offers are values too; of these only the type is
known.
-/

namespace Conductor.Store

/-! ## Operations of plain values -/

/-- The operations that every value offers as part of its type. -/
def commonOperations : List String :=
  [
    "__dir__", "__format__", "__getstate__", "__init_subclass__", "__new__", "__reduce__",
    "__reduce_ex__", "__sizeof__", "__subclasshook__"
  ]

/-- The operators that every value has. -/
def commonOperators : List String :=
  [
    "__delattr__", "__eq__", "__ge__", "__getattribute__", "__gt__", "__hash__", "__init__",
    "__le__", "__lt__", "__ne__", "__repr__", "__setattr__", "__str__"
  ]

/-- The operations of integers and truth values. -/
def integerOperations : List String :=
  [
    "__ceil__", "__floor__", "__getnewargs__", "__round__", "__trunc__", "as_integer_ratio",
    "bit_count", "bit_length", "conjugate", "from_bytes", "to_bytes"
  ]

/-- The operators of integers and truth values. -/
def integerOperators : List String :=
  [
    "__abs__", "__add__", "__and__", "__bool__", "__divmod__", "__float__", "__floordiv__",
    "__index__", "__int__", "__invert__", "__lshift__", "__mod__", "__mul__", "__neg__",
    "__or__", "__pos__", "__pow__", "__radd__", "__rand__", "__rdivmod__", "__rfloordiv__",
    "__rlshift__", "__rmod__", "__rmul__", "__ror__", "__rpow__", "__rrshift__", "__rshift__",
    "__rsub__", "__rtruediv__", "__rxor__", "__sub__", "__truediv__", "__xor__"
  ]

/-- The operations of floating-point numbers. -/
def floatOperations : List String :=
  [
    "__ceil__", "__floor__", "__getformat__", "__getnewargs__", "__round__", "__trunc__",
    "as_integer_ratio", "conjugate", "fromhex", "hex", "is_integer"
  ]

/-- The operators of floating-point numbers. -/
def floatOperators : List String :=
  [
    "__abs__", "__add__", "__bool__", "__divmod__", "__float__", "__floordiv__", "__int__",
    "__mod__", "__mul__", "__neg__", "__pos__", "__pow__", "__radd__", "__rdivmod__",
    "__rfloordiv__", "__rmod__", "__rmul__", "__rpow__", "__rsub__", "__rtruediv__", "__sub__",
    "__truediv__"
  ]

/-- The operations of texts. -/
def textOperations : List String :=
  [
    "__getnewargs__", "capitalize", "casefold", "center", "count", "encode", "endswith",
    "expandtabs", "find", "format", "format_map", "index", "isalnum", "isalpha", "isascii",
    "isdecimal", "isdigit", "isidentifier", "islower", "isnumeric", "isprintable", "isspace",
    "istitle", "isupper", "join", "ljust", "lower", "lstrip", "maketrans", "partition",
    "removeprefix", "removesuffix", "replace", "rfind", "rindex", "rjust", "rpartition",
    "rsplit", "rstrip", "split", "splitlines", "startswith", "strip", "swapcase", "title",
    "translate", "upper", "zfill"
  ]

/-- The operators of texts. -/
def textOperators : List String :=
  [
    "__add__", "__contains__", "__getitem__", "__iter__", "__len__", "__mod__", "__mul__",
    "__rmod__", "__rmul__"
  ]

/-- The operations of failures. -/
def failureOperations : List String := ["__setstate__", "add_note", "with_traceback"]

/-- The value of a name among operations and operators, or what `otherwise` gives. -/
def operation (operations operators : List String) (key : String) : Value :=
  if operations.contains key || commonOperations.contains key then
    .other "builtin_function_or_method"
  else if operators.contains key || commonOperators.contains key then .other "method-wrapper"
  else if key == "__class__" then .other "type"
  else .null

/-- The attribute of an integer. -/
def integerAttribute (i : Int) (key : String) : Value :=
  match key with
  | "real" | "numerator" => .int i
  | "imag" => .int 0
  | "denominator" => .int 1
  | _ => operation integerOperations integerOperators key

/-- The attribute of a floating-point number. -/
def floatAttribute (x : Binary64) (key : String) : Value :=
  match key with
  | "real" => .float x
  | "imag" => .float Binary64.zero
  | _ => operation floatOperations floatOperators key

/-! ## Fields of objects -/

/-- A successor as a value. -/
def successorValue : Successor → Value
  | .none => .null
  | .one s => .text s
  | .fan ss => .names ss

/-- A reference to user code, or nothing. -/
def callableOrNull : Option (Ref .callable) → Value
  | some c => .callable c
  | none => .null

/-- A number as a value. -/
def numberValue : Number → Value
  | .int i => .int i
  | .float x => .float x

/-- The attribute of a step. -/
def stepAttribute (step : Step) (key : String) : Value :=
  match key with
  | "id" => .text step.id
  | "next" => successorValue step.next
  | "type" => (Step.types.find? fun y => y.value == step.type).elim .null .symbol
  | _ =>
    match step.kind with
    | .task t =>
      match key with
      | "task_name" => .text t.task
      | "input_map" => if t.inputs.isSome then .other "mappingproxy" else .null
      | "output_map" => if t.outputs.isSome then .other "mappingproxy" else .null
      | "condition" => callableOrNull t.condition
      | "retries" => .int t.retries
      | "retry_delay" => numberValue t.retryDelay
      | _ => .null
    | .parallel branches waitForAll =>
      match key with
      | "branches" => .names branches
      | "wait_for_all" => .bool waitForAll
      | _ => .null
    | .condition predicate trueNext falseNext =>
      match key with
      | "predicate" => .callable predicate
      | "true_next" => .text trueNext
      | "false_next" => .text falseNext
      | _ => .null
    | .map items iterator concurrency =>
      match key with
      | "items" => match items with | .literal v => v | .source t => .text t
      | "iterator" => .text iterator
      | "concurrency" => concurrency.elim .null .int
      | _ => .null
    | .retry r =>
      match key with
      | "step_id" => .text r.target
      | "max_retries" => .int r.maxRetries
      | "delay" => r.delay.elim .null numberValue
      | "backoff_factor" => r.backoff.elim .null numberValue
      | "should_retry" => callableOrNull r.shouldRetry
      | _ => .null
    | .unknown _ => .null

/-- The attribute of a context. -/
def contextAttribute (c : Context) (key : String) : Value :=
  match key with
  | "input" => c.input
  | "steps" => .results c.steps
  | "output" => .dict c.output
  | "current_step" => .ofText? c.currentStep
  | "errors" => .dict c.errors
  | "start_time" => .other "datetime"
  | "end_time" => if c.endTime.isSome then .other "datetime" else .null
  | "metadata" => .dict c.metadata
  | "result" => c.result
  | "duration_ms" => c.duration?.elim .null .int
  | "fork_for_item" => .other "method"
  | _ => .null

/-- The attribute of a workflow. -/
def workflowAttribute (r : Ref .workflow) (w : Workflow) (key : String) : Value :=
  match key with
  | "id" => .text w.id
  | "name" => .text w.name
  | "steps" => .steps r
  | "entrypoint" => .text w.entrypoint
  | "description" => w.description
  | "input_schema" => w.inputSchema
  | "output_schema" => w.outputSchema
  | "tags" => .names w.tags
  | "on_completed" | "on_error" => .other "tuple"
  | "step" | "with_step" => .other "method"
  | _ => .null

/-- The attribute of a task. -/
def taskAttribute (t : Task) (key : String) : Value :=
  match key with
  | "name" => .text t.name
  | "handler" => .callable t.handler
  | "hooks" => .other "HookDispatcher"
  | "description" => t.description
  | "input_schema" => t.inputSchema
  | "output_schema" => t.outputSchema
  | "execute" => .other "method"
  | _ => .null

/-- The attribute of an agent. -/
def agentAttribute (a : Agent) (key : String) : Value :=
  match key with
  | "name" => .text a.name
  | "handler" => .callable a.handler
  | "hooks" => .other "HookDispatcher"
  | "capabilities" => .names a.capabilities
  | "description" => a.description
  | "effective_capabilities" => .names a.effective
  | "can_handle" | "execute" => .other "method"
  | _ => .null

/-- The attribute of a goal. -/
def goalAttribute (g : Goal) (key : String) : Value :=
  match key with
  | "name" => .text g.name
  | "description" => .text g.description
  | "goal" => .text g.goal
  | "input" => .dict g.input
  | "expected_output" => g.expected.elim .null .expected
  | "required_capabilities" => g.capabilities.elim .null .list
  | "evaluation_criteria" => .dict g.criteria
  | "max_attempts" => g.maxAttempts.elim .null .int
  | _ => .null

/-- The attribute of an execution. -/
def executionAttribute (e : Execution) (key : String) : Value :=
  match key with
  | "task_id" => .text e.id
  | "parent_task_id" => .ofText? e.parent
  | "attempt" => .int e.attempt
  | "start_time" => .other "datetime"
  | "end_time" => if e.endTime.isSome then .other "datetime" else .null
  | "input" => e.input
  | "intermediate_results" => .dict e.results
  | "logs" => .list e.logs
  | "subtasks" => .list e.subtasks
  | "agents" => .dict e.agents
  | "status" => .symbol e.status.symbol
  | "log" | "finish" => .other "method"
  | _ => .null

/-- The attribute of an evaluation. -/
def evaluationAttribute (e : Evaluation) (key : String) : Value :=
  match key with
  | "passed" => .bool e.passed
  | "score" => .float e.score
  | "criteria" => .dict e.criteria
  | "unmet" => .list e.unmet
  | _ => .null

/-- The attribute of a line in the log of an execution. -/
def entryAttribute (e : LogEntry) (key : String) : Value :=
  match key with
  | "timestamp" => .other "datetime"
  | "level" => .text e.level
  | "message" => .text e.message
  | "data" => e.data
  | _ => .null

/-- The attribute of a reply. -/
def replyAttribute (r : Reply) (key : String) : Value :=
  match key with
  | "settled" => .bool r.settled
  | "data" => r.data
  | "failure" => r.failure
  | "send" | "error" | "outcome" => .other "method"
  | _ => .null

/-- The attribute of a value under a name, or nothing. -/
def attributeOf (s : Store) (v : Value) (key : String) : Value :=
  match v with
  | .null => operation [] ["__bool__"] key
  | .bool b => integerAttribute (if b then 1 else 0) key
  | .int i => integerAttribute i key
  | .float x => floatAttribute x key
  | .text _ => operation textOperations textOperators key
  | .workflow r => workflowAttribute r (s.get r) key
  | .step w id => stepAttribute (s.stepAt w id) key
  | .context r => contextAttribute (s.get r) key
  | .task r => taskAttribute (s.get r) key
  | .agent r => agentAttribute (s.get r) key
  | .goal r => goalAttribute (s.get r) key
  | .criterion r =>
    let c := s.get r
    match key with
    | "description" => .text c.description
    | "threshold" => c.threshold.elim .null .float
    | _ => .null
  | .expected r =>
    let e := s.get r
    match key with
    | "output_schema" => e.schema
    | "example" => e.sample
    | _ => .null
  | .evaluation r => evaluationAttribute (s.get r) key
  | .execution r => executionAttribute (s.get r) key
  | .entry r => entryAttribute (s.get r) key
  | .reply r => replyAttribute (s.get r) key
  | .failure f =>
    match key with
    | "args" => .names [f.cause.text]
    | "__suppress_context__" => .bool false
    | _ => operation failureOperations [] key
  | .symbol y =>
    match key with
    | "name" => .text y.member
    | "value" => .text y.value
    | _ => operation textOperations textOperators key
  | .foreign _ | .callable _ | .other _ => operation [] [] key
  | .names _ | .list _ | .tuple _ | .dict _ | .results _ | .steps _ => .null

end Conductor.Store
