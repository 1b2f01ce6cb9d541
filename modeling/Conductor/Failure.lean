import Conductor.Text.Quoted

/-!
# Failures

A failure has a kind, which says what may be caught, and a cause, which says what happened. The
causes of this library are listed one by one; user code raises failures of a kind and a text of its
own. The wording of every cause is in `Cause.message`.

`Failure` adds a serial number: two failures with the same cause are still two failures, and a
failure that is passed on unchanged keeps its number.
-/

namespace Conductor

/-! ## Kinds -/

/-- The kinds of failures. -/
inductive FailureKind where
  | orchestrator
  | notFound
  | invalid
  | execution
  | runtime
  | badValue
  | missingKey
  | lookup
  | badType
  | division
  | overflow
  | index
  | attribute
  | system
  | frozen
  | settings
  | schema
  | custom
  | abort
  deriving DecidableEq, Repr

namespace FailureKind

/-- The name of a kind. -/
def name : FailureKind → String
  | .orchestrator => "OrchestratorError"
  | .notFound => "NotFoundError"
  | .invalid => "ValidationFailure"
  | .execution => "ExecutionFailure"
  | .runtime => "RuntimeError"
  | .badValue => "ValueError"
  | .missingKey => "KeyError"
  | .lookup => "LookupError"
  | .badType => "TypeError"
  | .division => "ZeroDivisionError"
  | .overflow => "OverflowError"
  | .index => "IndexError"
  | .attribute => "AttributeError"
  | .system => "OSError"
  | .frozen => "FrozenInstanceError"
  | .settings => "SettingsError"
  | .schema => "ValidationError"
  | .custom => "CustomError"
  | .abort => "Abort"

/-- All kinds. -/
def all : List FailureKind :=
  [.orchestrator, .notFound, .invalid, .execution, .runtime, .badValue, .missingKey, .lookup,
    .badType, .division, .overflow, .index, .attribute, .system, .frozen, .settings, .schema,
    .custom, .abort]

/-- The kind of a given name. -/
def ofName? (s : String) : Option FailureKind := all.find? fun k => k.name == s

/-- The kinds that a kind belongs to, from itself outwards. -/
def ancestry (k : FailureKind) : List String :=
  let root := ["BaseException", "object"]
  let base := "Exception" :: root
  let own := "OrchestratorError"
  match k with
  | .abort => k.name :: root
  | .orchestrator | .runtime | .badValue | .lookup | .badType | .custom => k.name :: base
  | .notFound => k.name :: own :: "LookupError" :: base
  | .invalid => k.name :: own :: "ValueError" :: base
  | .execution => k.name :: own :: "RuntimeError" :: base
  | .missingKey | .index => k.name :: "LookupError" :: base
  | .division | .overflow => k.name :: "ArithmeticError" :: base
  | .attribute | .system => k.name :: base
  | .frozen => k.name :: "AttributeError" :: base
  | .settings | .schema => k.name :: "ValueError" :: base

/-- Whether handlers of ordinary failures see the kind; an abort passes through all of them. -/
def isCatchable : FailureKind → Bool
  | .abort => false
  | _ => true

/-- Whether a kind is one of this library's own, rather than one that user code raises. -/
def isOwn : FailureKind → Bool
  | .orchestrator | .notFound | .invalid | .execution => true
  | _ => false

/-- The wording of a failure that was made with a single text: a missing key is quoted. -/
def wording (k : FailureKind) (text : String) : String :=
  match k with
  | .missingKey => Text.quoted text
  | _ => text

end FailureKind

/-! ## Causes -/

/-- What happened. -/
inductive Cause where
  /-- User code failed with a kind and a text. -/
  | raised (kind : FailureKind) (text : String)
  | unknownStep (step workflow : String)
  | unknownTask (name : String)
  | unknownAgent (name : String)
  | unknownExecution (id : String)
  /-- No registered agent covers the required capabilities. -/
  | uncovered (required : List String)
  | repeatedStep (step workflow : String)
  | repeatedTask (name : String)
  | repeatedAgent (name : String)
  | negativeRetries (step : String)
  | negativeMaxRetries (step : String)
  | noSteps (workflow : String)
  /-- A path leads through a value that is not a dictionary. -/
  | blockedPath (path walked kind : String)
  /-- The items of a map step are not a list. -/
  | badItems (origin kind : String)
  | unknownStepKind (name : String)
  | predicateFailed (step reason : String)
  | retryPredicateFailed (step reason : String)
  | inputNotMapping (task : String)
  | repliedTwice (agent : String)
  | neverReplied (agent : String)
  /-- An agent reported an error value that is not itself a failure. -/
  | reportedError (agent shown : String)
  | unknownChoice (choice value : String)
  | badInteger (shown : String)
  | longInteger (digits : Nat)
  | badFloat (shown : String)
  | notNumeric (kind : String)
  | integerTooLarge
  | powerTooLarge
  /-- A number of seconds that is not a number. -/
  | timeUndefined
  | timeInfinite
  /-- A point in time after the year 9999. -/
  | dateTooLate
  /-- A span of more days than a span may have. -/
  | spanTooLong (days : Int)
  /-- An integer that does not fit into a machine word, which is a wide one or a narrow one. -/
  | exceedsWord (wide : Bool)
  | noItemAssignment (kind : String)
  | noItemDeletion (kind : String)
  | textIndex
  | frozenField (field : String)
  | unhashable (kind : String)
  /-- Data that breaks the rules of a model; the message lists each broken rule. -/
  | rejected (message : String)
  | unreadableSetting (message : String)
  deriving DecidableEq, Repr

namespace Cause

/-- The kind of a cause. -/
def kind : Cause → FailureKind
  | .raised k _ => k
  | .unknownStep .. | .unknownTask _ | .unknownAgent _ | .unknownExecution _
  | .uncovered _ => .notFound
  | .repeatedStep .. | .repeatedTask _ | .repeatedAgent _ | .negativeRetries _
  | .negativeMaxRetries _ | .noSteps _ | .blockedPath .. | .badItems .. | .unknownStepKind _
  | .predicateFailed .. | .retryPredicateFailed .. | .inputNotMapping _ => .invalid
  | .repliedTwice _ | .neverReplied _ | .reportedError .. => .execution
  | .unknownChoice .. | .badInteger _ | .longInteger _ | .badFloat _
  | .timeUndefined => .badValue
  | .notNumeric _ | .noItemAssignment _ | .noItemDeletion _ | .textIndex | .unhashable _ =>
    .badType
  | .integerTooLarge | .powerTooLarge | .timeInfinite | .dateTooLate | .spanTooLong _
  | .exceedsWord _ => .overflow
  | .frozenField _ => .frozen
  | .rejected _ => .schema
  | .unreadableSetting _ => .settings

/-- The text that a cause carries, before the wording of its kind is applied. -/
def text : Cause → String
  | .raised _ t => t
  | .unknownStep s w => s!"Step {s} not found in workflow {w}"
  | .unknownTask n => s!"Task {n} not found"
  | .unknownAgent n => s!"Agent {n} not found"
  | .unknownExecution i => s!"Execution context {i} not found"
  | .uncovered required =>
    let names := String.intercalate ", " required
    "No agent found with required capabilities: " ++ (if names.isEmpty then "none" else names)
  | .repeatedStep s w => s!"Step {s} already defined in workflow {w}"
  | .repeatedTask n => s!"Task {n} already registered"
  | .repeatedAgent n => s!"Agent {n} already registered"
  | .negativeRetries s => s!"Step {s}: retries must be >= 0"
  | .negativeMaxRetries s => s!"Step {s}: max_retries must be >= 0"
  | .noSteps w => s!"Workflow {w} has no steps"
  | .blockedPath p w k => s!"Cannot write '{p}': '{w}' holds a {k}"
  | .badItems o k => s!"Map items from {o} must be a list, got {k}"
  | .unknownStepKind n => s!"Unknown step type: {n}"
  | .predicateFailed s r => s!"Condition of step {s} raised: {r}"
  | .retryPredicateFailed s r => s!"Retry condition of step {s} raised: {r}"
  | .inputNotMapping t => s!"Task {t} input must be a mapping"
  | .repliedTwice a => s!"Agent {a} replied more than once"
  | .neverReplied a => s!"Agent {a} finished without replying"
  | .reportedError a shown => s!"Agent {a} failed: {shown}"
  | .unknownChoice choice v => s!"{v} is not a valid {choice}"
  | .badInteger shown => "invalid literal for int() with base 10: " ++ shown
  | .longInteger n =>
    s!"Exceeds the limit (4300 digits) for integer string conversion: value has {n} digits; " ++
      "use sys.set_int_max_str_digits() to increase the limit"
  | .badFloat shown => s!"could not convert string to float: {shown}"
  | .notNumeric k => s!"float() argument must be a string or a real number, not '{k}'"
  | .integerTooLarge => "int too large to convert to float"
  | .powerTooLarge => "(34, 'Numerical result out of range')"
  | .timeUndefined => "cannot convert float NaN to integer"
  | .timeInfinite => "cannot convert float infinity to integer"
  | .dateTooLate => "date value out of range"
  | .spanTooLong days => s!"days={days}; must have magnitude <= 999999999"
  | .exceedsWord wide =>
    "Python int too large to convert to C " ++ (if wide then "ssize_t" else "int")
  | .noItemAssignment k => s!"'{k}' object does not support item assignment"
  | .noItemDeletion k => s!"'{k}' object does not support item deletion"
  | .textIndex => "list indices must be integers or slices, not str"
  | .frozenField f => s!"cannot assign to field '{f}'"
  | .unhashable k => s!"unhashable type: '{k}'"
  | .rejected m => m
  | .unreadableSetting m => m

/-- The message of a cause. -/
def message (c : Cause) : String := c.kind.wording c.text

end Cause

/-! ## Failures -/

/-- A failure that has happened: its cause, and a number that tells it from all others. -/
structure Failure where
  serial : Nat
  cause : Cause
  deriving DecidableEq, Repr

namespace Failure

/-- The kind of a failure. -/
def kind (f : Failure) : FailureKind := f.cause.kind

/-- The message of a failure. -/
def message (f : Failure) : String := f.cause.message

/-- Whether handlers of ordinary failures see it. -/
def isCatchable (f : Failure) : Bool := f.kind.isCatchable

/-- The failure as it is shown inside another value. -/
def shown (f : Failure) : String := f.kind.name ++ "(" ++ Text.quoted f.cause.text ++ ")"

end Failure

end Conductor
