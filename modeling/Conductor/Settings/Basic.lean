import Conductor.Goal.Settings
import Conductor.Schema.Reader
import Conductor.Settings.Source
import Conductor.Workflow.Settings

/-!
# Settings

The settings of a whole program: logging, workflows and goals. The settings of workflows and goals
are classes of their own with variables of their own, which count also where they are part of the
whole.
-/

namespace Conductor

/-- The name of each strategy with the strategy. -/
def Strategy.options : List (String × Strategy) := Strategy.all.map fun s => (s.symbol.value, s)

/-! ## Workflows -/

namespace Workflow.Settings

/-- The variables of workflow settings. -/
def layout : Settings.Layout :=
  ⟨"ORCHESTRATOR_WORKFLOW_",
    [⟨"map_concurrency", none⟩, ⟨"retry_step_delay", none⟩, ⟨"retry_step_backoff", none⟩]⟩

/-- Settings with a number of items that is known to be positive. -/
def make (n : { n : Nat // 0 < n }) (delay backoff : Binary64) : Settings :=
  ⟨n.val, delay, backoff, n.property⟩

/-- Checks the values of fields. -/
def check (es : List (String × Datum)) : Schema.Checked Settings :=
  let concurrency := Schema.positive (.above 0)
  .part (.part
    ((Schema.field "map_concurrency" concurrency usualConcurrency es).map make)
    (Schema.field "retry_step_delay" (Schema.atLeast 0 Schema.number) Binary64.one es))
    (Schema.field "retry_step_backoff" (Schema.atLeast 1 Schema.number) Binary64.one es)

/-- The fields of workflow settings. -/
def fields (s : Settings) : Datum :=
  .dict [("map_concurrency", .int s.mapConcurrency), ("retry_step_delay", .float s.retryDelay),
    ("retry_step_backoff", .float s.retryBackoff)]

end Workflow.Settings

/-! ## Goals -/

namespace Goal.Settings

/-- The variables of goal settings. -/
def layout : Conductor.Settings.Layout :=
  ⟨"ORCHESTRATOR_EVALUATION_",
    [⟨"enabled", none⟩, ⟨"threshold", none⟩, ⟨"max_retries", none⟩, ⟨"default_strategy", none⟩,
      ⟨"verbose", none⟩]⟩

/-- Settings with a number of attempts that is known to be positive. -/
def make (enabled : Bool) (threshold : Binary64) (n : { n : Nat // 0 < n }) (strategy : Strategy)
    (verbose : Bool) : Settings :=
  ⟨enabled, threshold, n.val, strategy, verbose, n.property⟩

/-- Checks the values of fields. -/
def check (es : List (String × Datum)) : Schema.Checked Settings :=
  let attempts := Schema.positive (.atLeast 1)
  let strategy := Schema.choice false Strategy.options
  .part (.part (.part (.part ((Schema.field "enabled" Schema.truth true es).map make)
    (Schema.field "threshold" Schema.fraction usualThreshold es))
    (Schema.field "max_retries" attempts usualAttempts es))
    (Schema.field "default_strategy" strategy .auto es))
    (Schema.field "verbose" Schema.truth false es)

/-- The fields of goal settings. -/
def fields (s : Settings) : Datum :=
  .dict [("enabled", .bool s.enabled), ("threshold", .float s.threshold),
    ("max_retries", .int s.maxAttempts), ("default_strategy", .text s.strategy.symbol.value),
    ("verbose", .bool s.verbose)]

end Goal.Settings

/-! ## All together -/

/-- The settings of a whole program. -/
structure Settings where
  logLevel : String
  debug : Bool
  jsonLogs : Bool
  workflow : Workflow.Settings
  goals : Goal.Settings
  deriving Inhabited

namespace Settings

/-- The names of the fields in a layout. -/
def Layout.names (l : Layout) : List String := l.fields.map Field.name

/-- The variables of the settings of a whole program. -/
def layout : Layout :=
  ⟨"ORCHESTRATOR_",
    [⟨"log_level", none⟩, ⟨"debug", none⟩, ⟨"json_logs", none⟩,
      ⟨"workflow", some Workflow.Settings.layout.names⟩,
      ⟨"evaluation", some Goal.Settings.layout.names⟩]⟩

/-- A field that holds settings: its entries count before their own variables, and without it only
those count. -/
def innerField {α : Type} (name model : String)
    (read : List (String × Datum) → Except Cause (Schema.Checked α))
    (es : List (String × Datum)) : Except Cause (Schema.Checked α) :=
  match es.lookup name with
  | none => read []
  | some (.dict given) => (read given).map (Schema.Checked.within name)
  | some _ => .ok (.within name (.broken (.model model)))

/-- Reads workflow settings. -/
def readWorkflow (sources : Sources) (given : List (String × Datum)) :
    Except Cause (Schema.Checked Workflow.Settings) :=
  (gather Workflow.Settings.layout sources given).map Workflow.Settings.check

/-- Reads goal settings. -/
def readGoals (sources : Sources) (given : List (String × Datum)) :
    Except Cause (Schema.Checked Goal.Settings) :=
  (gather Goal.Settings.layout sources given).map Goal.Settings.check

/-- Whether a field is left to its default and the default has faults. Such faults count alone. -/
def defaultFaults {α : Type} (name : String) (es : List (String × Datum))
    (a : Schema.Checked α) : Option (List Schema.Fault) :=
  match es.lookup name, a with
  | none, .error fs => some fs
  | _, _ => none

/-- Puts the settings of a whole program together. -/
def assemble (es : List (String × Datum)) (workflow : Schema.Checked Workflow.Settings)
    (goals : Schema.Checked Goal.Settings) : Schema.Checked Settings :=
  match (defaultFaults "workflow" es workflow).or (defaultFaults "evaluation" es goals) with
  | some fs => .error fs
  | none =>
    .part (.part (.part (.part
      ((Schema.field "log_level" Schema.text "INFO" es).map Settings.mk)
      (Schema.field "debug" Schema.truth false es))
      (Schema.field "json_logs" Schema.truth true es)) workflow) goals

/-- Reads the settings of a whole program. -/
def read (sources : Sources) (given : List (String × Datum)) :
    Except Cause (Schema.Checked Settings) := do
  let es ← gather layout sources given
  let workflow ← innerField "workflow" "WorkflowConfig" (readWorkflow sources) es
  let goals ← innerField "evaluation" "EvaluationConfig" (readGoals sources) es
  .ok (assemble es workflow goals)

/-- The fields of the settings of a whole program. -/
def fields (s : Settings) : Datum :=
  .dict [("log_level", .text s.logLevel), ("debug", .bool s.debug),
    ("json_logs", .bool s.jsonLogs), ("workflow", s.workflow.fields),
    ("evaluation", s.goals.fields)]

/-- Settings or the cause why there are none. -/
def require {α : Type} (a : Except Cause (Schema.Checked α)) : Except Cause α :=
  a.bind Schema.Checked.toCause

end Settings

end Conductor
