import Conductor.Clock
import Conductor.Goal.Settings
import Conductor.Schema.Reader
import Conductor.Store.Data

/-!
# Goals as data

A form is a goal as it is given or shown: plain data that has been checked. `Form.place` puts it
into a store, where its input and criteria become cells of their own, and `Store.goalForm` shows a
goal as it is now. The other models of goals are read and shown here as well.
-/

namespace Conductor

/-! ## Criteria and hints -/

namespace Criterion

/-- Reads a criterion. -/
def read : Schema.Reader Criterion :=
  Schema.model "EvaluationCriterion" fun es =>
    .part ((Schema.required "description" Schema.text es).map Criterion.mk)
      (Schema.field "threshold" (Schema.optional Schema.fraction) none es)

/-- The fields of a criterion. -/
def fields (c : Criterion) : Datum :=
  .dict [("description", .text c.description), ("threshold", c.threshold.elim .null .float)]

end Criterion

/-- Hints on the shape of a result, as data. -/
structure ExpectedForm where
  schema : Datum
  sample : Datum
  deriving Inhabited

namespace ExpectedForm

/-- The name under which the shape is given, beside its own. -/
def schemaAlias : String := "schema"

/-- Reads hints; the shape may be given under either of its names. -/
def read : Schema.Reader ExpectedForm :=
  Schema.model "ExpectedOutput" fun es =>
    let name := if (es.lookup schemaAlias).isSome then schemaAlias else "output_schema"
    .part ((Schema.field name Schema.anything .null es).map ExpectedForm.mk)
      (Schema.field "example" Schema.anything .null es)

/-- The fields of hints, with the shape under the name given. -/
def fields (schemaName : String) (e : ExpectedForm) : Datum :=
  .dict [(schemaName, e.schema), ("example", e.sample)]

end ExpectedForm

/-! ## Goals -/

/-- A goal as data. -/
structure GoalForm where
  name : String
  description : String
  goal : String
  input : List (String × Datum)
  expected : Option ExpectedForm
  capabilities : Option (List String)
  criteria : List (String × Criterion)
  maxAttempts : Option Nat
  deriving Inhabited

namespace GoalForm

/-- Reads the fields of a goal. -/
def readFields (es : List (String × Datum)) : Schema.Checked GoalForm :=
  let attempts := Schema.positive (.atLeast 1)
  .part (.part (.part (.part (.part (.part (.part
    ((Schema.required "name" Schema.text es).map GoalForm.mk)
    (Schema.field "description" Schema.text "" es))
    (Schema.field "goal" Schema.text "" es))
    (Schema.field "input" (Schema.dictionary Schema.anything) [] es))
    (Schema.field "expected_output" (Schema.optional ExpectedForm.read) none es))
    (Schema.field "required_capabilities" (Schema.optional (Schema.list Schema.text)) none es))
    (Schema.field "evaluation_criteria" (Schema.dictionary Criterion.read) [] es))
    ((Schema.field "max_attempts" (Schema.optional attempts) none es).map fun n =>
      n.map Subtype.val)

/-- Reads a goal. -/
def read : Schema.Reader GoalForm := Schema.model "TaskDefinition" readFields

/-- The criteria of a goal as rows of a name and a criterion. -/
def criteriaRows (cs : List (String × Criterion)) : Datum :=
  .list (cs.map fun (name, c) => .list [.text name, c.fields])

/-- The fields of a goal. -/
def fields (g : GoalForm) : List (String × Datum) :=
  [("name", .text g.name), ("description", .text g.description), ("goal", .text g.goal),
    ("input", .dict g.input),
    ("expected_output", g.expected.elim .null (ExpectedForm.fields ExpectedForm.schemaAlias)),
    ("required_capabilities", g.capabilities.elim .null fun cs => .list (cs.map .text)),
    ("evaluation_criteria", criteriaRows g.criteria),
    ("max_attempts", g.maxAttempts.elim .null fun n => .int n)]

/-- Puts criteria into the store, one after another. -/
def placeCriteria (s : Store) : List (String × Criterion) → Entries Value × Store
  | [] => ([], s)
  | (name, c) :: rest =>
    let (r, s) := s.alloc (t := .criterion) c
    let (es, s) := placeCriteria s rest
    ((name, .criterion r) :: es, s)

/-- Puts hints into the store. -/
def placeExpected (s : Store) : Option ExpectedForm → Option (Ref .expected) × Store
  | none => (none, s)
  | some e =>
    let (schema, s) := s.build e.schema
    let (sample, s) := s.build e.sample
    let (r, s) := s.alloc (t := .expected) ⟨schema, sample⟩
    (some r, s)

/-- Puts a list of capabilities into the store. -/
def placeCapabilities (s : Store) : Option (List String) → Option (Ref .sequence) × Store
  | none => (none, s)
  | some cs =>
    let (r, s) := s.alloc (t := .sequence) (cs.map Value.text)
    (some r, s)

/-- Puts a goal into the store. -/
def place (s : Store) (g : GoalForm) : Ref .goal × Store :=
  let (input, s) := s.buildEntries g.input
  let (input, s) := s.newDict input
  let (expected, s) := placeExpected s g.expected
  let (capabilities, s) := placeCapabilities s g.capabilities
  let (criteria, s) := placeCriteria s g.criteria
  let (criteria, s) := s.newDict criteria
  s.alloc ⟨g.name, g.description, g.goal, input, expected, capabilities, criteria,
    g.maxAttempts.map Int.ofNat⟩

end GoalForm

namespace Store

/-- The criterion that a value stands for. -/
def criterionOf (s : Store) : Value → Criterion
  | .criterion r => s.get r
  | _ => default

/-- A goal as it is now. -/
def goalForm (s : Store) (r : Ref .goal) : GoalForm :=
  let g := s.get r
  let texts (r : Ref .sequence) : List String :=
    (s.get r).filterMap fun v => match v with | .text t => some t | _ => none
  { name := g.name, description := g.description, goal := g.goal
    input := (s.get g.input).map fun (k, v) => (k, s.snapshot v)
    expected := g.expected.map fun e =>
      ⟨s.snapshot (s.get e).schema, s.snapshot (s.get e).sample⟩
    capabilities := g.capabilities.map texts
    criteria := (s.get g.criteria).map fun (k, v) => (k, s.criterionOf v)
    maxAttempts := g.maxAttempts.map Int.toNat }

end Store

/-! ## Approaches and evaluations -/

namespace Analysis

/-- Reads an approach. -/
def read : Schema.Reader Analysis :=
  Schema.model "TaskAnalysis" fun es =>
    let strategy := Schema.choice true (Strategy.all.map fun s => (s.symbol.value, s))
    .part (.part (.part ((Schema.field "complexity" Schema.text "medium" es).map Analysis.mk)
      (Schema.field "estimated_time" Schema.text "5m" es))
      (Schema.field "decomposition_strategy" (Schema.optional strategy) (some .auto) es))
      (Schema.field "suggested_capabilities" (Schema.list Schema.text) [] es)

/-- The fields of an approach. -/
def fields (a : Analysis) : Datum :=
  .dict [("complexity", .text a.complexity), ("estimated_time", .text a.estimatedTime),
    ("decomposition_strategy", a.strategy.elim .null fun s => .symbol s.symbol),
    ("suggested_capabilities", .list (a.capabilities.map .text))]

end Analysis

/-- The outcome of scoring a result, as data. -/
structure EvaluationForm where
  passed : Bool
  score : Binary64
  criteria : List (String × Binary64)
  unmet : List String
  deriving Inhabited

namespace EvaluationForm

/-- Reads an evaluation. -/
def read : Schema.Reader EvaluationForm :=
  Schema.model "Evaluation" fun es =>
    .part (.part (.part ((Schema.required "passed" Schema.truth es).map EvaluationForm.mk)
      (Schema.required "score" Schema.number es))
      (Schema.field "criteria" (Schema.dictionary Schema.number) [] es))
      (Schema.field "unmet" (Schema.list Schema.text) [] es)

/-- The fields of an evaluation. -/
def fields (e : EvaluationForm) : Datum :=
  .dict [("passed", .bool e.passed), ("score", .float e.score),
    ("criteria", .dict (e.criteria.map fun (k, x) => (k, .float x))),
    ("unmet", .list (e.unmet.map .text))]

end EvaluationForm

/-! ## Executions -/

/-- An execution as data. -/
structure ExecutionForm where
  id : String
  parent : Option String
  attempt : Int
  input : Datum
  results : List (String × Datum)
  subtasks : List String
  agents : List (String × String)
  status : Status
  deriving Inhabited

namespace ExecutionForm

/-- Reads an execution. -/
def read : Schema.Reader ExecutionForm :=
  Schema.model "ExecutionContext" fun es =>
    let status := Schema.choice true (Status.all.map fun s => (s.symbol.value, s))
    .part (.part (.part (.part (.part (.part (.part
      ((Schema.required "task_id" Schema.text es).map ExecutionForm.mk)
      (Schema.field "parent_task_id" (Schema.optional Schema.text) none es))
      (Schema.field "attempt" Schema.integer 1 es))
      (Schema.field "input" Schema.anything .null es))
      (Schema.field "intermediate_results" (Schema.dictionary Schema.anything) [] es))
      (Schema.field "subtasks" (Schema.list Schema.text) [] es))
      (Schema.field "agents" (Schema.dictionary Schema.text) [] es))
      (Schema.field "status" status .pending es)

/-- Puts an execution into the store that starts at a point in time. It is not kept in the
history. -/
def place (s : Store) (moment : Int) (e : ExecutionForm) : Ref .execution × Store :=
  let (input, s) := s.build e.input
  let (results, s) := s.buildEntries e.results
  let (results, s) := s.newDict results
  let (logs, s) := s.alloc (t := .sequence) []
  let (subtasks, s) := s.alloc (t := .sequence) (e.subtasks.map Value.text)
  let (agents, s) := s.newDict (e.agents.map fun (k, v) => (k, .text v))
  s.alloc ⟨e.id, e.parent, e.attempt, moment, none, input, results, logs, subtasks, agents,
    e.status⟩

end ExecutionForm

end Conductor
