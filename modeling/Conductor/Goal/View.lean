import Conductor.Goal.Form
import Conductor.Workflow.View

/-!
# Views of executions

What executions and evaluations look like as data. Times are shown in seconds.
-/

namespace Conductor.Store

/-- A point in time in seconds. -/
def timeView (microseconds : Int) : Datum := .float (Binary64.ofMicroseconds microseconds)

/-- A line in the log of an execution. -/
def entryView (s : Store) : Value → Datum
  | .entry r =>
    let e := s.get r
    .list [timeView e.time, .text e.level, .text e.message, s.snapshot e.data]
  | v => s.snapshot v

/-- The fields of an execution. -/
def executionView (s : Store) (r : Ref .execution) : Datum :=
  let e := s.get r
  .dict [("task_id", .text e.id), ("parent_task_id", textOrNull e.parent),
    ("attempt", .int e.attempt), ("status", .symbol e.status.symbol),
    ("input", s.snapshot e.input), ("subtasks", s.snapshot (.list e.subtasks)),
    ("agents", .ofPairs (s.snapshots (s.get e.agents))),
    ("intermediate_results", .ofPairs (s.snapshots (s.get e.results))),
    ("logs", .list ((s.get e.logs).map s.entryView)), ("start", timeView e.startTime),
    ("end", e.endTime.elim .null timeView)]

/-- The fields of an evaluation, with its scores in order. -/
def evaluationView (s : Store) (r : Ref .evaluation) : Datum :=
  let e := s.get r
  .dict [("passed", .bool e.passed), ("score", .float e.score),
    ("criteria", .ofPairs (s.snapshots (s.get e.criteria))),
    ("unmet", .list ((s.get e.unmet).map s.snapshot))]

/-- The fields of a goal. -/
def goalView (s : Store) (r : Ref .goal) : Datum := .dict (s.goalForm r).fields

end Conductor.Store
