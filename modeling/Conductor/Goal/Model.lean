import Conductor.Value

/-!
# Goals and their executions

A goal is a task at the level of what is wanted: its input, the capabilities that it needs, and the
criteria that its result is scored by. Each attempt to reach a goal has an execution of its own,
which records the subtasks, the agents chosen for them, their results, and a log.
-/

namespace Conductor

/-- A named quality of a result, with the least score that meets it. -/
structure Criterion where
  description : String
  threshold : Option Binary64

instance : Inhabited Criterion := ⟨⟨"", none⟩⟩

/-- Hints on the shape of a result. -/
structure Expected where
  schema : Value
  sample : Value

instance : Inhabited Expected := ⟨⟨.null, .null⟩⟩

/-- What is wanted. Without capabilities a general agent is asked for; an empty list of them is
covered by every agent. The number of attempts counts the first one. -/
structure Goal where
  name : String
  description : String
  goal : String
  input : Ref .dict
  expected : Option (Ref .expected)
  capabilities : Option (Ref .sequence)
  criteria : Ref .dict
  maxAttempts : Option Int

instance : Inhabited Goal := ⟨⟨"", "", "", default, none, none, default, none⟩⟩

/-- How a goal is split into subtasks. -/
inductive Strategy where
  | sequential
  | parallel
  | recursive
  | auto
  deriving DecidableEq, Repr, Inhabited

namespace Strategy

/-- All strategies. -/
def all : List Strategy := [.sequential, .parallel, .recursive, .auto]

/-- A strategy as a member of its choice. -/
def symbol (s : Strategy) : Symbol :=
  match s with
  | .sequential => ⟨"DecompositionStrategy", "SEQUENTIAL", "sequential"⟩
  | .parallel => ⟨"DecompositionStrategy", "PARALLEL", "parallel"⟩
  | .recursive => ⟨"DecompositionStrategy", "RECURSIVE", "recursive"⟩
  | .auto => ⟨"DecompositionStrategy", "AUTO", "auto"⟩

/-- The strategy of a given text. -/
def ofText? (t : String) : Option Strategy := all.find? fun s => s.symbol.value == t

end Strategy

/-- How an execution stands. -/
inductive Status where
  | pending
  | running
  | completed
  | failed
  deriving DecidableEq, Repr, Inhabited

namespace Status

/-- All states. -/
def all : List Status := [.pending, .running, .completed, .failed]

/-- A state as a member of its choice. -/
def symbol (s : Status) : Symbol :=
  match s with
  | .pending => ⟨"ExecutionStatus", "PENDING", "pending"⟩
  | .running => ⟨"ExecutionStatus", "RUNNING", "running"⟩
  | .completed => ⟨"ExecutionStatus", "COMPLETED", "completed"⟩
  | .failed => ⟨"ExecutionStatus", "FAILED", "failed"⟩

/-- The state of a given text. -/
def ofText? (t : String) : Option Status := all.find? fun s => s.symbol.value == t

end Status

/-- An approach to a goal. -/
structure Analysis where
  complexity : String
  estimatedTime : String
  strategy : Option Strategy
  capabilities : List String
  deriving Inhabited

/-- The outcome of scoring a result. `unmet` lists the criteria whose own threshold was missed; only
the average decides whether the result passed. -/
structure Evaluation where
  passed : Bool
  score : Binary64
  criteria : Ref .dict
  unmet : Ref .sequence

instance : Inhabited Evaluation := ⟨⟨true, Binary64.one, default, default⟩⟩

/-- A line in the log of an execution. The time is in microseconds. -/
structure LogEntry where
  time : Int
  level : String
  message : String
  data : Value

instance : Inhabited LogEntry := ⟨⟨0, "", "", .null⟩⟩

/-- One attempt to reach a goal. An attempt that follows an insufficient one names it as its
parent. -/
structure Execution where
  id : String
  parent : Option String
  attempt : Int
  startTime : Int
  endTime : Option Int
  input : Value
  results : Ref .dict
  logs : Ref .sequence
  subtasks : Ref .sequence
  agents : Ref .dict
  status : Status

instance : Inhabited Execution :=
  ⟨⟨"", none, 1, 0, none, .null, default, default, default, default, .pending⟩⟩

end Conductor
