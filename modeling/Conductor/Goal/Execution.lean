import Conductor.Clock
import Conductor.Goal.Model
import Conductor.Hook.Emission
import Conductor.Text.Case

/-!
# Executions in the store

An execution is made with a fresh id, kept in the history, and finished with a status. What it logs
is kept with it and also goes to the journal, at the level that the name of the entry's level stands
for.
-/

namespace Conductor

namespace LogLevel

/-- What the name of a level stands for. -/
inductive Named where
  | level (l : LogLevel)
  /-- The level below all others, at which nothing is logged. -/
  | silent
  /-- Something that is not a level. -/
  | unusable
  deriving DecidableEq, Repr

/-- The names of levels in upper case. -/
def named : List (String × Named) :=
  [("DEBUG", .level .debug), ("INFO", .level .info), ("WARNING", .level .warning),
    ("WARN", .level .warning), ("ERROR", .level .error), ("CRITICAL", .level .critical),
    ("FATAL", .level .critical), ("NOTSET", .silent), ("BASIC_FORMAT", .unusable),
    ("_STYLES", .unusable)]

/-- What a name stands for, in any case of its letters. An unknown name stands for information. -/
def ofText (name : String) : Named := (named.lookup (Text.upper name)).getD (.level .info)

end LogLevel

namespace Execution

/-- Where the logs of executions go. -/
def logger : String := "orchestration.models"

/-- The id of the execution of a given number. -/
def idOf (goal : String) (number : Nat) : String :=
  s!"{goal}-" ++ String.ofList (Text.hex 12 number)

/-- Puts an execution into the store that starts at a point in time. -/
def alloc (s : Store) (id : String) (parent : Option String) (attempt moment : Int)
    (input : Value) : Ref .execution × Store :=
  let (results, s) := s.newDict []
  let (logs, s) := s.alloc (t := .sequence) []
  let (subtasks, s) := s.alloc (t := .sequence) []
  let (agents, s) := s.newDict []
  s.alloc ⟨id, parent, attempt, moment, none, input, results, logs, subtasks, agents, .pending⟩

/-- Makes an execution with a fresh id and its own copy of the input, and keeps it. -/
def start (goal : String) (input : Entries Value) (attempt : Int) (parent : Option String) :
    Routine (Ref .execution) := do
  let number ← .modifyGet fun s =>
    let number := s.executionCount + 1
    (number, { s with executionCount := number })
  let moment ← .query Store.now
  .modifyGet fun s =>
    let id := idOf goal number
    let (input, s) := s.newDict input
    let (r, s) := alloc s id parent attempt moment (.dict input)
    (r, { s with history := Entries.insert s.history id r })

/-- Adds an entry to the log of an execution. -/
def append (r : Ref .execution) (level message : String) (data : Value) :
    Routine (Ref .entry) := do
  let moment ← .query Store.now
  .modifyGet fun s =>
    let (entry, s) := s.alloc (t := .entry) ⟨moment, level, message, data⟩
    (entry, s.update (s.get r).logs fun es => es ++ [.entry entry])

/-- Logs something. -/
def log (r : Ref .execution) (level message : String) (data : Value) :
    Routine (Ref .entry) := do
  let entry ← append r level message data
  let e ← .read fun s => s.get r
  match LogLevel.ofText level with
  | .level l =>
    .log l logger message [("task_id", .text e.id), ("attempt", .int e.attempt)]
    pure entry
  | .silent => pure entry
  | .unusable => .raise (.raised .badType "level must be an integer")

/-- Sets the status of an execution. -/
def setStatus (r : Ref .execution) (status : Status) : Routine Unit :=
  .alter fun s => s.update r fun e => { e with status }

/-- Finishes an execution. -/
def finish (r : Ref .execution) (status : Status) : Routine Unit := do
  setStatus r status
  let moment ← .query Store.now
  .alter fun s => s.update r fun e => { e with endTime := some moment }

end Execution

namespace Store

/-- The kept execution of a given id. -/
def execution (s : Store) (id : String) : Except Cause (Ref .execution) :=
  match Entries.get? s.history id with
  | some r => .ok r
  | none => .error (.unknownExecution id)

/-- Forgets the kept executions, and tells how many there were. -/
def clearHistory (s : Store) : Nat × Store := (s.history.length, { s with history := [] })

end Store

end Conductor
