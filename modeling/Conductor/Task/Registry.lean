import Conductor.Hook.Emission

/-!
# Registered tasks

Tasks are registered under distinct names and found by them. Running a task calls its handler
between two hooks: one at the start, and one at the end that gets the result or the failure.
-/

namespace Conductor

namespace Store

/-- The registered task of a given name. -/
def task (s : Store) (name : String) : Except Cause (Ref .task) :=
  match Entries.get? s.taskRegistry name with
  | some t => .ok t
  | none => .error (.unknownTask name)

end Store

namespace Task

/-- Registers a task under a new name. -/
def register (t : Task) : Routine (Ref .task) := do
  if ← .read fun s => Entries.has s.taskRegistry t.name then .raise (.repeatedTask t.name)
  else
    let r ← .modifyGet fun s =>
      let (r, s) := s.alloc (t := .task) t
      (r, { s with taskRegistry := Entries.insert s.taskRegistry t.name r })
    .log .debug registryLogger "task_registered" [("task", .text t.name)]
    pure r

/-- Runs a task. -/
def execute (call : Handlers) (r : Ref .task) (input context : Value) : Routine Value := do
  HookName.taskStart.emit call [.task r, input, context]
  let handler ← .read fun s => (s.get r).handler
  match ← (call handler [input, context]).attempt with
  | .error f =>
    HookName.taskError.emit call [.task r, input, context, .failure f]
    .fail f
  | .ok v =>
    HookName.taskEnd.emit call [.task r, input, context, v]
    pure v

/-- Finds a task by its name and runs it. -/
def executeNamed (call : Handlers) (name : String) (input context : Value) : Routine Value := do
  let r ← .query fun s => s.task name
  execute call r input context

end Task

end Conductor
