import Conductor.Workflow.Step

/-!
# Workflows and their contexts

A workflow is an immutable graph of steps. A context is the record of one run: the input, what the
steps recorded, the output that tasks accumulate, and the failures met on the way.
-/

namespace Conductor

/-- A graph of steps. Steps are found by their id; their order carries no meaning. -/
structure Workflow where
  id : String
  name : String
  steps : Entries Step
  entrypoint : String
  description : Value
  inputSchema : Value
  outputSchema : Value
  tags : List String
  onCompleted : List (Ref .callable)
  onError : List (Ref .callable)

instance : Inhabited Workflow := ⟨⟨"", "", [], "", .null, .null, .null, [], [], []⟩⟩

namespace Workflow

/-- The step of a given id. -/
def step (w : Workflow) (id : String) : Except Cause Step :=
  match Entries.get? w.steps id with
  | some s => .ok s
  | none => .error (.unknownStep id w.id)

/-- A copy in which a step takes the place of the step of its id. -/
def withStep (w : Workflow) (s : Step) : Workflow :=
  { w with steps := Entries.insert w.steps s.id s }

end Workflow

/-- The record of one run. Times are in microseconds. -/
structure Context where
  input : Value
  steps : Ref .results
  output : Ref .dict
  currentStep : Option String
  errors : Ref .dict
  startTime : Int
  endTime : Option Int
  metadata : Ref .dict
  result : Value

instance : Inhabited Context := ⟨⟨.null, default, default, none, default, 0, none, default, .null⟩⟩

end Conductor
