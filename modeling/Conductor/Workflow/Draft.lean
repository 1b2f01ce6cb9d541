import Conductor.Failure
import Conductor.Workflow.Definition

/-!
# Drafts of workflows

A draft collects the parts of a workflow step by step. A part that does not fit is refused with its
cause, and the draft stays as it was. Successors, branches and task names are not looked up before
the workflow runs; only linking steps to each other asks that both are declared.

`Draft.build` freezes what has been collected. The entrypoint is the one that was given, else the
first step.
-/

namespace Conductor

/-- A workflow in the making. -/
structure Draft where
  id : String
  name : String
  steps : Entries Step
  entrypoint : Option String
  description : Value
  inputSchema : Value
  outputSchema : Value
  tags : List String
  onCompleted : List (Ref .callable)
  onError : List (Ref .callable)
  deriving Inhabited

namespace Draft

/-- A draft without steps. Without a name the workflow is named by its id. -/
def start (id : String) (name : Option String) : Draft :=
  let name := name.getD ""
  ⟨id, if name.isEmpty then id else name, [], none, .null, .null, .null, [], [], []⟩

/-- Adds a step under a new id. -/
def add (d : Draft) (s : Step) : Except Cause Draft :=
  if Entries.has d.steps s.id then .error (.repeatedStep s.id d.id)
  else .ok { d with steps := Entries.insert d.steps s.id s }

/-- A declared step. -/
def step (d : Draft) (id : String) : Except Cause Step :=
  match Entries.get? d.steps id with
  | some s => .ok s
  | none => .error (.unknownStep id d.id)

/-- Sets the successor of a declared step. -/
def follow (d : Draft) (id : String) (next : Successor) : Except Cause Draft := do
  let s ← d.step id
  .ok { d with steps := Entries.insert d.steps id (s.withNext next) }

/-- Links each step to the next one in a row. -/
def link (d : Draft) : List String → Except Cause Draft
  | a :: b :: rest => do
    let d ← d.follow a (.one b)
    link d (b :: rest)
  | _ => .ok d

/-- Links declared steps in a row. Unless an entrypoint has been set it is the first of them. -/
def sequence (d : Draft) (ids : List String) : Except Cause Draft :=
  match ids with
  | [] => .ok d
  | first :: _ => do
    ids.forM fun id => (d.step id).map fun _ => ()
    let d ← d.link ids
    .ok { d with entrypoint := d.entrypoint.or (some first) }

/-- Sets the entrypoint. -/
def entry (d : Draft) (id : String) : Draft := { d with entrypoint := some id }

/-- The entrypoint of what has been collected, given the first step. -/
def chosenEntry (d : Draft) (first : String) : String :=
  match d.entrypoint with
  | some id => if id.isEmpty then first else id
  | none => first

/-- Freezes what has been collected into a workflow. -/
def build (d : Draft) : Except Cause Workflow :=
  match d.steps with
  | [] => .error (.noSteps d.id)
  | (first, _) :: _ =>
    .ok ⟨d.id, d.name, d.steps, d.chosenEntry first, d.description, d.inputSchema, d.outputSchema,
      d.tags, d.onCompleted, d.onError⟩

end Draft

end Conductor
