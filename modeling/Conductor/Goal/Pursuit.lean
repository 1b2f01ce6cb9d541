import Conductor.Agent.Registry
import Conductor.Goal.Alias
import Conductor.Goal.Evaluation
import Conductor.Goal.Execution

/-!
# Pursuing goals

An attempt to reach a goal splits it into subtasks, hands them to agents strictly one after another,
puts the results together and evaluates them. Each agent sees the input together with what the
agents before it have found. An insufficient result is attempted again, with the result and its
evaluation as feedback, until the attempts are used up; a failure ends the pursuit at once.

Every attempt has an execution of its own, which is finished as completed or as failed.
-/

namespace Conductor

namespace Pursuit

/-- Where the progress of goals is logged. -/
def logger : String := "orchestration.orchestrator"

/-- The feedback for a further attempt. -/
def feedback : String := "Please improve on the previous attempt"

/-- The remark on a result that was not good enough in the end. -/
def warning : String := "This result did not meet all quality criteria"

/-- Everything that goals are pursued with. -/
structure Desk where
  call : Handlers
  settings : Goal.Settings
  scorer : Option (Ref .callable)
  /-- The tools that every agent gets. -/
  tools : Entries Value
  aliases : List Alias
  /-- The approach to every goal, if it is not to be chosen by the goal. -/
  analysis : Option Analysis

namespace Desk

/-- How results are scored. -/
def evaluator (δ : Desk) : Evaluation.Judge := ⟨δ.call, δ.settings, δ.scorer⟩

/-- Logs the progress of an execution. -/
def progress (δ : Desk) (e : Ref .execution) (message : String) : Routine Unit := do
  let id ← .read fun s => (s.get e).id
  .log (if δ.settings.verbose then .info else .debug) logger message [("task_id", .text id)]

/-! ## Splitting -/

/-- The texts in a list. -/
def textsOf (vs : List Value) : List String :=
  vs.filterMap fun v => match v with | .text t => some t | _ => none

/-- The capabilities that a goal asks for, if it says so. -/
def capabilitiesOf (s : Store) (g : Ref .goal) : Option (List String) :=
  (s.get g).capabilities.map fun r => textsOf (s.get r)

/-- The approach that fits a goal. -/
def defaultAnalysis (s : Store) (g : Ref .goal) : Analysis :=
  let named := (capabilitiesOf s g).getD []
  ⟨"medium", "5m", some .auto, if named.isEmpty then [Agent.general] else named⟩

/-- Chooses an approach to a goal. -/
def analyze (δ : Desk) (g : Ref .goal) : Routine Analysis :=
  match δ.analysis with
  | some a => pure a
  | none => .read fun s => defaultAnalysis s g

/-- The part of a goal that one capability is for. -/
def subtask (g : Ref .goal) (input : Entries Value) (capability : String) :
    Routine (Ref .goal) :=
  .modifyGet fun s =>
    let goal := s.get g
    let name := goal.name
    let (input, s) := s.newDict input
    let (required, s) := s.alloc (t := .sequence) [Value.text capability]
    let (criteria, s) := s.newDict []
    s.alloc ⟨s!"{name}_{capability}", s!"Handle {capability} aspect of {name}", goal.goal, input,
      goal.expected, some required, criteria, none⟩

/-- Splits a goal into one part for each capability that it asks for. With the automatic strategy a
goal with a single capability stays whole, and so does every goal without any. -/
def decompose (g : Ref .goal) (input : Entries Value) (strategy : Strategy) :
    Routine (List (Ref .goal)) := do
  let capabilities := ((← .read fun s => capabilitiesOf s g)).getD []
  if capabilities.isEmpty || (strategy == .auto && capabilities.length ≤ 1) then pure [g]
  else Routine.collect (subtask g input) capabilities

/-- The agent for a goal. -/
def agentFor (s : Store) (g : Ref .goal) : Except Cause (Ref .agent) :=
  s.agentCovering ((capabilitiesOf s g).getD [Agent.general])

/-! ## Handing out -/

/-- Names in a row, or a word that there are none. -/
def listed (names : List String) : String :=
  let text := Datum.joined ", " names
  if text.isEmpty then "none" else text

/-- What is known once a result has come in: a mapping adds its entries. -/
def learn (s : Store) (known : Entries Value) (result : Value) : Entries Value :=
  match s.mapping? result with
  | some es => Entries.insertAll known es
  | none => known

/-- Chooses the agent for a subtask, and notes it. -/
def choose (δ : Desk) (e : Ref .execution) (g : Ref .goal) : Routine (Ref .agent × Agent) := do
  let a ← .query fun s => agentFor s g
  let agent ← .read fun s => s.get a
  let name ← .read fun s => (s.get g).name
  .alter fun s => s.insert (s.get e).agents name (.text agent.name)
  let agentName := agent.name
  let covered := listed agent.capabilities
  δ.progress e s!"Selected agent {agentName} for subtask {name} (capabilities: {covered})"
  pure (a, agent)

/-- Files the result of a subtask, and gives what is known then. -/
def file (δ : Desk) (e : Ref .execution) (g : Ref .goal) (known : Entries Value) (result : Value) :
    Routine (Entries Value) := do
  let known ← .read fun s => learn s known result
  let name ← .modifyGet fun s =>
    let name := (s.get g).name
    (name, s.insert (s.get e).results name result)
  δ.progress e s!"Subtask {name} completed"
  pure known

/-- Hands one subtask to its agent, and gives the result with what is known then. -/
def handOut (δ : Desk) (e : Ref .execution) (g : Ref .goal) (known : Entries Value) :
    Routine (Value × Entries Value) := do
  let (a, agent) ← δ.choose e g
  let body ← .modifyGet fun s => s.newDict (s.normalize δ.aliases agent.capabilities known)
  let result ← Agent.execute δ.call a (.goal g) (.dict body) δ.tools
  let known ← δ.file e g known result
  pure (result, known)

/-- Hands out subtasks one after another. -/
def handOutAll (δ : Desk) (e : Ref .execution) (known : Entries Value) :
    List (Ref .goal) → Routine (List Value)
  | [] => pure []
  | g :: rest => do
    let (result, known) ← δ.handOut e g known
    let results ← δ.handOutAll e known rest
    pure (result :: results)

/-! ## Putting together -/

/-- The entries that one result adds to the whole. -/
def combine (s : Store) (whole : Entries Value) (part : String × Value) : Entries Value :=
  match s.mapping? part.2 with
  | some es => Entries.insertAll whole es
  | none => Entries.insert whole part.1 part.2

/-- The results of subtasks as one. A single result is the whole; the entries of several are put
into one dictionary, and a result without entries goes under the name of its subtask. -/
def aggregate (names : List String) (results : List Value) : Routine Value :=
  match results with
  | [single] => pure single
  | _ => .modifyGet fun s =>
    let (r, s) := s.newDict ((names.zip results).foldl (combine s) [])
    (.dict r, s)

/-! ## Judging -/

/-- The most attempts for a goal. -/
def budget (δ : Desk) (g : Goal) : Int := g.maxAttempts.getD δ.settings.maxAttempts

/-- A copy of a result with remarks on its quality. -/
def annotate (result : Value) (e : Ref .evaluation) : Routine Value := do
  let remarks ← Evaluation.dump e
  .modifyGet fun s =>
    let entries := (s.mapping? result).getD [("result", result)]
    let (r, s) := s.newDict
      (Entries.insertAll entries [("_warning", .text warning), ("_evaluation", remarks)])
    (.dict r, s)

/-- The input of a further attempt: the input with feedback on the attempt before. -/
def enhance (input : Value) (result : Value) (e : Ref .evaluation) : Routine Value := do
  let remarks ← Evaluation.dump e
  .modifyGet fun s =>
    let (previous, s) := s.newDict
      [("result", result), ("evaluation", remarks), ("feedback", .text feedback)]
    let entries := (s.mapping? input).getD []
    let (r, s) := s.newDict (Entries.insert entries "_previousAttempt" (.dict previous))
    (.dict r, s)

/-- Gives an insufficient result back with remarks. -/
def settleFor (r : Ref .execution) (goal : Goal) (result : Value) (e : Ref .evaluation) :
    Routine Value := do
  let attempt ← .read fun s => (s.get r).attempt
  let name := goal.name
  let remarks ← Evaluation.dump e
  let _ ← Execution.log r "warning"
    (s!"Task {name} didn't meet evaluation criteria after {attempt} attempts. " ++
      "Returning best result.") remarks
  annotate result e

/-- Starts a further attempt. -/
def tryAgain (r : Ref .execution) (g : Ref .goal) (input result : Value)
    (e : Ref .evaluation) : Routine Value := do
  let execution ← .read fun s => s.get r
  let name ← .read fun s => (s.get g).name
  let score ← .read fun s => ((s.get e).score).fixed 3
  let _ ← Execution.log r "info"
    s!"Retrying task {name} due to evaluation score: {score}" .null
  let input ← enhance input result e
  .call (.pursue g input (execution.attempt + 1) (some execution.id))

/-- Decides what becomes of a result. -/
def conclude (δ : Desk) (r : Ref .execution) (g : Ref .goal) (input result : Value)
    (e : Ref .evaluation) : Routine Value := do
  if ← .read fun s => (s.get e).passed then pure result
  else
    let goal ← .read fun s => s.get g
    let attempt ← .read fun s => (s.get r).attempt
    if δ.budget goal ≤ attempt then settleFor r goal result e
    else tryAgain r g input result e

/-! ## Attempts -/

/-- The names of goals. -/
def namesOf (s : Store) (gs : List (Ref .goal)) : List String := gs.map fun g => (s.get g).name

/-- Splits a goal by the approach to it, and notes the subtasks. -/
def plan (δ : Desk) (r : Ref .execution) (g : Ref .goal) (input : Entries Value) :
    Routine (List (Ref .goal)) := do
  let analysis ← δ.analyze g
  let subtasks ← decompose g input (analysis.strategy.getD δ.settings.strategy)
  let names ← .read fun s => namesOf s subtasks
  .alter fun s =>
    let (list, s) := s.alloc (t := .sequence) (names.map Value.text)
    s.update r fun e => { e with subtasks := list }
  let name ← .read fun s => (s.get g).name
  let count := subtasks.length
  let row := Datum.joined ", " names
  δ.progress r s!"Decomposed {name} into {count} subtasks: {row}"
  pure subtasks

/-- The part of an attempt in which things may go wrong. -/
def work (δ : Desk) (r : Ref .execution) (g : Ref .goal) (input : Value) : Routine Value := do
  HookName.goalStart.emit δ.call [.goal g, .execution r]
  let entries ← .read fun s => (s.mapping? input).getD []
  let subtasks ← δ.plan r g entries
  let known ← .read fun s => (s.mapping? input).getD []
  let results ← δ.handOutAll r known subtasks
  let names ← .read fun s => namesOf s subtasks
  let whole ← aggregate names results
  let e ← Evaluation.judge δ.evaluator g whole
  δ.conclude r g input whole e

/-- What happens after an attempt has failed. -/
def closeFailed (δ : Desk) (r : Ref .execution) (g : Ref .goal) (f : Failure) :
    Routine Value := do
  let data ← .modifyGet fun s => s.newDict [("error", .text f.shown)]
  let reason := f.message
  let _ ← Execution.log r "error" s!"Task failed: {reason}" (.dict data)
  Execution.finish r .failed
  HookName.goalError.emit δ.call [.goal g, .execution r, .failure f]
  .fail f

/-- What happens after an attempt has succeeded. -/
def closeCompleted (δ : Desk) (r : Ref .execution) (g : Ref .goal) (result : Value) :
    Routine Value := do
  Execution.finish r .completed
  HookName.goalEnd.emit δ.call [.goal g, .execution r, result]
  let name ← .read fun s => (s.get g).name
  δ.progress r s!"Task {name} completed"
  pure result

/-- Makes the execution of an attempt. -/
def openExecution (g : Ref .goal) (input : Entries Value) (attempt : Int)
    (parent : Option String) : Routine (Ref .execution) := do
  let name ← .read fun s => (s.get g).name
  let r ← Execution.start name input attempt parent
  let data ← .modifyGet fun s => s.newDict [("attempt", .int attempt)]
  let _ ← Execution.log r "info" s!"Starting task: {name}" (.dict data)
  Execution.setStatus r .running
  pure r

/-- Attempts to reach a goal. Without input the goal's own input is taken. -/
def pursue (δ : Desk) (g : Ref .goal) (input : Value) (attempt : Int)
    (parent : Option String) : Routine Value := do
  let goal ← .read fun s => s.get g
  let input := if input.isNull then .dict goal.input else input
  match ← .read fun s => s.mapping? input with
  | none => .raise (.inputNotMapping goal.name)
  | some entries =>
    let r ← openExecution g entries attempt parent
    match ← (δ.work r g input).attempt with
    | .error f => δ.closeFailed r g f
    | .ok v => δ.closeCompleted r g v

end Desk

end Pursuit

end Conductor
