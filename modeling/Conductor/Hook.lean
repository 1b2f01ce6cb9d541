import Conductor.Value

/-!
# Hooks

The named points at which user code is called during a run. Workflow hooks get the workflow and its
context, step hooks also the step, task hooks the task with its input and context, agent hooks the
agent with task and body, goal hooks the goal and its execution, and evaluation hooks the goal and
the result. A hook that closes something also gets the outcome.
-/

namespace Conductor

/-- The points at which hooks run. -/
inductive HookName where
  | workflowStart
  | workflowEnd
  | workflowError
  | stepStart
  | stepEnd
  | stepError
  | taskStart
  | taskEnd
  | taskError
  | agentExecute
  | agentComplete
  | agentError
  | goalStart
  | goalEnd
  | goalError
  | evaluationStart
  | evaluationEnd
  deriving DecidableEq, Repr

namespace HookName

/-- All points, in the order of their declaration. -/
def all : List HookName :=
  [.workflowStart, .workflowEnd, .workflowError, .stepStart, .stepEnd, .stepError, .taskStart,
    .taskEnd, .taskError, .agentExecute, .agentComplete, .agentError, .goalStart, .goalEnd,
    .goalError, .evaluationStart, .evaluationEnd]

/-- The name and the text of a point. -/
def label : HookName → String × String
  | .workflowStart => ("WORKFLOW_START", "onWorkflowStart")
  | .workflowEnd => ("WORKFLOW_END", "onWorkflowEnd")
  | .workflowError => ("WORKFLOW_ERROR", "onWorkflowError")
  | .stepStart => ("WORKFLOW_STEP_START", "onWorkflowStepStart")
  | .stepEnd => ("WORKFLOW_STEP_END", "onWorkflowStepEnd")
  | .stepError => ("WORKFLOW_STEP_ERROR", "onWorkflowStepError")
  | .taskStart => ("TASK_START", "onTaskStart")
  | .taskEnd => ("TASK_END", "onTaskEnd")
  | .taskError => ("TASK_ERROR", "onTaskError")
  | .agentExecute => ("AGENT_EXECUTE", "onAgentExecute")
  | .agentComplete => ("AGENT_EXECUTE_COMPLETE", "onAgentExecuteComplete")
  | .agentError => ("AGENT_EXECUTE_ERROR", "onAgentExecuteError")
  | .goalStart => ("ORCHESTRATOR_TASK_START", "onOrchestratorTaskStart")
  | .goalEnd => ("ORCHESTRATOR_TASK_END", "onOrchestratorTaskEnd")
  | .goalError => ("ORCHESTRATOR_TASK_ERROR", "onOrchestratorTaskError")
  | .evaluationStart => ("EVALUATION_START", "onEvaluationStart")
  | .evaluationEnd => ("EVALUATION_END", "onEvaluationEnd")

/-- The text of a point. -/
def text (h : HookName) : String := h.label.2

/-- The point as a member of its choice. -/
def symbol (h : HookName) : Symbol := ⟨"HookName", h.label.1, h.label.2⟩

/-- The point of a given text. -/
def ofText? (s : String) : Option HookName := all.find? fun h => h.text == s

end HookName

/-- The hooks at every point, in the order of their registration. -/
abbrev HookTable := List (HookName × Ref .callable)

namespace HookTable

/-- The hooks at one point, in the order of their registration. -/
def under (t : HookTable) (name : HookName) : List (Ref .callable) :=
  t.filterMap fun (n, c) => if n = name then some c else none

/-- Registers a hook after all others. -/
def add (t : HookTable) (name : HookName) (c : Ref .callable) : HookTable := t ++ [(name, c)]

end HookTable

end Conductor
