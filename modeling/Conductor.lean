import Conductor.Goal.View
import Conductor.Log.Setup
import Conductor.Main
import Conductor.Script.Run
import Conductor.Workflow.Form
import Conductor.Proofs.Routine.Tame
import Conductor.Proofs.Schedule.Balance
import Conductor.Proofs.Schedule.Joining
import Conductor.Proofs.Schedule.Stepping
import Conductor.Proofs.Schedule.Quiet
import Conductor.Proofs.Schedule.Ownership
import Conductor.Proofs.Schedule.Frame
import Conductor.Proofs.Schedule.Session
import Conductor.Proofs.Schedule.Lines
import Conductor.Proofs.Schedule.Progress
import Conductor.Proofs.Schedule.Settling
import Conductor.Proofs.Routine.Terms
import Conductor.Proofs.Routine.Visiting
import Conductor.Proofs.Routine.Conduct
import Conductor.Proofs.Schedule.Course
import Conductor.Proofs.Schedule.Contract
import Conductor.Proofs.Store.Deep
import Conductor.Proofs.Store.Writing
import Conductor.Proofs.Workflow.Recorded
import Conductor.Proofs.Account.Run
import Conductor.Proofs.Account.Outline
import Conductor.Proofs.Account.History
import Conductor.Proofs.Account.Existence
import Conductor.Proofs.Account.Reading
import Conductor.Proofs.Account.Inside
import Conductor.Proofs.Account.Visits
import Conductor.Proofs.Account.Goals
import Conductor.Proofs.Account.Asking
import Conductor.Proofs.Account.Obeying
import Conductor.Proofs.Account.Launched
import Conductor.Proofs.Workflow.Stages
import Conductor.Proofs.Workflow.Dispatches
import Conductor.Proofs.Workflow.Lifecycle
import Conductor.Proofs.Workflow.Propagation
import Conductor.Proofs.Workflow.Frozen
import Conductor.Proofs.Workflow.Retrying
import Conductor.Proofs.Binary64.Order
import Conductor.Proofs.Account.Queue
import Conductor.Proofs.Account.Time
import Conductor.Proofs.Account.Deciding
import Conductor.Proofs.Schedule.Draining
import Conductor.Proofs.Schedule.Descent
import Conductor.Proofs.Account.Running
import Conductor.Proofs.Account.Joined
import Conductor.Proofs.Workflow.Branches
import Conductor.Proofs.Workflow.Batches
import Conductor.Proofs.Workflow.Attempts
import Conductor.Proofs.Account.Upkeep
import Conductor.Proofs.Goal.Keeping
import Conductor.Proofs.Goal.Stages
import Conductor.Proofs.Goal.Chain
import Conductor.Proofs.Goal.Rounds
import Conductor.Proofs.Workflow.Acyclic
import Conductor.Proofs.Store.Leading
import Conductor.Proofs.Schedule.Phases
import Conductor.Proofs.Workflow.Guarding
import Conductor.Proofs.Workflow.Ending
import Conductor.Proofs.Store.Comparing
import Conductor.Proofs.Workflow.Filling
import Conductor.Proofs.Store.Laws
import Conductor.Proofs.Account.Turns
import Conductor.Proofs.Workflow.Tries
import Conductor.Proofs.Workflow.Backoff
import Conductor.Proofs.Workflow.Commuting
import Conductor.Proofs.Workflow.Refinement
import Conductor.Proofs.Workflow.Mapping
import Conductor.Proofs.Goal.Gathering
import Conductor.Proofs.Workflow.Finding
import Conductor.Proofs.Workflow.Resolving
import Conductor.Proofs.Binary64.Rounding
import Conductor.Proofs.Goal.Averaging
import Conductor.Proofs.Account.Delay
import Conductor.Proofs.Goal.Judging
import Conductor.Proofs.Agent.Replying
import Conductor.Proofs.Workflow.Building
import Conductor.Proofs.Agent.Choosing
import Conductor.Proofs.Goal.Aliasing
import Conductor.Proofs.Hook.Growing
import Conductor.Proofs.Hook.Telling
import Conductor.Proofs.Binary64.Shortest
import Conductor.Proofs.Json.Numbers
import Conductor.Proofs.Json.Grammar
import Conductor.Proofs.Json.Writing
import Conductor.Proofs.Json.Reading
import Conductor.Proofs.Log.Lines
import Conductor.Proofs.Workflow.Kinship
