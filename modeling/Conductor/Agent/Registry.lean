import Conductor.Hook.Emission
import Conductor.Store.Data

/-!
# Registered agents

Agents are kept in the order of their registration. The agent for a list of required capabilities is
the first one that covers all of them; an agent that declares none covers just the general one.
Running an agent hands it a fresh reply and gives what the agent sent, or fails with what it
reported.
-/

namespace Conductor

namespace Store

/-- The registered agents, in the order of their registration. -/
def roster (s : Store) : List (Ref .agent) := Entries.values s.agentRegistry

/-- The registered agent of a given name. -/
def agent (s : Store) (name : String) : Except Cause (Ref .agent) :=
  match Entries.get? s.agentRegistry name with
  | some a => .ok a
  | none => .error (.unknownAgent name)

/-- All agents that declare a capability. Only declared capabilities count. -/
def agentsDeclaring (s : Store) (capability : String) : List (Ref .agent) :=
  s.roster.filter fun a => (s.get a).capabilities.contains capability

/-- The first agent that covers all required capabilities. -/
def agentCovering (s : Store) (required : List String) : Except Cause (Ref .agent) :=
  match s.roster.find? fun a => (s.get a).canHandle required with
  | some a => .ok a
  | none => .error (.uncovered required)

end Store

namespace Reply

/-- What an agent answered: the data that it sent, or the failure that it reported. -/
def outcome (s : Store) (r : Reply) : Except (Failure ⊕ Cause) Value :=
  if !r.settled then .error (.inr (.neverReplied r.agent))
  else if r.failed then
    match r.failure with
    | .failure f => .error (.inl f)
    | v => .error (.inr (.reportedError r.agent (s.showText v)))
  else .ok r.data

/-- What an agent answered, as a routine. -/
def conclude (r : Ref .reply) : Routine Value := .get fun s =>
  match outcome s (s.get r) with
  | .ok v => .done v
  | .error (.inl f) => .fail f
  | .error (.inr c) => .raise c

end Reply

namespace Agent

/-- Registers an agent under a new name. -/
def register (a : Agent) : Routine (Ref .agent) := do
  if ← .read fun s => Entries.has s.agentRegistry a.name then .raise (.repeatedAgent a.name)
  else
    let r ← .modifyGet fun s =>
      let (r, s) := s.alloc (t := .agent) a
      (r, { s with agentRegistry := Entries.insert s.agentRegistry a.name r })
    .log .debug registryLogger "agent_registered"
      [("agent", .text a.name), ("capabilities", .list (a.capabilities.map .text))]
    pure r

/-- Calls the handler of an agent with a fresh reply and gives its answer. -/
def answerOf (call : Handlers) (r : Ref .agent) (task body : Value) (tools : Ref .dict) :
    Routine Value := do
  let a ← .read fun s => s.get r
  let reply ← .modifyGet fun s => s.alloc (t := .reply) (Reply.fresh a.name)
  let _ ← call a.handler [task, body, .dict tools, .reply reply]
  Reply.conclude reply

/-- Runs an agent with its own copy of the tools. -/
def execute (call : Handlers) (r : Ref .agent) (task body : Value) (tools : Entries Value) :
    Routine Value := do
  let tools ← .modifyGet fun s => s.newDict tools
  HookName.agentExecute.emit call [.agent r, task, body]
  match ← (answerOf call r task body tools).attempt with
  | .error f =>
    HookName.agentError.emit call [.agent r, task, body, .failure f]
    .fail f
  | .ok v =>
    HookName.agentComplete.emit call [.agent r, task, body, v]
    pure v

end Agent

end Conductor
