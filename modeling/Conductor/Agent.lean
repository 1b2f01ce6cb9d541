import Conductor.Value

/-!
# Agents

An agent is a handler tagged with capabilities, and answers once through a reply. An agent that
declares no capabilities counts as a general one.
-/

namespace Conductor

/-- A handler tagged with capabilities. -/
structure Agent where
  name : String
  handler : Ref .callable
  capabilities : List String
  description : Value

instance : Inhabited Agent := ⟨⟨"", default, [], .null⟩⟩

namespace Agent

/-- The capability of an agent that declares none, and of a goal that asks for none. -/
def general : String := "general"

/-- The capabilities that an agent is matched by. -/
def effective (a : Agent) : List String :=
  if a.capabilities.isEmpty then [general] else a.capabilities

/-- Whether an agent covers all required capabilities. -/
def canHandle (a : Agent) (required : List String) : Bool :=
  required.all fun c => a.effective.contains c

end Agent

/-- The one answer of an agent: data that was sent, or an error that was reported. -/
structure Reply where
  agent : String
  settled : Bool
  failed : Bool
  data : Value
  failure : Value

instance : Inhabited Reply := ⟨⟨"", false, false, .null, .null⟩⟩

namespace Reply

/-- A reply that waits for its answer. -/
def fresh (agent : String) : Reply := ⟨agent, false, false, .null, .null⟩

/-- The reply once it has its answer. -/
def answered (r : Reply) (isError : Bool) (v : Value) : Reply :=
  if isError then { r with settled := true, failed := true, failure := v }
  else { r with settled := true, data := v }

end Reply

end Conductor
