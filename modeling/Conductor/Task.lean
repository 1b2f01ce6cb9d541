import Conductor.Value

/-!
# Tasks

A task is a named unit of work: a handler that gets an input and a context. The schemas are carried
for callers that check what goes in and out; nothing here looks into them.
-/

namespace Conductor

/-- A named unit of work. -/
structure Task where
  name : String
  handler : Ref .callable
  description : Value
  inputSchema : Value
  outputSchema : Value

instance : Inhabited Task := ⟨⟨"", default, .null, .null, .null⟩⟩

end Conductor
