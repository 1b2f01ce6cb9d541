import Conductor.Routine

/-!
# Emitting hooks

Hooks run strictly in the order of their registration, each to its end before the next. The hooks of
one emission are fixed when it begins; a hook that fails ends the emission with its failure.
-/

namespace Conductor

namespace Routine

/-- Writes a log record. -/
def log (level : LogLevel) (logger message : String) (extras : List (String × Datum)) :
    Routine Unit :=
  .alter fun s => s.write (.log level logger message extras)

end Routine

namespace HookName

/-- Where the emission of hooks is logged. -/
def logger : String := "core.hooks"

/-- Runs hooks one after another. -/
def runAll (call : Handlers) (args : List Value) (hooks : List (Ref .callable)) : Routine Unit :=
  Routine.each (fun h => (call h args).bind fun _ => .done ()) hooks

/-- Runs the hooks that are registered at a point. -/
def emit (name : HookName) (call : Handlers) (args : List Value) : Routine Unit := do
  let hooks ← .read fun s => s.hooks.under name
  if hooks.isEmpty then pure ()
  else
    .log .debug logger "emitting_hook"
      [("hook", .text name.text), ("hook_count", .int hooks.length)]
    runAll call args hooks

end HookName

/-- The place where components note that something was registered. -/
def registryLogger : String := "core.registry"

end Conductor
