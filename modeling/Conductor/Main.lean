import Conductor.Showcase.Run

/-!
# The command line

Runs the showcase with the arguments and the environment of the process.
-/

namespace Conductor

/-- The names of the variables that the program looks at. -/
def variableNames : List String :=
  [Settings.layout, Workflow.Settings.layout, Goal.Settings.layout].flatMap fun l =>
    l.fields.map fun f => Text.upper (l.start ++ f.name)

/-- The variables that are set in the environment. -/
def environment : IO (List (String × String)) := do
  let found ← variableNames.mapM fun n => do return (n, ← IO.getEnv n)
  return found.filterMap fun (n, v) => v.map fun t => (n, t)

end Conductor

/-- Runs the showcase. -/
def main (args : List String) : IO UInt32 := do
  let env ← Conductor.environment
  let report := Conductor.Showcase.run args ⟨env, none⟩
  IO.print report.output
  IO.eprint report.errors
  match report.ending with
  | .exit code => return code.toUInt32
  | .failed kind message =>
    let name := kind.name
    IO.eprintln s!"{name}: {message}"
    return 1
