import Conductor.Json.Reader
import Conductor.Schema.Fault
import Conductor.Settings.EnvFile

/-!
# Sources of settings

Settings come from four places: values given directly, the variables of the environment, a file of
variables, and defaults, the first of which wins. The names of variables do not depend on case, and
a field of a class of settings is found under the class's own start of the name.

A field that holds settings itself takes a variable with a JSON object. Objects from several places
are laid over each other, entry by entry.
-/

namespace Conductor

namespace Settings

/-- Where settings come from, beside values given directly. -/
structure Sources where
  environment : List (String × String)
  /-- The content of the file of variables. -/
  file : Option String
  deriving Inhabited

/-- A name in lower case. -/
def lowered (name : String) : String := String.ofList (name.toList.map Char.toLower)

/-- Variables under their names in lower case. -/
abbrev Variables := Entries (Option String)

namespace Sources

/-- The variables of the environment. -/
def environmentVariables (s : Sources) : Variables :=
  Entries.ofList (s.environment.map fun (k, v) => (lowered k, some v))

/-- The variables of the file. -/
def fileVariables (s : Sources) : Variables :=
  match s.file with
  | some content =>
    let settings := Entries.ofList (EnvFile.read s.environment content)
    Entries.ofList (settings.map fun (k, v) => (lowered k, v))
  | none => []

end Sources

/-- A field of a class of settings: its name, and, if it holds settings itself, their fields. -/
structure Field where
  name : String
  inner : Option (List String)

/-- The fields of a class of settings, and how the names of their variables start. -/
structure Layout where
  start : String
  fields : List Field

/-! ## Reading variables -/

/-- The field that a name means, whatever its case. -/
def meant (fields : List String) (name : String) : String :=
  (fields.find? fun f => lowered f == lowered name).getD name

/-- The value of a field that holds settings itself; nothing if it is null. -/
def readObject (field : String) (inner : List String) (source text : String) :
    Except Cause (Option Datum) :=
  match Json.read text with
  | some .null => .ok none
  | some (.dict es) =>
    .ok (some (.dict (Entries.ofList (es.map fun (k, v) => (meant inner k, v)))))
  | some d => .ok (some d)
  | none =>
    .error (.unreadableSetting
      s!"error parsing value for field \"{field}\" from source \"{source}\"")

/-- The value of a field among variables. -/
def readField (start source : String) (vars : Variables) (f : Field) :
    Except Cause (Option Datum) :=
  match (Entries.get? vars (lowered (start ++ f.name))).join, f.inner with
  | none, _ => .ok none
  | some t, none => .ok (some (.text t))
  | some t, some inner => readObject f.name inner source t

/-- The values of fields among variables. -/
def readVariables (layout : Layout) (source : String) (vars : Variables) :
    List Field → Except Cause (List (String × Datum))
  | [] => .ok []
  | f :: fs => do
    let value ← readField layout.start source vars f
    let rest ← readVariables layout source vars fs
    match value with
    | some d => .ok ((f.name, d) :: rest)
    | none => .ok rest

/-! ## Layers -/

mutual

/-- One value laid over another: of two dictionaries, entry by entry. -/
def overlay : Datum → Datum → Datum
  | .dict base, .dict top => .dict (overlayEntries base top)
  | _, top => top

/-- Entries laid over others. -/
def overlayEntries : List (String × Datum) → List (String × Datum) → List (String × Datum)
  | [], top => top
  | (k, d) :: base, top =>
    (match top.lookup k with | some t => (k, overlay d t) | none => (k, d)) ::
      overlayEntries base (top.filter fun (j, _) => j != k)

end

/-- The values of all fields that are given anywhere. -/
def gather (layout : Layout) (sources : Sources) (given : List (String × Datum)) :
    Except Cause (List (String × Datum)) := do
  let env ← readVariables layout "EnvSettingsSource" sources.environmentVariables layout.fields
  let file ← readVariables layout "DotEnvSettingsSource" sources.fileVariables layout.fields
  .ok (overlayEntries (overlayEntries file env) given)

end Settings

end Conductor
