import Conductor.Log.Record
import Conductor.Settings.Basic
import Conductor.Text.Case

/-!
# Setting up logging

One handler on the root writes every record that is enabled, in one of two forms. A logger of this
library is enabled from its own level on if it has one, and any other from the level of the root.
-/

namespace Conductor

namespace Log

/-- The form in which records are written. -/
inductive Form where
  | json
  | plain
  deriving DecidableEq, Repr

/-- The name of a form. -/
def Form.name : Form → String
  | .json => "JsonFormatter"
  | .plain => "Formatter"

/-- How logging is set up. -/
structure Setup where
  handler : Option Form
  rootLevel : Int
  /-- The level of this library's own loggers; zero means that of the root. -/
  ownLevel : Int
  deriving Inhabited

namespace Setup

/-- How logging is set up in the beginning. -/
def start : Setup := ⟨none, 30, 0⟩

/-- The ranks of levels by their names. -/
def ranks : List (String × Int) :=
  [("CRITICAL", 50), ("FATAL", 50), ("ERROR", 40), ("WARN", 30), ("WARNING", 30), ("INFO", 20),
    ("DEBUG", 10), ("NOTSET", 0)]

/-- Installs the handler, which takes the place of one that is there, and sets the level of the
root. An unknown level leaves the level as it was. -/
def configure (s : Setup) (level : String) (form : Form) : Option Cause × Setup :=
  let s := { s with handler := some form }
  let name := Text.upper level
  match ranks.lookup name with
  | some rank => (none, { s with rootLevel := rank })
  | none =>
    let shown := Text.quoted name
    (some (.raised .badValue s!"Unknown level: {shown}"), s)

/-- Sets logging up by the settings of a program. -/
def apply (s : Setup) (settings : Settings) : Option Cause × Setup :=
  match s.configure settings.logLevel (if settings.jsonLogs then .json else .plain) with
  | (none, s) => (none, if settings.debug then { s with ownLevel := 10 } else s)
  | failed => failed

/-- The logger of this library as a whole. -/
def ownLogger : String := "agent_orchestrator"

/-- Whether a logger belongs to this library. -/
def isOwn (logger : String) : Bool :=
  logger == ownLogger || (ownLogger ++ ".").toList.isPrefixOf logger.toList

/-- The least level at which a logger is enabled. -/
def levelOf (s : Setup) (logger : String) : Int :=
  if isOwn logger && s.ownLevel != 0 then s.ownLevel else s.rootLevel

/-- What is written for a record: nothing if its logger is not enabled, and an empty text if it
cannot be shown or there is no handler. -/
def write (s : Setup) (logger : String) (r : Record) : Option String :=
  if r.level < s.levelOf logger then none
  else match s.handler with
    | none => some ""
    | some form =>
      let line := match form with
        | .json => r.jsonLine
        | .plain => r.plainLine
      match line with
      | .ok t => some (t ++ "\n")
      | .error _ => some ""

end Setup

end Log

end Conductor
