import Conductor.Json.Writer
import Conductor.Log.Calendar
import Conductor.Text.Template

/-!
# Log records

A record has a message with arguments, a level, the name of its logger, the time, and maybe a
failure with the chain of its causes. Callers attach extras to it; an extra under the name of a part
of the record replaces that part, and all others are shown, except those whose names begin with an
underscore.

A record is shown as one JSON object on a line, or as plain text.
-/

namespace Conductor

namespace Log

/-- A log record. -/
structure Record where
  logger : Datum
  level : Int
  levelName : Datum
  message : Datum
  arguments : Option Template.Arguments
  /-- The time in seconds after the beginning of 1970. -/
  created : Binary64
  /-- The failure and its causes, the failure itself first. -/
  failures : List (FailureKind × String)
  /-- A text of the failure that was made before. -/
  failureText : Option String
  stack : Option String
  extras : Entries Datum

/-- The names of the parts of a record. -/
def partNames : List String :=
  ["name", "msg", "args", "levelname", "levelno", "pathname", "filename", "module", "exc_info",
    "exc_text", "stack_info", "lineno", "funcName", "created", "msecs", "relativeCreated", "thread",
    "threadName", "processName", "process", "message", "asctime", "taskName"]

/-- The names of levels by their rank. -/
def levelNames : List (Int × String) :=
  [(50, "CRITICAL"), (40, "ERROR"), (30, "WARNING"), (20, "INFO"), (10, "DEBUG"), (0, "NOTSET")]

/-- The name of the level of a rank. -/
def nameOfLevel (rank : Int) : String := (levelNames.lookup rank).getD s!"Level {rank}"

/-- The arguments of a message. A single dictionary gives its entries by key. -/
def argumentsOf : List Datum → Option Template.Arguments
  | [] => none
  | [.dict (e :: es)] => some (.single (.dict (e :: es)))
  | ds => some (.row ds)

namespace Record

/-- A record without extras. -/
def make (logger : String) (level : Int) (message : Datum) (args : List Datum)
    (created : Binary64) (failures : List (FailureKind × String)) : Record :=
  ⟨.text logger, level, .text (nameOfLevel level), message, argumentsOf args, created, failures,
    none, none, []⟩

/-- A text, if there is one that is not empty. -/
def filled (d : Datum) : Option String := if d.isTruthy then some d.toText else none

/-- Attaches an extra to a record. -/
def attach (r : Record) (key : String) (d : Datum) : Record :=
  match key with
  | "name" => { r with logger := d }
  | "msg" => { r with message := d }
  | "args" => { r with arguments := if d.isTruthy then some (.single d) else none }
  | "levelname" => { r with levelName := d }
  | "created" => match d with
    | .float x => { r with created := x }
    | .int i => { r with created := (Binary64.ofInt? i).getD r.created }
    | _ => r
  | "exc_info" => if d.isTruthy then r else { r with failures := [] }
  | "exc_text" => { r with failureText := filled d }
  | "stack_info" => { r with stack := filled d }
  | _ =>
    if partNames.contains key then r
    else { r with extras := Entries.insert r.extras key d }

/-- Attaches extras one after another. -/
def attachAll (r : Record) (es : List (String × Datum)) : Record :=
  es.foldl (fun r (k, d) => r.attach k d) r

/-- The extras that are shown. -/
def shownExtras (r : Record) : Entries Datum :=
  r.extras.filter fun (k, _) => !(k.toList.head? == some '_')

/-- The message with its arguments filled in. -/
def text (r : Record) : Except Cause String :=
  match r.arguments with
  | none => .ok r.message.toText
  | some args => Template.fill r.message.toText args

end Record

/-! ## Failures -/

/-- Where the kinds of this library belong. -/
def ownPath : String := "agent_orchestrator.core.errors."

/-- One failure in a chain. -/
def failureLine (kind : FailureKind) (text : String) : String :=
  let message := kind.wording text
  (if kind.isOwn then ownPath else "") ++ kind.name ++
    (if message.isEmpty then "" else ": " ++ message)

/-- What stands between a cause and what it led to. -/
def causeMark : String :=
  "\n\nThe above exception was the direct cause of the following exception:\n\n"

/-- The text of a chain of failures, the innermost cause first. -/
def chainText : List (FailureKind × String) → String
  | [] => ""
  | [(kind, text)] => failureLine kind text
  | (kind, text) :: causes => chainText causes ++ causeMark ++ failureLine kind text

/-! ## Lines -/

/-- The fields of a record in the order in which they are written. -/
def Record.payload (r : Record) (moment : Calendar.Moment) (message : String) :
    List (String × Datum) :=
  let extras := r.shownExtras
  [("timestamp", .text moment.text), ("level", r.levelName), ("logger", r.logger),
    ("message", .text message)] ++
  (if extras.isEmpty then [] else [("extra", .dict extras)]) ++
  (if r.failures.isEmpty then [] else [("exception", .text (chainText r.failures))])

/-- A record as one JSON object. -/
def Record.jsonLine (r : Record) : Except Cause String := do
  let moment ← Calendar.ofSeconds r.created
  let message ← r.text
  Json.dump (.dict (r.payload moment message))

/-- A record as plain text. -/
def Record.plainLine (r : Record) : Except Cause String := do
  let message ← r.text
  let moment := Calendar.ofMicroseconds (Calendar.floorSeconds r.created)
  let head := moment.plainText ++ " - " ++ r.logger.toText ++ " - " ++ r.levelName.toText ++
    " - " ++ message
  let failure := r.failureText.getD (chainText r.failures)
  let line := if failure.isEmpty then head else head ++ "\n" ++ failure
  .ok (match r.stack with
    | some t => line ++ "\n" ++ t
    | none => line)

end Log

end Conductor
