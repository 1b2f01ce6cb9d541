import Conductor.Datum

/-!
# The journal

Everything that happens during a run and can be seen from outside is written down in the journal
with its time: the calls of user code, the notes that it makes, and the log records. Arguments are
written down as they are at that moment.
-/

namespace Conductor

/-- The levels at which this library logs. -/
inductive LogLevel where
  | debug
  | info
  | warning
  | error
  | critical
  deriving DecidableEq, Repr

namespace LogLevel

/-- The name of a level. -/
def name : LogLevel → String
  | .debug => "DEBUG"
  | .info => "INFO"
  | .warning => "WARNING"
  | .error => "ERROR"
  | .critical => "CRITICAL"

/-- The rank of a level among all levels. -/
def rank : LogLevel → Int
  | .debug => 10
  | .info => 20
  | .warning => 30
  | .error => 40
  | .critical => 50

end LogLevel

/-- Something that happened. -/
inductive Happening where
  | call (label : String) (count : Nat) (arguments : List Datum)
  | note (label : String) (d : Datum)
  /-- The moment before waiting for branches left behind. -/
  | drain
  | log (level : LogLevel) (logger message : String) (extras : List (String × Datum))

/-- Something that happened, with its time in seconds. -/
structure Event where
  time : Binary64
  happening : Happening

end Conductor
