import Conductor.Store.Basic

/-!
# Between data and values

`build` puts a tree of data into the store, with a new cell for every list and dictionary in it.
`snapshot` goes the other way: it reads what a value looks like now. Objects of this library are
shown by a mark, models by their fields.

The nesting of a snapshot is bounded by the number of cells that can nest, because a value that
holds itself has no tree.
-/

namespace Conductor.Store

/-! ## Building -/

mutual

/-- Puts a tree of data into the store. -/
def build (s : Store) : Datum → Value × Store
  | .null => (.null, s)
  | .bool b => (.bool b, s)
  | .int i => (.int i, s)
  | .float x => (.float x, s)
  | .text t => (.text t, s)
  | .list xs =>
    let (vs, s) := buildItems s xs
    s.newList vs
  | .tuple xs =>
    let (vs, s) := buildItems s xs
    s.newTuple vs
  | .dict es | .record _ es =>
    let (vs, s) := buildEntries s es
    let (r, s) := s.newDict vs
    (.dict r, s)
  | .results es =>
    let (vs, s) := buildEntries s es
    let (r, s) := s.alloc (t := .results) vs
    (.results r, s)
  | .symbol y => (.symbol y, s)
  | .failure k t =>
    (.failure ⟨s.nextFailure, .raised k t⟩, { s with nextFailure := s.nextFailure + 1 })
  | .foreign t => (.foreign t, s)
  | .entity (.other k) => (.other k, s)
  | .entity e => (.other (Datum.kindName (.entity e)), s)

/-- Puts a list of data into the store. -/
def buildItems (s : Store) : List Datum → List Value × Store
  | [] => ([], s)
  | x :: xs =>
    let (v, s) := build s x
    let (vs, s) := buildItems s xs
    (v :: vs, s)

/-- Puts dictionary entries into the store. -/
def buildEntries (s : Store) : List (String × Datum) → Entries Value × Store
  | [] => ([], s)
  | (k, x) :: xs =>
    let (v, s) := build s x
    let (vs, s) := buildEntries s xs
    ((k, v) :: vs, s)

end

/-! ## Snapshots -/

/-- An optional text as data. -/
def textOrNull : Option String → Datum
  | some t => .text t
  | none => .null

/-- What a value looks like, with nesting bounded by the fuel. -/
def view (s : Store) : Nat → Value → Datum
  | 0, _ => .entity (.other "...")
  | fuel + 1, v =>
    let entries (es : Entries Value) := es.map fun (k, w) => (k, view s fuel w)
    match v with
    | .null => .null
    | .bool b => .bool b
    | .int i => .int i
    | .float x => .float x
    | .text t => .text t
    | .names ts => .tuple (ts.map .text)
    | .list r => .list ((s.get r).map (view s fuel))
    | .tuple r => .tuple ((s.get r).map (view s fuel))
    | .dict r => .dict (entries (s.get r))
    | .results r => .results (entries (s.get r))
    | .workflow r => .entity (.workflow (s.get r).id)
    | .steps w => .dict ((s.get w).steps.map fun (k, _) => (k, .entity (.step k)))
    | .step _ id => .entity (.step id)
    | .context r => .entity (.context (s.get r).currentStep)
    | .task r => .entity (.task (s.get r).name)
    | .agent r => .entity (.agent (s.get r).name)
    | .goal r => .entity (.goal (s.get r).name)
    | .criterion r =>
      let c := s.get r
      .record "EvaluationCriterion" [("description", .text c.description),
        ("threshold", match c.threshold with | some x => .float x | none => .null)]
    | .expected r =>
      let e := s.get r
      .record "ExpectedOutput"
        [("output_schema", view s fuel e.schema), ("example", view s fuel e.sample)]
    | .evaluation r =>
      let e := s.get r
      .record "Evaluation" [("passed", .bool e.passed), ("score", .float e.score),
        ("criteria", .dict (entries (s.get e.criteria))),
        ("unmet", .list ((s.get e.unmet).map (view s fuel)))]
    | .execution r =>
      let e := s.get r
      .entity (.execution e.id e.status.symbol.value)
    | .entry r =>
      let e := s.get r
      .record "LogEntry" [("timestamp", .entity (.other "datetime")), ("level", .text e.level),
        ("message", .text e.message), ("data", view s fuel e.data)]
    | .reply _ => .entity (.other "AgentReply")
    | .callable _ => .entity (.other "function")
    | .symbol y => .symbol y
    | .failure f => .failure f.kind f.cause.text
    | .foreign t => .foreign t
    | .other k => .entity (.other k)

/-- How deep values can nest. -/
def depth (s : Store) : Nat :=
  s.sequences.size + s.dicts.size + s.results.size + s.expecteds.size + s.logEntries.size + 2

/-- What a value looks like now. -/
def snapshot (s : Store) (v : Value) : Datum := view s s.depth v

/-- The text of a value on its own. -/
def showText (s : Store) (v : Value) : String := (s.snapshot v).toText

/-! ## Truth and kind -/

/-- Whether a value counts as true: not if it is nothing, zero or empty. -/
def isTruthy (s : Store) (v : Value) : Bool :=
  match v with
  | .null => false
  | .bool b => b
  | .int i => i != 0
  | .float x => !x.isZero
  | .text t => !t.isEmpty
  | .names ts => !ts.isEmpty
  | .list r | .tuple r => !(s.get r).isEmpty
  | .dict r | .results r => !(s.get r).isEmpty
  | .steps w => !(s.get w).steps.isEmpty
  | _ => true

/-- The name of the type of a value. -/
def kindName (s : Store) (v : Value) : String :=
  match v with
  | .null => "NoneType"
  | .bool _ => "bool"
  | .int _ => "int"
  | .float _ => "float"
  | .text _ => "str"
  | .list _ => "list"
  | .names _ | .tuple _ => "tuple"
  | .dict _ => "dict"
  | .results _ => "StepResults"
  | .workflow _ => "WorkflowDefinition"
  | .steps _ => "mappingproxy"
  | .step w id => (s.stepAt w id).variant
  | .context _ => "WorkflowContext"
  | .task _ => "Task"
  | .agent _ => "Agent"
  | .goal _ => "TaskDefinition"
  | .criterion _ => "EvaluationCriterion"
  | .expected _ => "ExpectedOutput"
  | .evaluation _ => "Evaluation"
  | .execution _ => "ExecutionContext"
  | .entry _ => "LogEntry"
  | .reply _ => "AgentReply"
  | .callable _ => "function"
  | .symbol y => y.choice
  | .failure f => f.kind.name
  | .foreign _ => "Opaque"
  | .other k => k

end Conductor.Store
