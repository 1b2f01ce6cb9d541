import Conductor.Goal.Form
import Conductor.Schedule.Run
import Conductor.Settings.Basic
import Conductor.Setup
import Conductor.Showcase.Arguments
import Conductor.Text.Case
import Conductor.Workflow.Draft
import Conductor.Workflow.Run

/-!
# The showcase

A small program that shows the library at work: a workflow of two steps fetches records and sums
them up, and a goal is split between two agents. What it prints goes into the journal as notes.
-/

namespace Conductor

namespace Showcase

/-! ## User code -/

/-- Makes records. -/
def fetcher : Ref .callable := ⟨0⟩
/-- Sums records up. -/
def totaler : Ref .callable := ⟨1⟩
/-- Takes notes. -/
def researcher : Ref .callable := ⟨2⟩
/-- Cuts a text short. -/
def shortener : Ref .callable := ⟨3⟩
/-- Prints the results of steps. -/
def printer : Ref .callable := ⟨4⟩

/-- Under which label lines are printed. -/
def screen : String := "screen"

/-- Prints a line. -/
def print (line : String) : Routine Unit :=
  .alter fun s => s.write (.note screen (.text line))

/-- The entry of a mapping, which has to be there. -/
def entry (v : Value) (key : String) : Routine Value :=
  .query fun s =>
    match (s.mapping? v).bind fun es => Entries.get? es key with
    | some w => .ok w
    | none => .error (.raised .missingKey key)

/-- A new dictionary as a value. -/
def newDict (es : Entries Value) : Routine Value :=
  .modifyGet fun s => let (r, s) := s.newDict es; (.dict r, s)

/-- Makes as many records as were asked for. -/
def fetch (input : Value) : Routine Value := do
  let count ← entry input "count"
  let size := match count with | .int i => i.toNat | _ => 0
  let records ← .modifyGet fun s => s.newList ((List.range size).map fun n : Nat => Value.int n)
  newDict [("records", records)]

/-- The sum of the integers among values. -/
def sumOf (vs : List Value) : Int :=
  vs.foldl (fun n v => match v with | .int i => n + i | _ => n) 0

/-- Counts and sums up records. -/
def total (input : Value) : Routine Value := do
  let records ← entry input "records"
  let items ← .read fun s => (s.row? records).getD []
  newDict [("total", .int (sumOf items)), ("count", .int items.length)]

/-- Answers with some data. -/
def send (reply : Value) (v : Value) : Routine Value := do
  match reply with
  | .reply r => .alter fun s => s.put r ((s.get r).answered false v)
  | _ => pure ()
  pure .null

/-- Takes notes on what is asked for. -/
def research (body reply : Value) : Routine Value := do
  let query ← entry body "query"
  let subject ← .read fun s => s.showText query
  let answer ← newDict [("content", .text s!"Notes about {subject}")]
  send reply answer

/-- The most characters of a summary. -/
def summaryLength : Nat := 40

/-- Cuts a text short. -/
def shorten (body reply : Value) : Routine Value := do
  let text ← entry body "text"
  let cut := match text with
    | .text t => String.ofList (t.toList.take summaryLength)
    | _ => ""
  let answer ← newDict [("summary", .text cut)]
  send reply answer

/-- Prints the result of a step. -/
def printStep (step result : Value) : Routine Value := do
  let id ← .read fun s => match step with | .step w id => (s.stepAt w id).id | _ => ""
  let shown ← .read fun s => s.showText result
  print s!"  step {id} -> {shown}"
  pure .null

/-- The user code of the showcase. -/
def handlers : Handlers := fun r args =>
  match r.index, args with
  | 0, [input, _] => fetch input
  | 1, [input, _] => total input
  | 2, [_, body, _, reply] => research body reply
  | 3, [_, body, _, reply] => shorten body reply
  | 4, [_, step, _, result] => printStep step result
  | _, _ => pure .null

/-! ## The workflow and the goal -/

/-- The draft of the workflow. -/
def draft : Except Cause Draft := do
  let zero := Number.float Binary64.zero
  let d := Draft.start "records" (some "Record summary")
  let d ← d.add ⟨"fetch",
    .task ⟨"fetchRecords", some [("count", .text "count")], none, none, 0, zero⟩, .none⟩
  let d ← d.add ⟨"summarize",
    .task ⟨"summarizeRecords", some [("records", .text "steps.fetch.records")],
      some [("total", "report.total"), ("count", "report.count")], none, 0, zero⟩, .none⟩
  d.sequence ["fetch", "summarize"]

/-- Registers the tasks and runs the workflow. -/
def runWorkflow (count : Int) : Routine Unit := do
  let _ ← Task.register ⟨"fetchRecords", fetcher, .text "Produce some records", .null, .null⟩
  let _ ← Task.register
    ⟨"summarizeRecords", totaler, .text "Count and total records", .null, .null⟩
  let w ← .ofExcept (draft.bind Draft.build)
  let r ← .modifyGet fun s => s.alloc w
  let name := w.name
  print s!"Running workflow {name}"
  let input ← newDict [("count", .int count)]
  match ← Workflow.execute handlers r input [] with
  | .context c =>
    let output ← .read fun s => s.showText (.dict (s.get c).output)
    print s!"Output: {output}"
  | _ => pure ()

/-- The goal: a brief on a topic. -/
def brief (topic : String) : GoalForm :=
  { name := "brief", description := "", goal := s!"Write a short brief about {topic}"
    input := [], expected := none, capabilities := some ["research", "summarize"]
    criteria := [], maxAttempts := none }

/-- Registers the agents and pursues the goal. -/
def pursueGoal (topic : String) : Routine Unit := do
  let _ ← Agent.register ⟨"researcher", researcher, ["research"], .null⟩
  let _ ← Agent.register ⟨"summarizer", shortener, ["summarize"], .null⟩
  let g ← .modifyGet fun s => (brief topic).place s
  let input ← newDict [("topic", .text topic)]
  let result ← .call (.pursue g input 1 none)
  let shown ← .read fun s => s.showText result
  print s!"Brief: {shown}"

/-- The whole program. -/
def routine (a : Arguments) : Routine Value := do
  .alter fun s => { s with hooks := s.hooks.add .stepEnd printer }
  runWorkflow a.count
  pursueGoal a.topic
  pure .null

/-! ## Running it -/

/-- How the program ends. -/
inductive Ending where
  | exit (code : Nat)
  | failed (kind : FailureKind) (message : String)
  deriving DecidableEq, Repr

/-- What a call of the program gives. -/
structure Report where
  ending : Ending
  output : String
  errors : String
  deriving DecidableEq, Repr

/-- The lines that were printed. -/
def printed (s : Store) : String :=
  String.join (s.events.filterMap fun e =>
    match e.happening with
    | .note _ d => some (d.toText ++ "\n")
    | _ => none)

/-- A setup with the given settings. -/
def setupOf (settings : Settings) : Setup :=
  ⟨settings.workflow, ⟨handlers, settings.goals, none, [], Alias.defaults, none⟩⟩

/-- The most steps of the program. -/
def fuel : Nat := 100000000

/-- Runs the program with arguments and settings. -/
def runWith (a : Arguments) (settings : Settings) : Report :=
  let (outcome, m) :=
    Schedule.run (setupOf settings).body fuel (routine a) (Schedule.ofStore Store.empty)
  let ending : Ending :=
    match outcome with
    | some (.error f) => .failed f.kind f.message
    | _ => .exit 0
  ⟨ending, printed m.store, ""⟩

/-- The levels at which logging can be set up. -/
def levelNames : List String :=
  ["CRITICAL", "FATAL", "ERROR", "WARN", "WARNING", "INFO", "DEBUG", "NOTSET"]

/-- Runs the program on a command line. -/
def run (args : List String) (sources : Settings.Sources) : Report :=
  match readArguments args with
  | .error .help => ⟨.exit 0, help, ""⟩
  | .error (.fault message) =>
    ⟨.exit 2, "", usage ++ program ++ ": error: " ++ message ++ "\n"⟩
  | .ok a =>
    match Settings.require (Settings.read sources []) with
    | .error c => ⟨.failed c.kind c.message, "", ""⟩
    | .ok settings =>
      let level := Text.upper settings.logLevel
      if levelNames.contains level then runWith a settings
      else
        let shown := Text.quoted level
        ⟨.failed .badValue s!"Unknown level: {shown}", "", ""⟩

end Showcase

end Conductor
