import Conductor.Agent
import Conductor.Goal.Model
import Conductor.Hook
import Conductor.Journal
import Conductor.Script.Action
import Conductor.Task
import Conductor.Workflow.Definition

/-!
# The store

Everything that changes during a run is in one store: a table for each kind of object, the
registries of tasks, agents and hooks, the kept executions, the clock, and the journal.

The tables are reached through references, uniformly for all kinds: `get` reads a cell, `put`
replaces its content, and `alloc` appends a new cell. A cell is never removed, so a reference stays
good for the rest of the run.
-/

namespace Conductor

/-- The state of everything that changes during a run. -/
structure Store where
  sequences : Array (List Value)
  dicts : Array (Entries Value)
  results : Array (Entries Value)
  contexts : Array Context
  workflows : Array Workflow
  tasks : Array Task
  agents : Array Agent
  goals : Array Goal
  criteria : Array Criterion
  expecteds : Array Expected
  evaluations : Array Evaluation
  executions : Array Execution
  logEntries : Array LogEntry
  replies : Array Reply
  callables : Array Script.Callable
  /-- The registered tasks. -/
  taskRegistry : Entries (Ref .task)
  /-- The registered agents. -/
  agentRegistry : Entries (Ref .agent)
  hooks : HookTable
  /-- The executions that are kept, under their ids. -/
  history : Entries (Ref .execution)
  /-- How many executions have been made. -/
  executionCount : Nat
  /-- The number of the next failure. -/
  nextFailure : Nat
  /-- The time in seconds. -/
  clock : Binary64
  /-- What has happened, the last event first. -/
  journal : List Event

namespace Store

/-- The store in which nothing has happened. -/
def empty : Store :=
  ⟨#[], #[], #[], #[], #[], #[], #[], #[], #[], #[], #[], #[], #[], #[], #[], [], [], [], [],
    0, 0, Binary64.zero, []⟩

instance : Inhabited Store := ⟨empty⟩

/-- The table of a store that holds the cells of one kind. -/
class Cell (t : Table) (α : outParam Type) where
  cells : Store → Array α
  withCells : Store → Array α → Store

instance : Cell .sequence (List Value) := ⟨sequences, fun s a => { s with sequences := a }⟩
instance : Cell .dict (Entries Value) := ⟨dicts, fun s a => { s with dicts := a }⟩
instance : Cell .results (Entries Value) := ⟨results, fun s a => { s with results := a }⟩
instance : Cell .context Context := ⟨contexts, fun s a => { s with contexts := a }⟩
instance : Cell .workflow Workflow := ⟨workflows, fun s a => { s with workflows := a }⟩
instance : Cell .task Task := ⟨tasks, fun s a => { s with tasks := a }⟩
instance : Cell .agent Agent := ⟨agents, fun s a => { s with agents := a }⟩
instance : Cell .goal Goal := ⟨goals, fun s a => { s with goals := a }⟩
instance : Cell .criterion Criterion := ⟨criteria, fun s a => { s with criteria := a }⟩
instance : Cell .expected Expected := ⟨expecteds, fun s a => { s with expecteds := a }⟩
instance : Cell .evaluation Evaluation := ⟨evaluations, fun s a => { s with evaluations := a }⟩
instance : Cell .execution Execution := ⟨executions, fun s a => { s with executions := a }⟩
instance : Cell .entry LogEntry := ⟨logEntries, fun s a => { s with logEntries := a }⟩
instance : Cell .reply Reply := ⟨replies, fun s a => { s with replies := a }⟩
instance : Cell .callable Script.Callable := ⟨callables, fun s a => { s with callables := a }⟩

variable {t : Table} {α : Type} [Cell t α]

/-- The content of a cell. -/
def get [Inhabited α] (s : Store) (r : Ref t) : α := (Cell.cells t s).getD r.index default

/-- The store with another content of a cell. -/
def put (s : Store) (r : Ref t) (a : α) : Store :=
  Cell.withCells t s ((Cell.cells t s).setIfInBounds r.index a)

/-- A new cell with a given content. -/
def alloc (s : Store) (a : α) : Ref t × Store :=
  (⟨(Cell.cells t s).size⟩, Cell.withCells t s ((Cell.cells t s).push a))

/-- The store with the content of a cell changed by a function. -/
def update [Inhabited α] (s : Store) (r : Ref t) (f : α → α) : Store := s.put r (f (s.get r))

/-- The step of a given id in a workflow. -/
def stepAt (s : Store) (w : Ref .workflow) (id : String) : Step :=
  (Entries.get? (s.get w).steps id).getD default

/-! ## Lists and dictionaries -/

/-- A new list. -/
def newList (s : Store) (xs : List Value) : Value × Store :=
  let (r, s) := s.alloc (t := .sequence) xs
  (.list r, s)

/-- A new row of values that cannot be written to. -/
def newTuple (s : Store) (xs : List Value) : Value × Store :=
  let (r, s) := s.alloc (t := .sequence) xs
  (.tuple r, s)

/-- A new dictionary. -/
def newDict (s : Store) (es : Entries Value) : Ref .dict × Store := s.alloc (t := .dict) es

/-- Writes into a dictionary. -/
def insert (s : Store) (r : Ref .dict) (key : String) (v : Value) : Store :=
  s.put r (Entries.insert (s.get r) key v)

/-- Writes all entries into a dictionary. -/
def insertAll (s : Store) (r : Ref .dict) (es : Entries Value) : Store :=
  s.put r (Entries.insertAll (s.get r) es)

/-- The entries of a value that is a mapping. -/
def mapping? (s : Store) (v : Value) : Option (Entries Value) :=
  match v with
  | .dict r => some (s.get r)
  | .results r => some (s.get r)
  | .steps w => some ((s.get w).steps.map fun (k, _) => (k, .step w k))
  | _ => none

/-- The items of a value that is a row of values. -/
def row? (s : Store) (v : Value) : Option (List Value) :=
  match v with
  | .list r | .tuple r => some (s.get r)
  | .names ts => some (ts.map .text)
  | _ => none

/-! ## The clock and the journal -/

/-- Writes something into the journal. -/
def write (s : Store) (h : Happening) : Store := { s with journal := ⟨s.clock, h⟩ :: s.journal }

/-- What has happened, in order. -/
def events (s : Store) : List Event := s.journal.reverse

end Store

end Conductor
