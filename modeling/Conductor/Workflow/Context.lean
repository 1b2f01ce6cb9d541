import Conductor.Clock
import Conductor.Entries

/-!
# Contexts in the store

A context owns its results, output, errors and metadata: each is a cell of its own, made with the
context. A fork for one item starts from copies of the results, errors and metadata and remembers
where it came from; its output starts empty, and from then on neither sees what the other writes.
-/

namespace Conductor

namespace Store

/-- The key under which a fork keeps the context that it was forked from. -/
def parentKey : String := "parent_context"

/-- A new context over given contents. -/
def newContext (s : Store) (input : Value) (results output errors metadata : Entries Value)
    (currentStep : Option String) (startTime : Int) : Ref .context × Store :=
  let (results, s) := s.alloc (t := .results) results
  let (output, s) := s.newDict output
  let (errors, s) := s.newDict errors
  let (metadata, s) := s.newDict metadata
  s.alloc ⟨input, results, output, currentStep, errors, startTime, none, metadata, .null⟩

/-- A context for one item, forked from another. -/
def fork (s : Store) (c : Ref .context) (item : Value) : Ref .context × Store :=
  let parent := s.get c
  s.newContext item (s.get parent.steps) [] (s.get parent.errors)
    (Entries.insert (s.get parent.metadata) parentKey (.context c)) parent.currentStep
    parent.startTime

/-- Contexts for items, forked one after another. -/
def forkAll (s : Store) (c : Ref .context) : List Value → List (Ref .context) × Store
  | [] => ([], s)
  | item :: items =>
    let (r, s) := s.fork c item
    let (rs, s) := forkAll s c items
    (r :: rs, s)

/-- The context that a context was forked from. -/
def parent? (s : Store) (c : Ref .context) : Option (Ref .context) :=
  match Entries.get? (s.get (s.get c).metadata) parentKey with
  | some (.context p) => some p
  | _ => none

/-- Records the result of a step in step results. -/
def recordIn (s : Store) (r : Ref .results) (step : String) (v : Value) : Store :=
  s.put r (Entries.insert (s.get r) step v)

/-- A copy of step results, in which nothing is seen of what is recorded in them later. -/
def copyResults (s : Store) (r : Ref .results) : Ref .results × Store :=
  s.alloc (t := .results) (s.get r)

/-- Records the result of a step. -/
def record (s : Store) (c : Ref .context) (step : String) (v : Value) : Store :=
  let r := (s.get c).steps
  s.put r (Entries.insert (s.get r) step v)

/-- Notes a failure under a name. -/
def noteError (s : Store) (c : Ref .context) (name : String) (f : Failure) : Store :=
  s.insert (s.get c).errors name (.failure f)

/-- Moves a context to a step. -/
def enter (s : Store) (c : Ref .context) (step : String) : Store :=
  s.update c fun x => { x with currentStep := some step }

/-- Notes that a run was over at a point in time. -/
def close (s : Store) (c : Ref .context) (moment : Int) : Store :=
  s.update c fun x => { x with endTime := some moment }

end Store

end Conductor
