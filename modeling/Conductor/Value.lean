import Conductor.Datum

/-!
# Values

A value is what a workflow passes around. Numbers, texts and failures are values in themselves;
lists, dictionaries and the objects of this library live in a store and are reached through a
reference, so two places that hold the same reference see each other's changes.

Every reference names the table that it points into, so a reference to a dictionary cannot be taken
for one to a context.
-/

namespace Conductor

/-- The tables of a store. -/
inductive Table where
  | sequence
  | dict
  | results
  | context
  | workflow
  | task
  | agent
  | goal
  | criterion
  | expected
  | evaluation
  | execution
  | entry
  | reply
  | callable
  deriving DecidableEq, Repr

/-- A place in a table of the store. -/
structure Ref (t : Table) where
  index : Nat
  deriving DecidableEq, Repr

instance (t : Table) : Inhabited (Ref t) := ⟨⟨0⟩⟩

/-- A value. -/
inductive Value where
  | null
  | bool (b : Bool)
  | int (i : Int)
  | float (x : Binary64)
  | text (s : String)
  /-- A fixed row of texts. -/
  | names (texts : List String)
  | list (r : Ref .sequence)
  | tuple (r : Ref .sequence)
  | dict (r : Ref .dict)
  | results (r : Ref .results)
  | workflow (r : Ref .workflow)
  /-- The steps of a workflow as a read-only mapping. -/
  | steps (of : Ref .workflow)
  /-- The step of a given id in a workflow. -/
  | step (of : Ref .workflow) (id : String)
  | context (r : Ref .context)
  | task (r : Ref .task)
  | agent (r : Ref .agent)
  | goal (r : Ref .goal)
  | criterion (r : Ref .criterion)
  | expected (r : Ref .expected)
  | evaluation (r : Ref .evaluation)
  | execution (r : Ref .execution)
  | entry (r : Ref .entry)
  | reply (r : Ref .reply)
  | callable (r : Ref .callable)
  | symbol (s : Symbol)
  | failure (f : Failure)
  | foreign (shown : String)
  /-- An object of which only the name of its type is known. -/
  | other (kind : String)
  deriving DecidableEq, Repr

instance : Inhabited Value := ⟨.null⟩

namespace Value

/-- A text, or nothing. -/
def ofText? : Option String → Value
  | some s => .text s
  | none => .null

/-- A text, or the empty one. -/
def asText : Value → String
  | .text s => s
  | _ => ""

/-- Whether a value is nothing. -/
def isNull : Value → Bool
  | .null => true
  | _ => false

end Value

end Conductor
