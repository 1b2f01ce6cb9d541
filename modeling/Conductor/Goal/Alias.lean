import Conductor.Store.Data

/-!
# Aliases of input keys

Agents of different capabilities expect the same thing under different names. An alias copies the
value of a source key to a target key for agents of one capability, if the target has nothing to
say and the source has.
-/

namespace Conductor

/-- For agents of one capability, a target key that may take its value from a source key. -/
structure Alias where
  capability : String
  target : String
  source : String
  deriving DecidableEq, Repr

namespace Alias

/-- The aliases that hold where none are given. -/
def defaults : List Alias :=
  [⟨"research", "query", "topic"⟩, ⟨"visualize", "concept", "topic"⟩,
    ⟨"summarize", "text", "content"⟩]

variable {α : Type}

/-- The value under a key, if it counts as true. -/
def trueAt? (isTrue : α → Bool) (data : Entries α) (key : String) : Option α :=
  (Entries.get? data key).filter isTrue

/-- The data with one alias applied. -/
def apply (isTrue : α → Bool) (data : Entries α) (a : Alias) : Entries α :=
  match trueAt? isTrue data a.target, trueAt? isTrue data a.source with
  | none, some v => Entries.insert data a.target v
  | _, _ => data

/-- The data with the aliases for given capabilities applied, one after another. -/
def applyAll (isTrue : α → Bool) (aliases : List Alias) (capabilities : List String)
    (data : Entries α) : Entries α :=
  (aliases.filter fun a => capabilities.contains a.capability).foldl (apply isTrue) data

end Alias

/-- The input of an agent with given capabilities. -/
def Store.normalize (s : Store) (aliases : List Alias) (capabilities : List String)
    (data : Entries Value) : Entries Value :=
  Alias.applyAll s.isTruthy aliases capabilities data

end Conductor
