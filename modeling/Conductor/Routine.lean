import Conductor.Store.Basic

/-!
# Routines

A routine is what one line of execution does, as a tree: it ends with a result or a failure, reads
or replaces the store, or waits. Nothing in it says who else runs meanwhile; that is the business of
the scheduler, which hands the outcome of a wait to the rest of the routine.

What a routine can wait for is first-order data. In particular other parts of a run are named by a
`Procedure`, so that the recursion among them goes through the scheduler and every routine by
itself is finite.
-/

namespace Conductor

/-- A part of a run that others can call or start. -/
inductive Procedure where
  /-- A visit of a step and of all that follows it. -/
  | visit (step : String) (workflow : Ref .workflow) (context : Ref .context)
  /-- An attempt to reach a goal. -/
  | pursue (goal : Ref .goal) (input : Value) (attempt : Int) (parent : Option String)
  deriving DecidableEq, Repr

/-- What a routine waits for. -/
inductive Wait where
  /-- The result of another part, which runs in the same line of execution. -/
  | call (p : Procedure)
  | sleep (seconds : Binary64)
  /-- The results of parts that run side by side, or the first failure among them. -/
  | all (ps : List Procedure)
  /-- The first of parts that run side by side. -/
  | first (ps : List Procedure)
  /-- The end of all branches that were left behind. -/
  | detached
  deriving DecidableEq, Repr

/-- How a wait ends: one result for each part that was waited for, or a failure. -/
abbrev Outcome := Except Failure (List Value)

/-- What one line of execution does. -/
inductive Routine (α : Type) where
  | done (a : α)
  | fail (f : Failure)
  | get (k : Store → Routine α)
  | put (s : Store) (next : Routine α)
  | await (w : Wait) (k : Outcome → Routine α)

namespace Routine

variable {α β : Type}

instance : Inhabited (Routine α) := ⟨.fail ⟨0, .raised .abort ""⟩⟩

/-- Goes on with the result. -/
def bind : Routine α → (α → Routine β) → Routine β
  | .done a, g => g a
  | .fail f, _ => .fail f
  | .get k, g => .get fun s => bind (k s) g
  | .put s r, g => .put s (bind r g)
  | .await w k, g => .await w fun o => bind (k o) g

instance : Monad Routine where
  pure := .done
  bind := bind

/-- Goes on with the result or with the failure, unless the failure is one that passes through all
handlers. -/
def attempt : Routine α → Routine (Except Failure α)
  | .done a => .done (.ok a)
  | .fail f => if f.isCatchable then .done (.error f) else .fail f
  | .get k => .get fun s => attempt (k s)
  | .put s r => .put s (attempt r)
  | .await w k => .await w fun o => attempt (k o)

/-- Goes on with the outcome, whatever it is. -/
def continueWith : Routine Value → (Outcome → Routine α) → Routine α
  | .done v, g => g (.ok [v])
  | .fail f, g => g (.error f)
  | .get k, g => .get fun s => continueWith (k s) g
  | .put s r, g => .put s (continueWith r g)
  | .await w k, g => .await w fun o => continueWith (k o) g

/-! ## Using the store -/

/-- The store as it is now. -/
def store : Routine Store := .get .done

/-- Something read from the store. -/
def read (f : Store → α) : Routine α := .get fun s => .done (f s)

/-- Changes the store. -/
def alter (f : Store → Store) : Routine Unit := .get fun s => .put (f s) (.done ())

/-- Changes the store and gives a result. -/
def modifyGet (f : Store → α × Store) : Routine α :=
  .get fun s => let (a, s) := f s; .put s (.done a)

/-- Fails for a new reason. -/
def raise (c : Cause) : Routine α :=
  .get fun s => .put { s with nextFailure := s.nextFailure + 1 } (.fail ⟨s.nextFailure, c⟩)

/-- Gives a result, or fails for a new reason. -/
def ofExcept : Except Cause α → Routine α
  | .ok a => .done a
  | .error c => raise c

/-- Reads from the store something that may be missing. -/
def query (f : Store → Except Cause α) : Routine α := .get fun s => ofExcept (f s)

/-- Gives a result that is at hand, or passes a failure on. -/
def ofOutcome : Except Failure α → Routine α
  | .ok a => .done a
  | .error f => .fail f

/-! ## Waiting -/

/-- The only result of a wait. -/
def single : Outcome → Routine Value
  | .ok vs => .done (vs.headD .null)
  | .error f => .fail f

/-- Calls another part of the run. -/
def call (p : Procedure) : Routine Value := .await (.call p) single

/-- Waits for some time. -/
def sleep (seconds : Binary64) : Routine Unit :=
  .await (.sleep seconds) fun o => (ofOutcome o).bind fun _ => .done ()

/-- Runs parts side by side and collects their results. -/
def all (ps : List Procedure) : Routine (List Value) := .await (.all ps) ofOutcome

/-- Runs parts side by side until one of them ends. -/
def first (ps : List Procedure) : Routine Value := .await (.first ps) single

/-- Waits until no branch is left behind. -/
def drain : Routine Unit :=
  .await .detached fun o => (ofOutcome o).bind fun _ => .done ()

/-! ## Repeating -/

/-- Runs a routine for every item in turn. -/
def each (f : α → Routine Unit) : List α → Routine Unit
  | [] => .done ()
  | x :: xs => (f x).bind fun _ => each f xs

/-- Collects what a routine gives for every item in turn. -/
def collect (f : α → Routine β) : List α → Routine (List β)
  | [] => .done []
  | x :: xs => (f x).bind fun y => (collect f xs).bind fun ys => .done (y :: ys)

end Routine

/-- How user code is run: a reference to it and the arguments of the call give a routine. -/
abbrev Handlers := Ref .callable → List Value → Routine Value

end Conductor
