import Conductor.Goal.Pursuit
import Conductor.Proofs.Routine.Tame

/-!
# Outlines

An outline is a routine that says what it is doing. It makes remarks, which take no time, at the
places where hooks are about to run, a result is about to be recorded and the like; and where user
code is called, the call is a part of its own with the use that it is made of. Without the remarks,
and with the user code in place, an outline is a routine again (`Outline.erase`), and it is that
routine that runs.

Everything that goes on behind something else is put together by `thenOn`, for outlines as for
routines; sequencing, handlers and calls are cases of it.
-/

namespace Conductor

namespace Routine

variable {α β γ : Type}

/-- Goes on with the outcome, whatever it is. -/
def thenOn : Routine α → (Except Failure α → Routine β) → Routine β
  | .done a, g => g (.ok a)
  | .fail f, g => g (.error f)
  | .get k, g => .get fun s => thenOn (k s) g
  | .put s r, g => .put s (thenOn r g)
  | .await w k, g => .await w fun o => thenOn (k o) g

/-- What follows a success only. -/
def onward (g : α → Routine β) : Except Failure α → Routine β
  | .ok a => g a
  | .error f => .fail f

/-- What a handler makes of an outcome. -/
def caught : Except Failure α → Routine (Except Failure α)
  | .ok a => .done (.ok a)
  | .error f => if f.isCatchable then .done (.error f) else .fail f

theorem bind_eq_thenOn (r : Routine α) (g : α → Routine β) : r.bind g = r.thenOn (onward g) := by
  induction r with
  | done a => rfl
  | fail f => rfl
  | get k ih => exact congrArg get (funext ih)
  | put s r ih => exact congrArg (put s) ih
  | await w k ih => exact congrArg (await w) (funext ih)

theorem attempt_eq_thenOn (r : Routine α) : r.attempt = r.thenOn caught := by
  induction r with
  | done a => rfl
  | fail f => rfl
  | get k ih => exact congrArg get (funext ih)
  | put s r ih => exact congrArg (put s) ih
  | await w k ih => exact congrArg (await w) (funext ih)

/-- The outcome of a part as that of a wait. -/
def only (x : Except Failure Value) : Outcome := x.map fun v => [v]

theorem continueWith_eq_thenOn (r : Routine Value) (g : Outcome → Routine α) :
    r.continueWith g = r.thenOn fun x => g (only x) := by
  induction r with
  | done v => rfl
  | fail f => rfl
  | get k ih => exact congrArg get (funext ih)
  | put s r ih => exact congrArg (put s) ih
  | await w k ih => exact congrArg (await w) (funext ih)

theorem thenOn_thenOn (r : Routine α) (g : Except Failure α → Routine β)
    (h : Except Failure β → Routine γ) :
    (r.thenOn g).thenOn h = r.thenOn fun x => (g x).thenOn h := by
  induction r with
  | done a => rfl
  | fail f => rfl
  | get k ih => exact congrArg get (funext ih)
  | put s r ih => exact congrArg (put s) ih
  | await w k ih => exact congrArg (await w) (funext ih)

theorem thenOn_ofOutcome (r : Routine α) : r.thenOn ofOutcome = r := by
  induction r with
  | done a => rfl
  | fail f => rfl
  | get k ih => exact congrArg get (funext ih)
  | put s r ih => exact congrArg (put s) ih
  | await w k ih => exact congrArg (await w) (funext ih)

theorem bind_done (r : Routine α) : r.bind .done = r := by
  induction r with
  | done a => rfl
  | fail f => rfl
  | get k ih => exact congrArg get (funext ih)
  | put s r ih => exact congrArg (put s) ih
  | await w k ih => exact congrArg (await w) (funext ih)

instance : LawfulMonad Routine :=
  LawfulMonad.mk' Routine bind_done (fun _ _ => rfl) bind_assoc

end Routine

/-! ## Outlines -/

/-- What user code is called for. -/
inductive Use where
  | hook (name : HookName)
  /-- The work of a task. -/
  | work
  /-- The condition of a task, or of a choice. -/
  | condition
  /-- A source of a task's input. -/
  | source
  /-- Whether a failed try is to be followed by another one. -/
  | retrying
  /-- What is told of the end of a workflow. -/
  | completed
  | failed
  | agent
  | scorer
  deriving DecidableEq

/-- What an outline says. -/
inductive Remark where
  /-- The hooks at a point are about to run. -/
  | emits (name : HookName) (args : List Value)
  /-- The result of a step is about to be recorded. -/
  | records (c : Ref .context) (step : String) (v : Value)
  /-- A failure is about to be noted under a name. -/
  | notes (c : Ref .context) (name : String) (f : Failure)
  /-- An agent has reported a failure. -/
  | reports (f : Failure)
  /-- The execution of an attempt has been made. -/
  | opens (r : Ref .execution)
  /-- The result of an attempt has been judged, and found good enough or not. -/
  | judges (whole : Value) (e : Ref .evaluation) (passed : Bool)

/-- A routine that says what it is doing. -/
inductive Outline (α : Type) where
  | done (a : α)
  | fail (f : Failure)
  | get (k : Store → Outline α)
  | put (s : Store) (x : Outline α)
  | await (w : Wait) (k : Outcome → Outline α)
  | remark (l : Remark) (x : Outline α)
  | ask (u : Use) (c : Ref .callable) (args : List Value) (k : Except Failure Value → Outline α)

namespace Outline

variable {α β γ : Type}

/-- Goes on with the outcome, whatever it is. -/
def thenOn : Outline α → (Except Failure α → Outline β) → Outline β
  | .done a, g => g (.ok a)
  | .fail f, g => g (.error f)
  | .get k, g => .get fun s => thenOn (k s) g
  | .put s x, g => .put s (thenOn x g)
  | .await w k, g => .await w fun o => thenOn (k o) g
  | .remark l x, g => .remark l (thenOn x g)
  | .ask u c args k, g => .ask u c args fun o => thenOn (k o) g

/-- What follows a success only. -/
def onward (g : α → Outline β) : Except Failure α → Outline β
  | .ok a => g a
  | .error f => .fail f

/-- What a handler makes of an outcome. -/
def caught : Except Failure α → Outline (Except Failure α)
  | .ok a => .done (.ok a)
  | .error f => if f.isCatchable then .done (.error f) else .fail f

instance : Monad Outline where
  pure := .done
  bind x g := x.thenOn (onward g)

/-- Goes on with the result or with the failure, unless the failure is an abort. -/
def attempt (x : Outline α) : Outline (Except Failure α) := x.thenOn caught

/-- Gives a result that is at hand, or passes a failure on. -/
def ofOutcome : Except Failure α → Outline α
  | .ok a => .done a
  | .error f => .fail f

/-- A routine without anything to say. -/
def plain : Routine α → Outline α
  | .done a => .done a
  | .fail f => .fail f
  | .get k => .get fun s => plain (k s)
  | .put s r => .put s (plain r)
  | .await w k => .await w fun o => plain (k o)

/-- Calls user code. -/
def call (u : Use) (c : Ref .callable) (args : List Value) : Outline Value :=
  .ask u c args ofOutcome

/-- Says something. -/
def say (l : Remark) : Outline Unit := .remark l (.done ())

/-- Runs an outline for every item in turn. -/
def each (f : α → Outline Unit) : List α → Outline Unit
  | [] => .done ()
  | x :: xs => (f x).thenOn (onward fun _ => each f xs)

theorem bind_eq (x : Outline α) (g : α → Outline β) : x >>= g = x.thenOn (onward g) := rfl

theorem pure_eq (a : α) : (pure a : Outline α) = .done a := rfl

theorem thenOn_thenOn (x : Outline α) (g : Except Failure α → Outline β)
    (h : Except Failure β → Outline γ) :
    (x.thenOn g).thenOn h = x.thenOn fun o => (g o).thenOn h := by
  induction x with
  | done a => rfl
  | fail f => rfl
  | get k ih => exact congrArg get (funext ih)
  | put s x ih => exact congrArg (put s) ih
  | await w k ih => exact congrArg (await w) (funext ih)
  | remark l x ih => exact congrArg (remark l) ih
  | ask u c args k ih => exact congrArg (ask u c args) (funext ih)

theorem thenOn_ofOutcome (x : Outline α) : x.thenOn ofOutcome = x := by
  induction x with
  | done a => rfl
  | fail f => rfl
  | get k ih => exact congrArg get (funext ih)
  | put s x ih => exact congrArg (put s) ih
  | await w k ih => exact congrArg (await w) (funext ih)
  | remark l x ih => exact congrArg (remark l) ih
  | ask u c args k ih => exact congrArg (ask u c args) (funext ih)

theorem thenOn_onward_done (x : Outline α) : x.thenOn (onward .done) = x := by
  induction x with
  | done a => rfl
  | fail f => rfl
  | get k ih => exact congrArg get (funext ih)
  | put s x ih => exact congrArg (put s) ih
  | await w k ih => exact congrArg (await w) (funext ih)
  | remark l x ih => exact congrArg (remark l) ih
  | ask u c args k ih => exact congrArg (ask u c args) (funext ih)

instance : LawfulMonad Outline :=
  LawfulMonad.mk' Outline thenOn_onward_done (fun _ _ => rfl) fun x g h => by
    simp only [bind_eq, thenOn_thenOn]
    congr 1
    funext o
    cases o <;> rfl

theorem plain_bind (r : Routine α) (g : α → Routine β) :
    plain (r >>= g) = plain r >>= fun a => plain (g a) := by
  induction r with
  | done a => rfl
  | fail f => rfl
  | get k ih => exact congrArg get (funext ih)
  | put s r ih => exact congrArg (put s) ih
  | await w k ih => exact congrArg (await w) (funext ih)

theorem plain_thenOn (r : Routine α) (g : Except Failure α → Routine β) :
    plain (r.thenOn g) = (plain r).thenOn fun o => plain (g o) := by
  induction r with
  | done a => rfl
  | fail f => rfl
  | get k ih => exact congrArg get (funext ih)
  | put s r ih => exact congrArg (put s) ih
  | await w k ih => exact congrArg (await w) (funext ih)

theorem plain_pure (a : α) : plain (pure a) = pure a := rfl

/-! ## What runs -/

/-- The routine of an outline, given how user code is run. -/
def erase (run : Handlers) : Outline α → Routine α
  | .done a => .done a
  | .fail f => .fail f
  | .get k => .get fun s => erase run (k s)
  | .put s x => .put s (erase run x)
  | .await w k => .await w fun o => erase run (k o)
  | .remark _ x => erase run x
  | .ask _ c args k => (run c args).thenOn fun o => erase run (k o)

section Erase

variable {run : Handlers}

@[simp] theorem erase_plain (r : Routine α) : (plain r).erase run = r := by
  induction r with
  | done a => rfl
  | fail f => rfl
  | get k ih => exact congrArg Routine.get (funext ih)
  | put s r ih => exact congrArg (Routine.put s) ih
  | await w k ih => exact congrArg (Routine.await w) (funext ih)

theorem erase_thenOn (x : Outline α) (g : Except Failure α → Outline β) :
    (x.thenOn g).erase run = (x.erase run).thenOn fun o => (g o).erase run := by
  induction x with
  | done a => rfl
  | fail f => rfl
  | get k ih => exact congrArg Routine.get (funext ih)
  | put s x ih => exact congrArg (Routine.put s) ih
  | await w k ih => exact congrArg (Routine.await w) (funext ih)
  | remark l x ih => exact ih
  | ask u c args k ih =>
    show (run c args).thenOn _ = ((run c args).thenOn _).thenOn _
    rw [Routine.thenOn_thenOn]
    exact congrArg (run c args).thenOn (funext ih)

@[simp] theorem erase_bind (x : Outline α) (g : α → Outline β) :
    (x >>= g).erase run = x.erase run >>= fun a => (g a).erase run := by
  show _ = (x.erase run).bind _
  rw [bind_eq, erase_thenOn, Routine.bind_eq_thenOn]
  congr 1
  funext o
  cases o <;> rfl

@[simp] theorem erase_pure (a : α) : (pure a : Outline α).erase run = pure a := rfl

@[simp] theorem erase_map (f : α → β) (x : Outline α) :
    (f <$> x).erase run = f <$> x.erase run := by
  rw [map_eq_pure_bind, erase_bind, map_eq_pure_bind]
  rfl

@[simp] theorem erase_done (a : α) : (done a : Outline α).erase run = .done a := rfl

@[simp] theorem erase_fail (f : Failure) : (fail f : Outline α).erase run = .fail f := rfl

@[simp] theorem erase_attempt (x : Outline α) :
    x.attempt.erase run = (x.erase run).attempt := by
  rw [attempt, erase_thenOn, Routine.attempt_eq_thenOn]
  congr 1
  funext o
  cases o with
  | ok a => rfl
  | error f =>
    show (if f.isCatchable then done (.error f) else fail f : Outline (Except Failure α)).erase run = _
    rw [Routine.caught]
    split <;> rfl

@[simp] theorem erase_ofOutcome (o : Except Failure α) :
    (ofOutcome o).erase run = Routine.ofOutcome o := by
  cases o <;> rfl

@[simp] theorem erase_call (u : Use) (c : Ref .callable) (args : List Value) :
    (call u c args).erase run = run c args := by
  show (run c args).thenOn (fun o => (ofOutcome o).erase run) = _
  simp only [erase_ofOutcome]
  exact Routine.thenOn_ofOutcome _

@[simp] theorem erase_say (l : Remark) : (say l).erase run = pure () := rfl

theorem erase_ite (p : Prop) [Decidable p] (x y : Outline α) :
    (if p then x else y).erase run = if p then x.erase run else y.erase run := by
  split <;> rfl

theorem erase_each {f : α → Outline Unit} {g : α → Routine Unit}
    (h : ∀ a, (f a).erase run = g a) :
    ∀ xs : List α, (each f xs).erase run = Routine.each g xs
  | [] => rfl
  | a :: xs => by
    show ((f a) >>= fun _ => each f xs).erase run = (g a).bind fun _ => Routine.each g xs
    rw [erase_bind, h a]
    exact congrArg (g a).bind (funext fun _ => erase_each h xs)

end Erase

end Outline

end Conductor
