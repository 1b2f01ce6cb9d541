import Conductor.Value

/-!
# Scripts

A script stands for user code: what a handler, predicate or hook does when it is called, given as
data. Each call runs one body, a list of actions, and the last body serves all further calls. The
expressions in actions read the arguments of the call and compute with them.
-/

namespace Conductor.Script

/-- An expression over the arguments of a call. -/
inductive Expr where
  /-- A fresh copy of some data. -/
  | lit (d : Datum)
  /-- An argument, or what a path finds in it. -/
  | get (root : String) (path : Option String)
  | obj (entries : List (String × Expr))
  | list (items : List Expr)
  | add (a b : Expr)
  | mul (a b : Expr)
  | lt (a b : Expr)
  | eq (a b : Expr)
  | not (a : Expr)
  | upper (a : Expr)
  | kind (a : Expr)
  | msg (a : Expr)
  deriving Inhabited

/-- One action of a body. -/
inductive Action where
  | give (e : Expr)
  | raise (kind : FailureKind) (text : String)
  | note (e : Expr)
  | sleep (seconds : Binary64)
  | set (root path : String) (e : Expr)
  | choose (test : Expr) (yes no : List Action)
  /-- Answers through the reply of an agent, with data or with an error. -/
  | reply (isError : Bool) (e : Expr)
  /-- The same, with a failure to answer noted instead of raised. -/
  | tryReply (isError : Bool) (e : Expr)
  | addHook (point label : String) (quiet : Bool) (bodies : List (List Action))
  deriving Inhabited

/-- The names under which a script sees its arguments. -/
inductive Parameters where
  | named (names : List String)
  /-- All arguments together, under one name. -/
  | gathered
  deriving Inhabited

/-- User code with the number of times that it has been called. -/
structure Callable where
  label : String
  parameters : Parameters
  bodies : List (List Action)
  quiet : Bool
  calls : Nat
  deriving Inhabited

end Conductor.Script
