import Conductor.Script.Action

/-!
# Scripts as data

A script can be given as data: an object with a label and a list of bodies, in which every action
and every expression is an object with a single entry. The key of the entry says what it is. What
cannot be understood does nothing.
-/

namespace Conductor.Script

/-! ## Marked data -/

mutual

/-- Data in which marks stand for what has no written form of its own: numbers that are not finite,
failures, and opaque objects. -/
def unmark : Datum → Datum
  | .list xs => .list (unmarkItems xs)
  | .dict [("$float", .text t)] => .float (unmarkFloat t)
  | .dict [("$exc", .list [.text k, .text t])] =>
    .failure ((FailureKind.ofName? k).getD .custom) t
  | .dict [("$obj", .text t)] => .foreign t
  | .dict es => .dict (unmarkEntries es)
  | d => d

/-- A list of data with marks. -/
def unmarkItems : List Datum → List Datum
  | [] => []
  | d :: ds => unmark d :: unmarkItems ds

/-- Dictionary entries with marks. -/
def unmarkEntries : List (String × Datum) → List (String × Datum)
  | [] => []
  | (k, d) :: es => (k, unmark d) :: unmarkEntries es

/-- The number that a word stands for. -/
def unmarkFloat (word : String) : Binary64 :=
  match word with
  | "inf" => .infinite false
  | "-inf" => .infinite true
  | _ => .nan

end

/-! ## Expressions -/

/-- An expression from data; the fuel bounds the nesting. -/
def exprOf : Nat → Datum → Expr
  | 0, _ => .lit .null
  | fuel + 1, .dict [(key, v)] =>
    let arg (i : Nat) : Expr := exprOf fuel (v.item i)
    match key with
    | "lit" => .lit (unmark v)
    | "get" => .get (v.item 0).asText (v.item 1).asText?
    | "obj" => .obj (v.asPairs.map fun (k, e) => (k, exprOf fuel e))
    | "list" => .list (v.items.map (exprOf fuel))
    | "add" => .add (arg 0) (arg 1)
    | "mul" => .mul (arg 0) (arg 1)
    | "lt" => .lt (arg 0) (arg 1)
    | "eq" => .eq (arg 0) (arg 1)
    | "not" => .not (exprOf fuel v)
    | "upper" => .upper (exprOf fuel v)
    | "kind" => .kind (exprOf fuel v)
    | "msg" => .msg (exprOf fuel v)
    | _ => .lit .null
  | _, _ => .lit .null

/-- An expression from data. -/
def Expr.ofDatum (d : Datum) : Expr := exprOf (d.depth + 1) d

/-! ## Actions -/

/-- A number of seconds from data. -/
def secondsOf : Datum → Binary64
  | .float x => x
  | .int i => (Binary64.ofInt? i).getD Binary64.zero
  | _ => Binary64.zero

/-- The label of a script, which may be given as its name. -/
def labelOf (d : Datum) : String :=
  match d.get? "label" with
  | some l => l.asText
  | none => (d.field "name").asText

/-- The kind of a failure by its name. -/
def kindOf (d : Datum) : FailureKind := (FailureKind.ofName? d.asText).getD .custom

/-- An action from data; the fuel bounds the nesting. -/
def actionOf : Nat → Datum → Action
  | 0, _ => .note (.lit .null)
  | fuel + 1, .dict [(key, v)] =>
    let bodyOf (d : Datum) : List Action := d.items.map (actionOf fuel)
    let isError := (v.item 0).asText == "error"
    match key with
    | "return" => .give (.ofDatum v)
    | "raise" => .raise (kindOf (v.item 0)) (v.item 1).asText
    | "note" => .note (.ofDatum v)
    | "sleep" => .sleep (secondsOf (unmark v))
    | "set" => .set (v.item 0).asText (v.item 1).asText (.ofDatum (v.item 2))
    | "if" => .choose (.ofDatum (v.item 0)) (bodyOf (v.item 1)) (bodyOf (v.item 2))
    | "reply" => .reply isError (.ofDatum (v.item 1))
    | "try_reply" => .tryReply isError (.ofDatum (v.item 1))
    | "add_hook" =>
      let hook := v.item 1
      .addHook (v.item 0).asText (labelOf hook) (hook.field "quiet").asFlag
        ((hook.field "script").items.map bodyOf)
    | _ => .note (.lit .null)
  | _, _ => .note (.lit .null)

/-- User code from data. -/
def Callable.ofDatum (parameters : Parameters) (d : Datum) : Callable :=
  let bodies := (d.field "script").items.map fun body =>
    body.items.map fun a => actionOf (a.depth + 1) a
  ⟨labelOf d, parameters, bodies, (d.field "quiet").asFlag, 0⟩

/-! ## Parameters -/

namespace Parameters

/-- What a predicate of a context gets. -/
def ofContext : Parameters := .named ["context"]

/-- What the handler of a task gets. -/
def ofTask : Parameters := .named ["input", "context"]

/-- What decides on a further try. -/
def ofRetry : Parameters := .named ["error", "attempt"]

/-- What an agent gets. -/
def ofAgent : Parameters := .named ["task", "body", "tools", "reply"]

/-- What a scorer gets. -/
def ofScorer : Parameters := .named ["name", "criterion", "result"]

/-- What is told of a completed run. -/
def ofCompleted : Parameters := .named ["output", "context"]

/-- What is told of a failed run. -/
def ofFailed : Parameters := .named ["error", "context"]

end Parameters

end Conductor.Script
