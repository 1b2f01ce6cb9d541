import Conductor.Binary64.Decimal
import Conductor.Failure

/-!
# Plain data

A `Datum` is a finite tree without sharing: what a request brings in, what a report shows, and what
a value looked like at one moment. Dictionaries keep their entries in insertion order.

Beside the data proper it has leaves for what has no written form of its own: failures, opaque
objects, and marks (`Entity`) for the objects of this library. `repr` is the text of a datum inside
another text, `toText` its text on its own; they differ for texts and failures.
-/

namespace Conductor

/-- What is shown of an object of this library. -/
inductive Entity where
  | workflow (id : String)
  | step (id : String)
  | context (step : Option String)
  | task (name : String)
  | agent (name : String)
  | goal (name : String)
  | execution (id status : String)
  /-- User code. -/
  | code
  /-- An object of which only the name of its type is shown. -/
  | other (kind : String)
  deriving DecidableEq, Repr

/-- A member of a closed choice: the name of the choice, of the member, and its text. -/
structure Symbol where
  choice : String
  member : String
  value : String
  deriving DecidableEq, Repr

/-- A tree of plain data. -/
inductive Datum where
  | null
  | bool (b : Bool)
  | int (i : Int)
  | float (x : Binary64)
  | text (s : String)
  | list (items : List Datum)
  | tuple (items : List Datum)
  | dict (entries : List (String × Datum))
  /-- The recorded results of a workflow's steps. -/
  | results (entries : List (String × Datum))
  /-- A model, shown by its fields. -/
  | record (kind : String) (fields : List (String × Datum))
  | symbol (s : Symbol)
  | failure (kind : FailureKind) (text : String)
  | foreign (shown : String)
  | entity (e : Entity)
  deriving Inhabited

namespace Datum

/-! ## Text -/

/-- Texts with a separator between neighbours. -/
def joined (separator : String) : List String → String
  | [] => ""
  | [s] => s
  | s :: rest => s ++ separator ++ joined separator rest

/-- The text of an entity. -/
def entityText : Entity → String
  | .workflow id => s!"<workflow {id}>"
  | .step id => s!"<step {id}>"
  | .context _ => "<context>"
  | .task n => s!"<task {n}>"
  | .agent n => s!"<agent {n}>"
  | .goal n => s!"<goal {n}>"
  | .execution id _ => s!"<execution {id}>"
  | .code => "<code>"
  | .other k => s!"<{k}>"

mutual

/-- The text of a datum inside another text. -/
def repr : Datum → String
  | .null => "None"
  | .bool b => if b then "True" else "False"
  | .int i => toString i
  | .float x => x.toText
  | .text s => Text.quoted s
  | .list xs => "[" ++ joined ", " (reprItems xs) ++ "]"
  | .tuple xs =>
    match reprItems xs with
    | [t] => "(" ++ t ++ ",)"
    | ts => "(" ++ joined ", " ts ++ ")"
  | .dict es => "\x7b" ++ joined ", " (reprEntries es) ++ "\x7d"
  | .results es => "StepResults(\x7b" ++ joined ", " (reprEntries es) ++ "\x7d)"
  | .record k fs => k ++ "(" ++ joined ", " (reprFields fs) ++ ")"
  | .symbol s => s!"<{s.choice}.{s.member}: {Text.quoted s.value}>"
  | .failure k t => k.name ++ "(" ++ Text.quoted t ++ ")"
  | .foreign t => t
  | .entity e => entityText e

/-- The texts of a list of data. -/
def reprItems : List Datum → List String
  | [] => []
  | x :: xs => x.repr :: reprItems xs

/-- The texts of dictionary entries. -/
def reprEntries : List (String × Datum) → List String
  | [] => []
  | (k, v) :: es => (Text.quoted k ++ ": " ++ v.repr) :: reprEntries es

/-- The texts of the fields of a model. -/
def reprFields : List (String × Datum) → List String
  | [] => []
  | (k, v) :: es => (k ++ "=" ++ v.repr) :: reprFields es

end

/-- The text of a datum on its own. -/
def toText : Datum → String
  | .text s => s
  | .failure k t => k.wording t
  | .symbol s => s!"{s.choice}.{s.member}"
  | .record _ fs => joined " " (reprFields fs)
  | d => d.repr

/-! ## Truth and kind -/

/-- Whether a datum counts as true: not if it is nothing, zero or empty. -/
def isTruthy : Datum → Bool
  | .null => false
  | .bool b => b
  | .int i => i != 0
  | .float x => !x.isZero
  | .text s => !s.isEmpty
  | .list xs | .tuple xs => !xs.isEmpty
  | .dict es | .results es => !es.isEmpty
  | _ => true

/-- The name of the type of a datum. -/
def kindName : Datum → String
  | .null => "NoneType"
  | .bool _ => "bool"
  | .int _ => "int"
  | .float _ => "float"
  | .text _ => "str"
  | .list _ => "list"
  | .tuple _ => "tuple"
  | .dict _ => "dict"
  | .results _ => "StepResults"
  | .record k _ => k
  | .symbol s => s.choice
  | .failure k _ => k.name
  | .foreign _ => "Opaque"
  | .entity e =>
    match e with
    | .workflow _ => "WorkflowDefinition"
    | .step _ => "Step"
    | .context _ => "WorkflowContext"
    | .task _ => "Task"
    | .agent _ => "Agent"
    | .goal _ => "TaskDefinition"
    | .execution _ _ => "ExecutionContext"
    | .code => "function"
    | .other k => k

/-! ## Equality -/

/-- The integer that a truth value or an integer stands for. -/
def int? : Datum → Option Int
  | .bool b => some (if b then 1 else 0)
  | .int i => some i
  | _ => none

/-- The text that a text or a member of a choice stands for. -/
def text? : Datum → Option String
  | .text s => some s
  | .symbol s => some s.value
  | _ => none

/-- Equality of leaves: numbers by value across their types, members of a choice as their text. -/
def sameLeaf (a b : Datum) : Bool :=
  match a, b with
  | .null, .null => true
  | .float x, .float y => x.eqv y
  | .failure k s, .failure l t => k == l && s == t
  | .foreign s, .foreign t => s == t
  | .entity e, .entity f => e == f
  | a, b =>
    match a.int?, b.int?, a.text?, b.text? with
    | some i, some j, _, _ => i == j
    | some i, none, _, _ => (match b with | .float y => y.eqInt i | _ => false)
    | none, some j, _, _ => (match a with | .float x => x.eqInt j | _ => false)
    | _, _, some s, some t => s == t
    | _, _, _, _ => false

mutual

/-- Equality of data: numbers by value, dictionaries without regard to order. -/
def same : Datum → Datum → Bool
  | .list xs, .list ys => sameItems xs ys
  | .tuple xs, .tuple ys => sameItems xs ys
  | .dict xs, .dict ys => xs.length == ys.length && sameEntries xs ys
  | .dict xs, .results ys => xs.length == ys.length && sameEntries xs ys
  | .results xs, .dict ys => xs.length == ys.length && sameEntries xs ys
  | .results xs, .results ys => xs.length == ys.length && sameEntries xs ys
  | .record k xs, .record l ys => k == l && sameEntries xs ys
  | a, b => sameLeaf a b

/-- Equality of lists, item by item. -/
def sameItems : List Datum → List Datum → Bool
  | [], [] => true
  | x :: xs, y :: ys => x.same y && sameItems xs ys
  | _, _ => false

/-- Whether every entry has an equal entry under the same key on the other side. -/
def sameEntries : List (String × Datum) → List (String × Datum) → Bool
  | [], _ => true
  | (k, v) :: es, ys =>
    (match ys.lookup k with | some w => v.same w | none => false) && sameEntries es ys

end

/-! ## Depth -/

mutual

/-- How deep data are nested. -/
def depth : Datum → Nat
  | .list xs | .tuple xs => depthOfItems xs + 1
  | .dict es | .results es | .record _ es => depthOfEntries es + 1
  | _ => 0

/-- How deep a list of data is nested. -/
def depthOfItems : List Datum → Nat
  | [] => 0
  | x :: xs => Nat.max (depth x) (depthOfItems xs)

/-- How deep dictionary entries are nested. -/
def depthOfEntries : List (String × Datum) → Nat
  | [] => 0
  | (_, x) :: xs => Nat.max (depth x) (depthOfEntries xs)

end

/-! ## Access -/

/-- The entry of a dictionary under a key. -/
def get? (d : Datum) (key : String) : Option Datum :=
  match d with
  | .dict es | .results es | .record _ es => es.lookup key
  | _ => none

/-- The items of a list, and nothing for other data. -/
def items : Datum → List Datum
  | .list xs | .tuple xs => xs
  | _ => []

/-- The entries of a dictionary, and nothing for other data. -/
def entries : Datum → List (String × Datum)
  | .dict es | .results es | .record _ es => es
  | _ => []

/-- The entry of a dictionary under a key, or null. -/
def field (d : Datum) (key : String) : Datum := (d.get? key).getD .null

/-- The item of a list at a position, or null. -/
def item (d : Datum) (i : Nat) : Datum := d.items.getD i .null

/-- A text, if it is one. -/
def asText? : Datum → Option String
  | .text s => some s
  | _ => none

/-- A text, or the empty one. -/
def asText (d : Datum) : String := d.asText?.getD ""

/-- The texts in a list. -/
def asTexts (d : Datum) : List String := d.items.map asText

/-- An integer, or nothing if there is none. -/
def asInt? : Datum → Option Int
  | .null => none
  | d => some (d.int?.getD 0)

/-- Whether a truth value is given and true. -/
def asFlag : Datum → Bool
  | .bool b => b
  | _ => false

/-- The pairs in a list of rows of a key and a value. -/
def asPairs (d : Datum) : List (String × Datum) :=
  d.items.map fun p => ((p.item 0).asText, p.item 1)

/-- Entries as a list of rows of a key and a value, which shows their order. -/
def ofPairs (es : List (String × Datum)) : Datum :=
  .list (es.map fun (k, v) => .list [.text k, v])

end Datum

end Conductor
