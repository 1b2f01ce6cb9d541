import Conductor.Goal.Settings
import Conductor.Hook.Emission
import Conductor.Store.Data
import Conductor.Text.Numeral

/-!
# Evaluating results

A result is scored against each criterion of its goal in turn. Every score is brought into the
range from zero to one; the result passes if the average reaches the threshold. Criteria with a
threshold of their own that is missed are listed, which does not decide anything.
-/

namespace Conductor

namespace Store

/-- Whether there is anything in a value: it is neither nothing nor an empty collection. -/
def isPresent (s : Store) (v : Value) : Bool :=
  match v with
  | .null => false
  | .text t => !t.isEmpty
  | .symbol y => !y.value.isEmpty
  | .names ts => !ts.isEmpty
  | .list r | .tuple r => !(s.get r).isEmpty
  | .dict r | .results r => !(s.get r).isEmpty
  | .steps w => !(s.get w).steps.isEmpty
  | _ => true

/-- The score of a value without a scorer: one if there is anything in it, else zero. -/
def presence (s : Store) (v : Value) : Binary64 :=
  if s.isPresent v then Binary64.one else Binary64.zero

/-- The floating-point number that a value stands for. -/
def readBinary64 (s : Store) (v : Value) : Except Cause Binary64 :=
  match v with
  | .float x => .ok x
  | .int i => (Number.int i).toBinary64
  | .bool b => .ok (if b then Binary64.one else Binary64.zero)
  | .text t =>
    match Text.readFloat? t with
    | some x => .ok x
    | none => .error (.badFloat (Text.quoted t))
  | .symbol y => .error (.badFloat (Datum.symbol y).repr)
  | v => .error (.notNumeric (s.kindName v))

end Store

namespace Evaluation

/-- Where evaluations are logged. -/
def logger : String := "orchestration.evaluation"

/-- How results are scored: the settings, and user code that scores one criterion. -/
structure Judge where
  call : Handlers
  settings : Goal.Settings
  scorer : Option (Ref .callable)

/-- A number brought into the range from zero to one. -/
def clamp (x : Binary64) : Binary64 := (x.max Binary64.zero).min Binary64.one

/-- The score that a criterion has for a result. -/
def scoreOf (j : Judge) (name : String) (criterion result : Value) : Routine Binary64 :=
  match j.scorer with
  | none => .read fun s => clamp (s.presence result)
  | some c => do
    let raw ← j.call c [.text name, criterion, result]
    .query fun s => (s.readBinary64 raw).map clamp

/-- The scores of all criteria, each under its name and with its criterion. -/
def scores (j : Judge) (result : Value) :
    List (String × Value) → Routine (List (String × Value × Binary64))
  | [] => pure []
  | (name, criterion) :: rest => do
    let score ← scoreOf j name criterion result
    let more ← scores j result rest
    pure ((name, criterion, score) :: more)

/-- The average of scores: their sum, from the left, divided by their number. -/
def average (xs : List Binary64) : Binary64 := (Binary64.sum xs).div (Binary64.ofNat xs.length)

/-- Whether a score misses the threshold of its criterion. -/
def misses (s : Store) (criterion : Value) (score : Binary64) : Bool :=
  match criterion with
  | .criterion r =>
    match (s.get r).threshold with
    | some t => score.lt t
    | none => false
  | _ => false

/-- The names of the criteria that were missed. -/
def missed (s : Store) (scored : List (String × Value × Binary64)) : List String :=
  (scored.filter fun (_, criterion, score) => misses s criterion score).map Prod.fst

/-- Puts an evaluation into the store. -/
def record (passed : Bool) (score : Binary64) (scores : List (String × Binary64))
    (unmet : List String) : Routine (Ref .evaluation) :=
  .modifyGet fun s =>
    let (criteria, s) := s.newDict (scores.map fun (name, x) => (name, .float x))
    let (missed, s) := s.alloc (t := .sequence) (unmet.map Value.text)
    s.alloc ⟨passed, score, criteria, missed⟩

/-- Scores a result against the criteria of a goal. Without criteria every result passes. -/
def evaluate (j : Judge) (g : Ref .goal) (result : Value) : Routine (Ref .evaluation) := do
  let criteria ← .read fun s => s.get (s.get g).criteria
  if !j.settings.enabled || criteria.isEmpty then record true Binary64.one [] []
  else
    let scored ← scores j result criteria
    let mean := average (scored.map fun (_, _, score) => score)
    let passed := j.settings.threshold.le mean
    let missing ← .read fun s => missed s scored
    let e ← record passed mean (scored.map fun (name, _, score) => (name, score)) missing
    let name ← .read fun s => (s.get g).name
    let shownMean := mean.fixed 3
    let shownPassed := (Datum.bool passed).repr
    .log .debug logger s!"Evaluated {name}: score={shownMean} passed={shownPassed}"
      [("task", .text name)]
    pure e

/-- Evaluates a result between two hooks. -/
def judge (j : Judge) (g : Ref .goal) (result : Value) : Routine (Ref .evaluation) := do
  HookName.evaluationStart.emit j.call [.goal g, result]
  let e ← evaluate j g result
  HookName.evaluationEnd.emit j.call [.goal g, result, .evaluation e]
  pure e

/-- A fresh dictionary with the fields of an evaluation. -/
def dump (r : Ref .evaluation) : Routine Value :=
  .modifyGet fun s =>
    let e := s.get r
    let (criteria, s) := s.newDict (s.get e.criteria)
    let (missed, s) := s.newList (s.get e.unmet)
    let (fields, s) := s.newDict [("passed", .bool e.passed), ("score", .float e.score),
      ("criteria", .dict criteria), ("unmet", missed)]
    (.dict fields, s)

end Evaluation

end Conductor
