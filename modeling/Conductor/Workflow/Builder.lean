import Conductor.Store.Data
import Conductor.Workflow.Draft

/-!
# Builders

A builder works on a draft in place, call by call, and keeps the workflows that are built from it. Rows and
dictionaries are handed to it as values: a call takes from them what is in them at that time, and whoever
has handed them over may go on to change them. The items of a map step are frozen into a row of their own.

A call that fails leaves the draft as far as it has come by then.
-/

namespace Conductor

/-! ## Changes of a draft -/

namespace Draft

/-- What is done to a draft. -/
inductive Change where
  | declare (s : Step)
  | follow (id : String) (next : Successor)
  | sequence (ids : List String)
  | entry (id : String)
  | describe (v : Value)
  | input (v : Value)
  | output (v : Value)
  | tag (tags : List String)
  | onCompleted (c : Ref .callable)
  | onError (c : Ref .callable)
  | build

/-- Work on a draft in place: what has been done before a failure stays done. -/
abbrev Work := EStateM Cause Draft

namespace Work

/-- Adds a step under a new id. -/
def add (s : Step) : Work Unit := do
  let d ← get
  if Entries.has d.steps s.id then throw (.repeatedStep s.id d.id)
  else set { d with steps := Entries.insert d.steps s.id s }

/-- A declared step. -/
def require (id : String) : Work Step := do
  let d ← get
  match Entries.get? d.steps id with
  | some s => pure s
  | none => throw (.unknownStep id d.id)

/-- Sets the successor of a declared step. -/
def follow (id : String) (next : Successor) : Work Unit := do
  let s ← require id
  modify fun d => { d with steps := Entries.insert d.steps id (s.withNext next) }

/-- Asks that steps are declared, one after another. -/
def requireAll : List String → Work Unit
  | [] => pure ()
  | id :: ids => do
    let _ ← require id
    requireAll ids

/-- Links each step to the next one in a row, one link after another. -/
def link : List String → Work Unit
  | a :: b :: rest => do
    follow a (.one b)
    link (b :: rest)
  | _ => pure ()

/-- Links declared steps in a row. Unless an entrypoint has been set it is the first of them. -/
def sequence : List String → Work Unit
  | [] => pure ()
  | first :: rest => do
    requireAll (first :: rest)
    link (first :: rest)
    modify fun d => { d with entrypoint := d.entrypoint.or (some first) }

/-- Freezes what has been collected into a workflow. -/
def build : Work Workflow := do
  let d ← get
  match d.steps with
  | [] => throw (.noSteps d.id)
  | (first, _) :: _ =>
    pure ⟨d.id, d.name, d.steps, d.chosenEntry first, d.description, d.inputSchema, d.outputSchema,
      d.tags, d.onCompleted, d.onError⟩

end Work

/-- Does something to a draft, which may give a workflow. -/
def perform : Change → Work (Option Workflow)
  | .declare s => do Work.add s; pure none
  | .follow id next => do Work.follow id next; pure none
  | .sequence ids => do Work.sequence ids; pure none
  | .entry id => do modify fun d => { d with entrypoint := some id }; pure none
  | .describe v => do modify fun d => { d with description := v }; pure none
  | .input v => do modify fun d => { d with inputSchema := v }; pure none
  | .output v => do modify fun d => { d with outputSchema := v }; pure none
  | .tag tags => do modify fun d => { d with tags := d.tags ++ tags }; pure none
  | .onCompleted c => do modify fun d => { d with onCompleted := d.onCompleted ++ [c] }; pure none
  | .onError c => do modify fun d => { d with onError := d.onError ++ [c] }; pure none
  | .build => do let w ← Work.build; pure (some w)

end Draft

/-! ## Arguments -/

namespace Store

/-- A value cannot be gone through. -/
def notIterable (s : Store) (v : Value) : Cause :=
  .raised .badType s!"'{s.kindName v}' object is not iterable"

/-- What is in a row of values, the keys of a mapping, or the characters of a text. -/
def elements (s : Store) : Value → Except Cause (List Value)
  | .text t => .ok (t.toList.map fun c => .text c.toString)
  | v =>
    match s.row? v, s.mapping? v with
    | some vs, _ => .ok vs
    | none, some es => .ok ((Entries.keys es).map .text)
    | none, none => .error (s.notIterable v)

/-- The texts in a row of values. -/
def texts (s : Store) (v : Value) : Except Cause (List String) :=
  (s.elements v).map fun vs => vs.map Value.asText

/-- The successor that a value stands for. -/
def successor (s : Store) : Value → Except Cause Successor
  | .null => .ok .none
  | .text id => .ok (.one id)
  | v => (s.texts v).map .fan

/-- The entries of a mapping that may be left out, each read by a function. -/
def entriesOf? {α : Type} (s : Store) (read : Value → α) : Value → Except Cause (Option (Entries α))
  | .null => .ok none
  | v =>
    match s.mapping? v with
    | some es => .ok (some (es.map fun (k, w) => (k, read w)))
    | none => .error (s.notIterable v)

/-- The items that a value stands for. A row of items is frozen. -/
def items (s : Store) : Value → Except Cause (Items × Store)
  | .text path => .ok (.source path, s)
  | v => (s.elements v).map fun vs =>
    let (row, s) := s.newTuple vs
    (.literal row, s)

end Store

/-! ## Calls -/

/-- A builder with its draft, the workflows that were built so far, and the store that its arguments are
kept in. -/
structure Builder where
  store : Store
  draft : Draft
  built : List Workflow

namespace Builder

/-- A call on a builder. -/
inductive Call where
  | task (id name : String) (inputs outputs : Value) (guard : Option (Ref .callable))
    (retries : Int) (delay : Number) (next : Value)
  | parallel (id : String) (branches : Value) (waitForAll : Bool) (next : Value)
  | condition (id : String) (predicate : Ref .callable) (trueNext falseNext : String)
  | map (id : String) (items : Value) (iterator : String) (concurrency : Option Int) (next : Value)
  | retry (id : String) (r : RetryStep) (next : Value)
  | follow (id : String) (next : Value)
  | sequence (ids : Value)
  | entry (id : String)
  | describe (v : Value)
  | input (v : Value)
  | output (v : Value)
  | tag (tags : List String)
  | onCompleted (c : Ref .callable)
  | onError (c : Ref .callable)
  | build

/-- Why a call is refused before its arguments are read, given the workflow's id and the ids of the
steps that are declared. -/
def Call.barred (workflow : String) (declared : List String) : Call → Option Cause
  | .task id _ _ _ _ retries _ _ => if retries < 0 then some (.negativeRetries id) else none
  | .retry id r _ => if r.maxRetries < 0 then some (.negativeMaxRetries id) else none
  | .follow id _ => if id ∈ declared then none else some (.unknownStep id workflow)
  | _ => none

/-- What a call does to the draft, with what is in its arguments now. -/
def Call.resolve (s : Store) : Call → Except Cause (Draft.Change × Store)
  | .task id name inputs outputs guard retries delay next => do
    let inputs ← s.entriesOf? Source.ofValue inputs
    let outputs ← s.entriesOf? Value.asText outputs
    let next ← s.successor next
    .ok (.declare ⟨id, .task ⟨name, inputs, outputs, guard, retries, delay⟩, next⟩, s)
  | .parallel id branches waitForAll next => do
    let branches ← s.texts branches
    let next ← s.successor next
    .ok (.declare ⟨id, .parallel branches waitForAll, next⟩, s)
  | .condition id predicate trueNext falseNext =>
    .ok (.declare ⟨id, .condition predicate trueNext falseNext, .none⟩, s)
  | .map id items iterator concurrency next => do
    let (items, s) ← s.items items
    let next ← s.successor next
    .ok (.declare ⟨id, .map items iterator concurrency, next⟩, s)
  | .retry id r next => do
    let next ← s.successor next
    .ok (.declare ⟨id, .retry r, next⟩, s)
  | .follow id next => do
    let next ← s.successor next
    .ok (.follow id next, s)
  | .sequence ids => do
    let ids ← (if s.isTruthy ids then s.texts ids else .ok [])
    .ok (.sequence ids, s)
  | .entry id => .ok (.entry id, s)
  | .describe v => .ok (.describe v, s)
  | .input v => .ok (.input v, s)
  | .output v => .ok (.output v, s)
  | .tag tags => .ok (.tag tags, s)
  | .onCompleted c => .ok (.onCompleted c, s)
  | .onError c => .ok (.onError c, s)
  | .build => .ok (.build, s)

/-- What a builder answers to a call, and what it is like afterwards. A row that was frozen for a step that
is refused can be reached from nowhere, and is not kept. -/
def respond (b : Builder) (c : Call) : Except Cause (Option Workflow) × Builder :=
  match c.barred b.draft.id (Entries.keys b.draft.steps) with
  | some cause => (.error cause, b)
  | none =>
    match c.resolve b.store with
    | .error cause => (.error cause, b)
    | .ok (change, s) =>
      match (Draft.perform change).run b.draft with
      | .ok w d => (.ok w, ⟨s, d, b.built ++ w.toList⟩)
      | .error cause d => (.error cause, { b with draft := d })

end Builder

end Conductor
