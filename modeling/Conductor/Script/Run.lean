import Conductor.Path
import Conductor.Routine
import Conductor.Script.Action
import Conductor.Text.Case

/-!
# Running scripts

`invoke` runs user code that is given as a script: it counts the call, writes it into the journal,
and runs the body that the count selects. The replies of agents are left out of the journal,
because they have no look of their own.
-/

namespace Conductor.Script

/-! ## Expressions -/

/-- Two operands do not fit an operation. -/
def badOperands {α : Type} (operation : String) : Routine α :=
  .raise (.raised .badType s!"bad operands for {operation}")

/-- The sum of two integers, or two texts or two lists in a row. -/
def addValues : Value → Value → Routine Value
  | .int i, .int j => .done (.int (i + j))
  | .text s, .text t => .done (.text (s ++ t))
  | .list a, .list b => .modifyGet fun s => s.newList (s.get a ++ s.get b)
  | _, _ => badOperands "add"

/-- The product of two integers. -/
def mulValues : Value → Value → Routine Value
  | .int i, .int j => .done (.int (i * j))
  | _, _ => badOperands "mul"

/-- Whether one integer is less than another. -/
def ltValues : Value → Value → Routine Value
  | .int i, .int j => .done (.bool (i < j))
  | _, _ => badOperands "lt"

/-- Whether two values are equal. What is not a number equals nothing, and a failure only itself. -/
def equalValues (s : Store) : Value → Value → Bool
  | .float x, .float y => x.eqv y
  | .failure f, .failure g => f == g
  | v, w => v == w || (s.snapshot v).same (s.snapshot w)

/-- A text in upper case. -/
def upperValue : Value → Routine Value
  | .text s => .done (.text (Text.upper s))
  | _ => .raise (.raised .badType "bad operand for upper")

/-- An argument by its name. -/
def argument (args : Entries Value) (name : String) : Routine Value :=
  match Entries.get? args name with
  | some v => .done v
  | none => .raise (.raised .missingKey name)

mutual

/-- The value of an expression. -/
def Expr.eval (args : Entries Value) : Expr → Routine Value
  | .lit d => .modifyGet fun s => s.build d
  | .get root path => do
    let v ← argument args root
    match path with
    | some p => .query fun s => s.getPath v p
    | none => pure v
  | .obj es => do
    let vs ← Expr.evalEntries args es
    .modifyGet fun s => let (r, s) := s.newDict (Entries.ofList vs); (.dict r, s)
  | .list xs => do
    let vs ← Expr.evalItems args xs
    .modifyGet fun s => s.newList vs
  | .add a b => do
    let v ← a.eval args
    let w ← b.eval args
    addValues v w
  | .mul a b => do
    let v ← a.eval args
    let w ← b.eval args
    mulValues v w
  | .lt a b => do
    let v ← a.eval args
    let w ← b.eval args
    ltValues v w
  | .eq a b => do
    let v ← a.eval args
    let w ← b.eval args
    .read fun s => .bool (equalValues s v w)
  | .not a => do
    let v ← a.eval args
    .read fun s => .bool !(s.isTruthy v)
  | .upper a => do
    let v ← a.eval args
    upperValue v
  | .kind a => do
    let v ← a.eval args
    .read fun s => .text (s.kindName v)
  | .msg a => do
    let v ← a.eval args
    .read fun s => .text (s.showText v)

/-- The values of expressions in a row. -/
def Expr.evalItems (args : Entries Value) : List Expr → Routine (List Value)
  | [] => pure []
  | e :: es => do
    let v ← e.eval args
    let vs ← Expr.evalItems args es
    pure (v :: vs)

/-- The values of the entries of a dictionary. -/
def Expr.evalEntries (args : Entries Value) :
    List (String × Expr) → Routine (List (String × Value))
  | [] => pure []
  | (k, e) :: es => do
    let v ← e.eval args
    let vs ← Expr.evalEntries args es
    pure ((k, v) :: vs)

end

/-! ## Writing into arguments -/

/-- Writes an entry of a value that allows it. -/
def assign (v : Value) (key : String) (w : Value) : Routine Unit :=
  match v with
  | .dict r => .alter fun s => s.insert r key w
  | .list _ => .raise .textIndex
  | _ => .query fun s => .error (.noItemAssignment (s.kindName v))

/-- Follows segments, and writes under the last of them. -/
def assignAlong (w : Value) : Value → List String → Routine Unit
  | _, [] => .done ()
  | v, [leaf] => assign v leaf w
  | v, key :: keys => do
    let child ← .query fun s => s.lookup v key
    assignAlong w child keys

/-! ## Replies -/

/-- Answers through a reply, which takes one answer only. -/
def answer (r : Ref .reply) (isError : Bool) (v : Value) : Routine Unit := do
  let reply ← .read fun s => s.get r
  if reply.settled then .raise (.repliedTwice reply.agent)
  else .alter fun s => s.put r (reply.answered isError v)

/-- Answers through the reply among the arguments. -/
def answerArgument (args : Entries Value) (isError : Bool) (v : Value) : Routine Unit := do
  match ← argument args "reply" with
  | .reply r => answer r isError v
  | _ => .raise (.raised .attribute "no reply")

/-! ## Actions -/

/-- The parameters of hooks: all arguments are gathered under one name. -/
def hookParameters : Parameters := .gathered

/-- Registers user code as a hook. -/
def registerHook (point : String) (c : Callable) : Routine Unit := do
  match HookName.ofText? point with
  | some name =>
    .alter fun s =>
      let (r, s) := s.alloc c
      { s with hooks := s.hooks.add name r }
  | none => .raise (.unknownChoice "HookName" (Text.quoted point))

mutual

/-- Runs an action; a result ends the body. -/
def Action.run (label : String) (args : Entries Value) : Action → Routine (Option Value)
  | .give e => do
    let v ← e.eval args
    pure (some v)
  | .raise kind text => .raise (.raised kind text)
  | .note e => do
    let v ← e.eval args
    .alter fun s => s.write (.note label (s.snapshot v))
    pure none
  | .sleep seconds => do
    .sleep seconds
    pure none
  | .set root path e => do
    let w ← e.eval args
    let v ← argument args root
    assignAlong w v (Path.segments path)
    pure none
  | .choose test yes no => do
    let v ← test.eval args
    if ← .read fun s => s.isTruthy v then Action.runAll label args yes
    else Action.runAll label args no
  | .reply isError e => do
    let v ← e.eval args
    answerArgument args isError v
    pure none
  | .tryReply isError e => do
    let outcome ← Routine.attempt do
      let v ← e.eval args
      answerArgument args isError v
    match outcome with
    | .ok () => pure none
    | .error f =>
      .alter fun s => s.write (.note label (s.snapshot (.failure f)))
      pure none
  | .addHook point hook quiet bodies => do
    registerHook point ⟨hook, hookParameters, bodies, quiet, 0⟩
    pure none

/-- Runs actions until one of them gives a result. -/
def Action.runAll (label : String) (args : Entries Value) :
    List Action → Routine (Option Value)
  | [] => pure none
  | a :: rest => do
    match ← a.run label args with
    | some v => pure (some v)
    | none => Action.runAll label args rest

end

/-! ## Calls -/

/-- The arguments of a call under the names that the script sees them by. -/
def bindArguments (p : Parameters) (vs : List Value) : Routine (Entries Value) :=
  match p with
  | .named names => .done (names.zip vs)
  | .gathered => .modifyGet fun s => let (v, s) := s.newList vs; ([("args", v)], s)

/-- The body that serves a call, given its number from one. -/
def Callable.body (c : Callable) (count : Nat) : List Action :=
  (c.bodies[count - 1]?).getD (c.bodies.getLastD [])

/-- Whether an argument is written into the journal. -/
def isShown : Value → Bool
  | .reply _ => false
  | _ => true

/-- Runs user code that is given as a script. -/
def invoke : Handlers := fun r vs => do
  let c ← .read fun s => s.get r
  let count := c.calls + 1
  .alter fun s => s.put r { c with calls := count }
  if !c.quiet then
    .alter fun s => s.write (.call c.label count ((vs.filter isShown).map s.snapshot))
  let args ← bindArguments c.parameters vs
  let result ← Action.runAll c.label (args ++ [("calls", .int count)]) (c.body count)
  pure (result.getD .null)

end Conductor.Script
