import Conductor.Schedule.Basic

/-!
# Steps of a schedule

One step advances the active branch by one action. Without an active branch it does the first job of
the queue, and with an empty queue it moves the clock to the next timer. Every step is finite, and
a schedule without anything left to do has none.
-/

namespace Conductor

namespace Schedule

/-! ## Branches -/

/-- Starts a branch at the end of the queue. -/
def spawn (m : Schedule) (r : Routine Value) : BranchId × Schedule :=
  let b := m.branches.size
  (b, { m with
    branches := m.branches.push ⟨fun _ => r, none, []⟩
    ready := m.ready ++ [.resume b] })

/-- Starts branches one after another. -/
def spawnAll (m : Schedule) : List (Routine Value) → List BranchId × Schedule
  | [] => ([], m)
  | r :: rs =>
    let (b, m) := m.spawn r
    let (bs, m) := spawnAll m rs
    (b :: bs, m)

/-- Asks for notice of the end of a branch; of a branch that has ended it is given at once. -/
def watch (m : Schedule) (n : Notice) (b : BranchId) : Schedule :=
  if m.isOpen b then m.updateBranch b fun x => { x with notices := x.notices ++ [n] }
  else m.enqueue (.notify b n)

/-- Asks for notice of the end of several branches. -/
def watchAll (m : Schedule) (n : Notice) (bs : List BranchId) : Schedule :=
  bs.foldl (fun m b => m.watch n b) m

/-- Ends a branch and gives notice of it. -/
def finish (m : Schedule) (b : BranchId) (outcome : Except Failure Value) : Schedule :=
  let notices := (m.branch b).notices
  { (m.updateBranch b fun x => { x with outcome? := some outcome, notices := [] }).enqueueAll
      (notices.map (.notify b)) with active := none }

/-- Leaves a branch behind. -/
def detach (m : Schedule) (b : BranchId) : Schedule :=
  { m with detached := m.detached ++ [b] }.watch .forget b

/-- Leaves behind those of several branches that have not ended. -/
def detachOpen (m : Schedule) (bs : List BranchId) : Schedule :=
  (bs.filter m.isOpen).foldl detach m

/-! ## Waiting -/

/-- Waits for branches in a join. -/
def joinOn (m : Schedule) (b : BranchId) (kind : JoinKind) (bs : List BranchId)
    (resume : Outcome → Routine Value) : Schedule :=
  let j := m.joins.size
  let m := { m with joins := m.joins.push ⟨kind, b, bs, 0, false, none⟩ }
  (m.watchAll (.count j) bs).suspend b resume

/-- Sleeps. A sleep that is not positive only lets all others have their turn. -/
def sleep (m : Schedule) (b : BranchId) (seconds : Binary64) (resume : Outcome → Routine Value) :
    Schedule :=
  let m := m.suspend b resume
  if Binary64.zero.lt seconds then
    { m with timers := m.timers ++ [⟨m.store.clock.add seconds, b⟩] }
  else m.enqueue (.resume b)

/-- Starts parts of the run as branches and waits for them. -/
def startAndJoin (m : Schedule) (body : Procedure → Routine Value) (b : BranchId)
    (kind : JoinKind) (ps : List Procedure) (resume : Outcome → Routine Value) : Schedule :=
  match ps with
  | [] => m.activate b (resume (.ok []))
  | ps =>
    let (bs, m) := m.spawnAll (ps.map body)
    m.joinOn b kind bs resume

/-- What the active branch waits for is arranged. -/
def wait (m : Schedule) (body : Procedure → Routine Value) (b : BranchId) (w : Wait)
    (resume : Outcome → Routine Value) : Schedule :=
  match w with
  | .call p => m.activate b ((body p).continueWith resume)
  | .sleep seconds => m.sleep b seconds resume
  | .all ps => m.startAndJoin body b .all ps resume
  | .first ps => m.startAndJoin body b .first ps resume
  | .detached =>
    if m.detached.isEmpty then m.activate b (resume (.ok []))
    else m.joinOn b .ended m.detached fun _ => .await .detached resume

/-- Advances the active branch by one action. -/
def advance (m : Schedule) (body : Procedure → Routine Value) (b : BranchId) :
    Routine Value → Schedule
  | .done v => m.finish b (.ok v)
  | .fail f => m.finish b (.error f)
  | .get k => m.activate b (k m.store)
  | .put s r => { m with store := s }.activate b r
  | .await w k => m.wait body b w k

/-! ## Jobs -/

/-- Calls the owner of a join, which happens once. -/
def settle (m : Schedule) (j : JoinId) (failure? : Option Failure) : Schedule :=
  (m.updateJoin j fun x => { x with settled := true, failure? }).enqueue (.wake j)

/-- The failure of an outcome. -/
def failureOf : Option (Except Failure Value) → Option Failure
  | some (.error f) => some f
  | _ => none

/-- Counts a branch for a join. -/
def count (m : Schedule) (j : JoinId) (b : BranchId) : Schedule :=
  let m := m.updateJoin j fun x => { x with counted := x.counted + 1 }
  let x := m.join j
  if x.settled then m
  else match x.kind with
    | .first => m.settle j none
    | .ended => if x.counted == x.branches.length then m.settle j none else m
    | .all =>
      match failureOf (m.outcome? b) with
      | some f => m.settle j (some f)
      | none => if x.counted == x.branches.length then m.settle j none else m

/-- Where the failures of detached branches are logged. -/
def logger : String := "workflow.interpreter"

/-- Strikes a branch off the list of detached ones, and logs its failure. -/
def forget (m : Schedule) (b : BranchId) : Schedule :=
  let m := { m with detached := m.detached.filter (· != b) }
  match failureOf (m.outcome? b) with
  | some f =>
    let reason := f.message
    { m with store := m.store.write (.log .warning logger
        s!"Detached branch failed after its step settled: {reason}" []) }
  | none => m

/-- The results of branches that have all succeeded. -/
def resultsOf (m : Schedule) (bs : List BranchId) : List Value :=
  bs.map fun b => match m.outcome? b with | some (.ok v) => v | _ => .null

/-- The outcome of the first branch in a list that has ended. -/
def winner (m : Schedule) (bs : List BranchId) : Outcome :=
  match bs.findSome? m.outcome? with
  | some (.ok v) => .ok [v]
  | some (.error f) => .error f
  | none => .ok []

/-- Lets the owner of a settled join go on. Branches that it no longer waits for are detached. -/
def wake (m : Schedule) (j : JoinId) : Schedule :=
  let x := m.join j
  let resume := (m.branch x.owner).resume
  match x.kind with
  | .ended => m.activate x.owner (resume (.ok []))
  | .first => (m.detachOpen x.branches).activate x.owner (resume (m.winner x.branches))
  | .all =>
    match x.failure? with
    | none => m.activate x.owner (resume (.ok (m.resultsOf x.branches)))
    | some f =>
      let m := if f.isCatchable then m.detachOpen x.branches else m
      m.activate x.owner (resume (.error f))

/-- Does one job. -/
def doJob (m : Schedule) : Job → Schedule
  | .resume b => m.activate b ((m.branch b).resume (.ok []))
  | .notify b (.count j) => m.count j b
  | .notify b .forget => m.forget b
  | .wake j => m.wake j
  | .ring b => m.enqueue (.resume b)

/-! ## Time -/

/-- The earliest point in time at which a timer is due. -/
def earliest : List Timer → Option Binary64
  | [] => none
  | t :: ts =>
    match earliest ts with
    | none => some t.due
    | some d => some (t.due.min d)

/-- Moves the clock to the next timer; all timers due at that time ring. -/
def jump (m : Schedule) : Option Schedule :=
  match earliest m.timers with
  | none => none
  | some d =>
    let due := m.timers.filter fun t => !d.lt t.due
    some { m with
      store := { m.store with clock := d }
      timers := m.timers.filter fun t => d.lt t.due
      ready := due.map fun t => .ring t.branch }

/-! ## Steps -/

/-- One step, or nothing if there is nothing left to do. -/
def step (body : Procedure → Routine Value) (m : Schedule) : Option Schedule :=
  match m.active with
  | some (b, r) => some (m.advance body b r)
  | none =>
    match m.ready with
    | job :: rest => some (doJob { m with ready := rest } job)
    | [] => m.jump

end Schedule

end Conductor
