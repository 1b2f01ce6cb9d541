import Conductor.Routine

/-!
# Schedules

A schedule is the state of a run in which several branches take turns. At most one branch is active;
the others wait in the queue of jobs that are ready, for a timer, or for other branches in a join.

A branch that ends gives notice to whoever asked for it, through the queue. A join settles when
enough notices have come in, and then wakes its owner, again through the queue. Branches are never
stopped: those that nobody waits for any more are listed as detached until their last notice.
-/

namespace Conductor

/-- The number of a branch, in the order in which branches begin. -/
abbrev BranchId := Nat

/-- The number of a join. -/
abbrev JoinId := Nat

/-- What is to be done when a branch has ended. -/
inductive Notice where
  /-- The branch counts for a join. -/
  | count (j : JoinId)
  /-- The branch is no longer listed as detached, and its failure is logged. -/
  | forget
  deriving DecidableEq, Repr

/-- A branch: how it goes on after a wait, how it has ended, and who is told of its end. -/
structure Branch where
  resume : Outcome → Routine Value
  outcome? : Option (Except Failure Value)
  notices : List Notice

instance : Inhabited Branch := ⟨⟨fun _ => default, none, []⟩⟩

/-- What a join waits for. -/
inductive JoinKind where
  /-- The success of all branches, or the first failure. -/
  | all
  /-- The first branch to end. -/
  | first
  /-- The end of all branches, whatever it is. -/
  | ended
  deriving DecidableEq, Repr

/-- A branch waiting for others. -/
structure Join where
  kind : JoinKind
  owner : BranchId
  branches : List BranchId
  /-- How many branches have counted. -/
  counted : Nat
  /-- Whether the owner has been called. -/
  settled : Bool
  /-- The failure that settled the join. -/
  failure? : Option Failure

instance : Inhabited Join := ⟨⟨.all, 0, [], 0, false, none⟩⟩

/-- Something that is ready to be done. -/
inductive Job where
  /-- Starts a branch, or lets it go on after a sleep. -/
  | resume (b : BranchId)
  | notify (b : BranchId) (n : Notice)
  | wake (j : JoinId)
  /-- A timer has run out. -/
  | ring (b : BranchId)
  deriving DecidableEq, Repr

/-- A branch that sleeps until a point in time. -/
structure Timer where
  due : Binary64
  branch : BranchId
  deriving DecidableEq, Repr

/-- The state of a run in which branches take turns. -/
structure Schedule where
  store : Store
  branches : Array Branch
  joins : Array Join
  /-- The jobs that are ready, the next one first. -/
  ready : List Job
  /-- The timers in the order of their creation. -/
  timers : List Timer
  /-- The branches that were left behind. -/
  detached : List BranchId
  /-- The branch whose turn it is, and what is left of its turn. -/
  active : Option (BranchId × Routine Value)

namespace Schedule

/-- A schedule in which nothing has begun. -/
def ofStore (s : Store) : Schedule := ⟨s, #[], #[], [], [], [], none⟩

instance : Inhabited Schedule := ⟨ofStore default⟩

/-- A branch. -/
def branch (m : Schedule) (b : BranchId) : Branch := m.branches.getD b default

/-- A join. -/
def join (m : Schedule) (j : JoinId) : Join := m.joins.getD j default

/-- How a branch has ended. -/
def outcome? (m : Schedule) (b : BranchId) : Option (Except Failure Value) :=
  (m.branch b).outcome?

/-- Whether a branch has not ended. -/
def isOpen (m : Schedule) (b : BranchId) : Bool := (m.outcome? b).isNone

/-- Changes a branch. -/
def updateBranch (m : Schedule) (b : BranchId) (f : Branch → Branch) : Schedule :=
  { m with branches := m.branches.modify b f }

/-- Changes a join. -/
def updateJoin (m : Schedule) (j : JoinId) (f : Join → Join) : Schedule :=
  { m with joins := m.joins.modify j f }

/-- Appends a job to the queue. -/
def enqueue (m : Schedule) (job : Job) : Schedule := { m with ready := m.ready ++ [job] }

/-- Appends jobs to the queue. -/
def enqueueAll (m : Schedule) (jobs : List Job) : Schedule := { m with ready := m.ready ++ jobs }

/-- Gives a branch its turn. -/
def activate (m : Schedule) (b : BranchId) (r : Routine Value) : Schedule :=
  { m with active := some (b, r) }

/-- Ends the turn of a branch, which is to go on as given. -/
def suspend (m : Schedule) (b : BranchId) (resume : Outcome → Routine Value) : Schedule :=
  { m.updateBranch b fun x => { x with resume } with active := none }

end Schedule

end Conductor
