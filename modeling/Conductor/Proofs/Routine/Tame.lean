import Conductor.Workflow.Visit

/-!
# Tame routines

An abort passes through every handler: no retry sees it, and branches whose sibling aborts are not
left behind in good order. A routine is *tame* when no abort leaves it as long as no abort comes
out of what it waits for, and when it calls and starts nothing but visits.

Tameness goes through sequencing, handlers and continuations, so a routine that is put together
from tame ones is tame.

Main result: `Visit.Scene.visit_tame`. A visit is tame if the user code that it calls is.
-/

namespace Conductor

/-- Part of a run that visits a step. -/
def Procedure.IsVisit : Procedure → Prop
  | .visit .. => True
  | .pursue .. => False

/-- The parts of a run that are called or started by a wait. -/
def Wait.procedures : Wait → List Procedure
  | .call p => [p]
  | .all ps | .first ps => ps
  | .sleep _ | .detached => []

/-- What happened can be handled. -/
def Cause.Tame (c : Cause) : Prop := c.kind.isCatchable = true

/-- An outcome that is no abort. -/
def Tame {α : Type} (o : Except Failure α) : Prop := ∀ f, o = .error f → f.isCatchable = true

@[simp] theorem tame_ok {α : Type} (a : α) : Tame (.ok a : Except Failure α) :=
  fun _ h => nomatch h

@[simp] theorem tame_error {α : Type} (f : Failure) :
    Tame (.error f : Except Failure α) ↔ f.isCatchable = true :=
  ⟨fun h => h f rfl, fun h g hg => by cases hg; exact h⟩

namespace Routine

variable {α β : Type}

/-- No abort leaves the routine unless one comes out of what it waits for, and it calls and starts
only visits. -/
def Tame : Routine α → Prop
  | .done _ => True
  | .fail f => f.isCatchable = true
  | .get k => ∀ s, (k s).Tame
  | .put _ r => r.Tame
  | .await w k => (∀ p ∈ w.procedures, p.IsVisit) ∧ ∀ o, Conductor.Tame o → (k o).Tame

/-! ## Putting routines together -/

theorem bind_assoc {γ : Type} (r : Routine α) (g : α → Routine β) (h : β → Routine γ) :
    (r.bind g).bind h = r.bind fun a => (g a).bind h := by
  induction r with
  | done a => rfl
  | fail f => rfl
  | get k ih => exact congrArg get (funext ih)
  | put s r ih => exact congrArg (put s) ih
  | await w k ih => exact congrArg (await w) (funext ih)

theorem Tame.bind {r : Routine α} {g : α → Routine β} (hr : r.Tame) (hg : ∀ a, (g a).Tame) :
    (r.bind g).Tame := by
  induction r with
  | done a => exact hg a
  | fail f => exact hr
  | get k ih => exact fun s => ih s (hr s)
  | put s r ih => exact ih hr
  | await w k ih => exact ⟨hr.1, fun o ho => ih o (hr.2 o ho)⟩

theorem Tame.attempt {r : Routine α} (hr : r.Tame) : r.attempt.Tame := by
  induction r with
  | done a => trivial
  | fail f =>
    have hf : f.isCatchable = true := hr
    rw [Routine.attempt, if_pos hf]
    trivial
  | get k ih => exact fun s => ih s (hr s)
  | put s r ih => exact ih hr
  | await w k ih => exact ⟨hr.1, fun o ho => ih o (hr.2 o ho)⟩

/-- Behind a handler the failure is known to be none of the aborts. -/
theorem Tame.attempt_bind {r : Routine α} {g : Except Failure α → Routine β} (hr : r.Tame)
    (hg : ∀ o, Conductor.Tame o → (g o).Tame) : (r.attempt.bind g).Tame := by
  induction r with
  | done a => exact hg (.ok a) (tame_ok a)
  | fail f =>
    have hf : f.isCatchable = true := hr
    rw [Routine.attempt, if_pos hf]
    exact hg (.error f) ((tame_error f).2 hf)
  | get k ih => exact fun s => ih s (hr s)
  | put s r ih => exact ih hr
  | await w k ih => exact ⟨hr.1, fun o ho => ih o (hr.2 o ho)⟩

theorem Tame.continueWith {r : Routine Value} {g : Outcome → Routine α} (hr : r.Tame)
    (hg : ∀ o, Conductor.Tame o → (g o).Tame) : (r.continueWith g).Tame := by
  induction r with
  | done v => exact hg _ (tame_ok _)
  | fail f => exact hg _ ((tame_error f).2 hr)
  | get k ih => exact fun s => ih s (hr s)
  | put s r ih => exact ih hr
  | await w k ih => exact ⟨hr.1, fun o ho => ih o (hr.2 o ho)⟩

/-! ## The store -/

@[simp] theorem tame_pure (a : α) : (pure a : Routine α).Tame := trivial

@[simp] theorem tame_read (f : Store → α) : (read f).Tame := fun _ => trivial

@[simp] theorem tame_alter (f : Store → Store) : (alter f).Tame := fun _ => trivial

@[simp] theorem tame_modifyGet (f : Store → α × Store) : (modifyGet f).Tame := fun _ => trivial

theorem tame_raise {c : Cause} (h : c.Tame) : (raise c : Routine α).Tame := fun _ => h

theorem tame_ofExcept {x : Except Cause α} (h : ∀ c, x = .error c → c.Tame) :
    (ofExcept x).Tame := by
  cases x with
  | ok a => trivial
  | error c => exact tame_raise (h c rfl)

theorem tame_query {f : Store → Except Cause α} (h : ∀ s c, f s = .error c → c.Tame) :
    (query f).Tame := fun s => tame_ofExcept (h s)

theorem tame_ofOutcome {o : Except Failure α} (h : Conductor.Tame o) : (ofOutcome o).Tame := by
  cases o with
  | ok a => trivial
  | error f => exact (tame_error f).1 h

/-! ## Waiting -/

theorem tame_single {o : Outcome} (h : Conductor.Tame o) : (single o).Tame := by
  cases o with
  | ok vs => trivial
  | error f => exact (tame_error f).1 h

theorem tame_call {p : Procedure} (hp : p.IsVisit) : (call p).Tame :=
  ⟨by simpa [Wait.procedures] using hp, fun _ => tame_single⟩

theorem tame_sleep (x : Binary64) : (sleep x).Tame :=
  ⟨by simp [Wait.procedures], fun _ ho => (tame_ofOutcome ho).bind fun _ => trivial⟩

theorem tame_all {ps : List Procedure} (h : ∀ p ∈ ps, p.IsVisit) : (all ps).Tame :=
  ⟨h, fun _ => tame_ofOutcome⟩

theorem tame_first {ps : List Procedure} (h : ∀ p ∈ ps, p.IsVisit) : (first ps).Tame :=
  ⟨h, fun _ => tame_single⟩

theorem tame_drain : drain.Tame :=
  ⟨by simp [Wait.procedures], fun _ ho => (tame_ofOutcome ho).bind fun _ => trivial⟩

theorem tame_each {f : α → Routine Unit} (h : ∀ a, (f a).Tame) :
    ∀ xs : List α, (each f xs).Tame
  | [] => trivial
  | x :: xs => (h x).bind fun _ => tame_each h xs

end Routine

/-! ## Causes -/

theorem Path.position_tame {key : String} {c : Cause} (h : Path.position key = .error c) :
    c.Tame := by
  unfold Path.position at h
  split at h <;> cases h <;> rfl

namespace Store

theorem lookup_tame {s : Store} {v : Value} {key : String} {c : Cause}
    (h : s.lookup v key = .error c) : c.Tame := by
  unfold lookup at h
  split at h
  · cases h
  · split at h
    · split at h
      · cases hp : Path.position key with
        | ok i => rw [hp] at h; cases h
        | error d =>
          rw [hp] at h
          cases h
          exact Path.position_tame hp
      · cases h
    · cases h

theorem follow_tame {s : Store} {c : Cause} :
    ∀ {keys : List String} {v : Value}, s.follow v keys = .error c → c.Tame
  | [], v, h => by cases h
  | key :: keys, v, h => by
    unfold follow at h
    split at h
    · cases h
    · cases hl : s.lookup v key with
      | ok w =>
        rw [hl] at h
        exact follow_tame h
      | error d =>
        rw [hl] at h
        cases h
        exact lookup_tame hl

theorem writeAlong_tame {path : String} {v : Value} {c : Cause} :
    ∀ {keys walked : List String} {s : Store} {node : Ref .dict},
      s.writeAlong path node walked v keys = .error c → c.Tame
  | [], walked, s, node, h => by cases h
  | [leaf], walked, s, node, h => by cases h
  | key :: key' :: keys, walked, s, node, h => by
    unfold writeAlong at h
    split at h
    · exact writeAlong_tame h
    · exact writeAlong_tame h
    · cases h
      rfl

theorem task_tame {s : Store} {name : String} {c : Cause} (h : s.task name = .error c) :
    c.Tame := by
  unfold task at h
  split at h <;> cases h
  rfl

end Store

namespace Number

theorem toBinary64_tame {n : Number} {c : Cause} (h : n.toBinary64 = .error c) : c.Tame := by
  cases n with
  | int i =>
    change rounded (Binary64.ofInt? i) = _ at h
    generalize Binary64.ofInt? i = x at h
    cases x with
    | none => cases h; rfl
    | some x => cases h
  | float x => cases h

theorem fixed_tame {places : Nat} {n : Number} {c : Cause} (h : n.fixed places = .error c) :
    c.Tame := by
  unfold fixed at h
  cases hn : n.toBinary64 with
  | ok x => rw [hn] at h; cases h
  | error d =>
    rw [hn] at h
    cases h
    exact toBinary64_tame hn

theorem pow_tame {n : Number} {k : Nat} {c : Cause} (h : n.pow k = .error c) : c.Tame := by
  cases n with
  | int i => cases h
  | float x =>
    rw [pow] at h
    generalize x.pow? k = y at h
    cases y with
    | none => cases h; rfl
    | some y => cases h

theorem mul_tame {a b : Number} {c : Cause} (h : a.mul b = .error c) : c.Tame := by
  unfold mul at h
  split at h
  · cases h
  · cases ha : a.toBinary64 with
    | error d =>
      rw [ha] at h
      cases h
      exact toBinary64_tame ha
    | ok x =>
      cases hb : b.toBinary64 with
      | error d =>
        rw [ha, hb] at h
        cases h
        exact toBinary64_tame hb
      | ok y => rw [ha, hb] at h; cases h

end Number

theorem Workflow.step_tame {w : Workflow} {id : String} {c : Cause} (h : w.step id = .error c) :
    c.Tame := by
  unfold Workflow.step at h
  split at h <;> cases h
  rfl

theorem Store.now_tame {s : Store} {c : Cause} (h : s.now = .error c) : c.Tame := by
  unfold Store.now at h
  split at h
  · cases h; rfl
  · cases h; rfl
  · unfold Clock.moment at h
    dsimp only at h
    split at h
    · cases h
    · split at h
      · cases h; rfl
      · split at h <;> cases h <;> rfl

/-! ## Hooks and tasks -/

/-- User code that only ever fails with failures that can be handled. -/
def Handlers.Tame (call : Handlers) : Prop := ∀ c vs, (call c vs).Tame

theorem HookName.emit_tame {call : Handlers} (hc : call.Tame) (name : HookName)
    (args : List Value) : (name.emit call args).Tame := by
  refine Routine.Tame.bind (Routine.tame_read _) fun hooks => ?_
  split
  · trivial
  · exact (Routine.tame_alter _).bind fun _ =>
      Routine.tame_each (fun h => (hc h args).bind fun _ => Routine.tame_pure ()) hooks

theorem Task.execute_tame {call : Handlers} (hc : call.Tame) (r : Ref .task)
    (input context : Value) : (Task.execute call r input context).Tame := by
  refine (HookName.emit_tame hc _ _).bind fun _ => ?_
  refine (Routine.tame_read _).bind fun handler => ?_
  refine (hc handler _).attempt_bind fun o ho => ?_
  cases o with
  | ok v => exact (HookName.emit_tame hc _ _).bind fun _ => trivial
  | error f => exact (HookName.emit_tame hc _ _).bind fun _ => (tame_error f).1 ho

/-! ## Visits -/

namespace Visit.Scene

variable {σ : Scene}

theorem visit_call_tame (σ : Scene) (id : String) (w : Ref .workflow) :
    (Routine.call (.visit id w σ.context)).Tame := Routine.tame_call trivial

theorem go_tame (σ : Scene) (step : String) : (σ.go step).Tame := σ.visit_call_tame step _

theorem side_isVisit (σ : Scene) (steps : List String) : ∀ p ∈ σ.side steps, p.IsVisit := by
  intro p hp
  obtain ⟨step, -, rfl⟩ := List.mem_map.1 hp
  trivial

theorem gather_tame (σ : Scene) (steps : List String) : (σ.gather steps).Tame :=
  (Routine.tame_all (σ.side_isVisit steps)).bind fun _ => Routine.tame_modifyGet _

theorem holds_tame (hc : σ.call.Tame) (condition : Ref .callable) (step : String) :
    (σ.holds condition step).Tame := by
  refine (hc condition _).attempt_bind fun o _ => ?_
  cases o with
  | ok v => exact Routine.tame_read _
  | error f => exact Routine.tame_raise rfl

theorem source_tame (hc : σ.call.Tame) (x : Source) : (σ.source x).Tame := by
  cases x with
  | call c => exact hc c _
  | text t =>
    refine Routine.tame_query fun s c h => ?_
    split at h
    · exact Store.follow_tame h
    · exact Store.lookup_tame h

theorem sources_tame (hc : σ.call.Tame) : ∀ m : Entries Source, (σ.sources m).Tame
  | [] => trivial
  | (_, x) :: rest =>
    (source_tame hc x).bind fun _ => (sources_tame hc rest).bind fun _ => trivial

theorem inputOf_tame (hc : σ.call.Tame) (t : TaskStep) : (σ.inputOf t).Tame := by
  unfold inputOf
  split
  · exact Routine.tame_read _
  · exact (sources_tame hc _).bind fun _ => Routine.tame_modifyGet _

theorem writeOutput_tame (σ : Scene) (result : Value) (key path : String) :
    (σ.writeOutput result key path).Tame := by
  refine (Routine.tame_query fun s c h => Store.lookup_tame h).bind fun v => ?_
  exact (Routine.tame_query fun s c h => Store.writeAlong_tame h).bind fun s' => trivial

theorem applyOutput_tame (σ : Scene) (t : TaskStep) (result : Value) :
    (σ.applyOutput t result).Tame := by
  unfold applyOutput
  split
  · exact Routine.tame_alter _
  · exact Routine.tame_each (fun (e : String × String) => σ.writeOutput_tame result e.1 e.2) _

theorem runTask_tame (hc : σ.call.Tame) (t : TaskStep) (r : Ref .task) :
    (σ.runTask t r).Tame := by
  refine (inputOf_tame hc t).bind fun input => ?_
  refine (Task.execute_tame hc r input _).bind fun result => ?_
  exact (σ.applyOutput_tame t result).bind fun _ => Routine.tame_pure result

theorem task_tame (hc : σ.call.Tame) (step : String) (t : TaskStep) : (σ.task step t).Tame := by
  refine (Routine.tame_query fun s c h => Store.task_tame h).bind fun r => ?_
  split
  · exact runTask_tame hc t r
  · refine (holds_tame hc _ _).bind fun b => ?_
    cases b with
    | true => exact runTask_tame hc t r
    | false => exact (Routine.tame_alter _).bind fun _ => trivial

theorem parallel_tame (σ : Scene) (branches : List String) (waitForAll : Bool) :
    (σ.parallel branches waitForAll).Tame := by
  unfold parallel
  split
  · exact σ.gather_tame branches
  · split
    · trivial
    · exact Routine.tame_first (σ.side_isVisit branches)

theorem choose_tame (hc : σ.call.Tame) (step : String) (predicate : Ref .callable)
    (trueNext falseNext : String) : (σ.choose step predicate trueNext falseNext).Tame :=
  (holds_tame hc _ _).bind fun _ => (Routine.tame_alter _).bind fun _ => σ.go_tame _

theorem findItems_tame (σ : Scene) {items : Items} {s : Store} {c : Cause}
    (h : σ.findItems s items = .error c) : c.Tame := by
  cases items with
  | literal v => cases h
  | source t =>
    rw [findItems] at h
    split at h
    · cases hg : s.getPath (.context σ.context) t with
      | ok v => rw [hg] at h; cases h
      | error e =>
        rw [hg] at h
        cases h
        exact Store.follow_tame hg
    · cases hg : s.lookup (s.get σ.context).input t with
      | ok v => rw [hg] at h; cases h
      | error e =>
        rw [hg] at h
        cases h
        exact Store.lookup_tame hg

theorem itemsOf_tame (σ : Scene) {items : Items} {s : Store} {c : Cause}
    (h : σ.itemsOf items s = .error c) : c.Tame := by
  unfold itemsOf at h
  cases hf : σ.findItems s items with
  | ok found =>
    rw [hf] at h
    simp only [bind, Except.bind] at h
    split at h <;> cases h
    rfl
  | error d =>
    rw [hf] at h
    cases h
    exact σ.findItems_tame hf

theorem runBatch_tame (σ : Scene) (iterator : String) (items : List Value) :
    (σ.runBatch iterator items).Tame := by
  refine (Routine.tame_modifyGet _).bind fun contexts => Routine.tame_all fun p hp => ?_
  obtain ⟨c, -, rfl⟩ := List.mem_map.1 hp
  trivial

theorem runBatches_tame (σ : Scene) (iterator : String) :
    ∀ batches : List (List Value), (σ.runBatches iterator batches).Tame
  | [] => trivial
  | batch :: rest => by
    refine (σ.runBatch_tame iterator batch).bind fun vs => ?_
    exact (σ.runBatches_tame iterator rest).bind fun ws => Routine.tame_pure (vs ++ ws)

theorem map_tame (σ : Scene) (items : Items) (iterator : String) (concurrency : Option Int) :
    (σ.map items iterator concurrency).Tame :=
  (Routine.tame_query fun _ _ => σ.itemsOf_tame).bind fun _ =>
    (σ.runBatches_tame iterator _).bind fun _ => Routine.tame_modifyGet _

theorem wait_tame (σ : Scene) {r : RetryStep} {attempt : Nat} {c : Cause}
    (h : σ.wait r attempt = .error c) : c.Tame := by
  unfold wait at h
  cases hp : (r.backoff.getD (.float σ.settings.retryBackoff)).pow attempt with
  | ok factor =>
    rw [hp] at h
    exact Number.mul_tame h
  | error d =>
    rw [hp] at h
    cases h
    exact Number.pow_tame hp

theorem pause_tame (n : Number) : (pause n).Tame := by
  unfold pause
  split
  · exact (Routine.tame_ofExcept fun _ => Number.toBinary64_tame).bind fun _ =>
      Routine.tame_sleep _
  · trivial

theorem wantsRetry_tame (hc : σ.call.Tame) (step : String) (r : RetryStep) (f : Failure)
    (attempt : Nat) : (σ.wantsRetry step r f attempt).Tame := by
  unfold wantsRetry
  split
  · trivial
  · refine (hc _ _).attempt_bind fun o _ => ?_
    cases o with
    | ok v => exact Routine.tame_read _
    | error g => exact Routine.tame_raise rfl

theorem awaitRetry_tame (σ : Scene) (step : String) (r : RetryStep) (attempt : Nat) :
    (σ.awaitRetry step r attempt).Tame :=
  (Routine.tame_ofExcept fun _ => σ.wait_tame).bind fun _ =>
    (Routine.tame_ofExcept fun _ => Number.fixed_tame).bind fun _ =>
      (Routine.tame_read _).bind fun _ => (Routine.tame_alter _).bind fun _ => pause_tame _

/-- A failed try of a retry step's target is none of the aborts. -/
theorem tryTarget_bind_tame {α : Type} (σ : Scene) (r : RetryStep) (attempt : Nat)
    {g : Except Failure Value → Routine α} (hg : ∀ o, Conductor.Tame o → (g o).Tame) :
    ((σ.tryTarget r attempt).bind g).Tame := by
  have heq : (σ.tryTarget r attempt).bind g = _ := Routine.bind_assoc _ _ g
  rw [heq]
  refine (σ.go_tame r.target).attempt_bind fun o ho => ?_
  cases o with
  | ok v => exact hg _ ho
  | error f => exact fun s => hg _ ho

theorem retryFrom_tame (hc : σ.call.Tame) (step : String) (r : RetryStep) :
    ∀ (remaining attempt : Nat), (σ.retryFrom step r attempt remaining).Tame
  | 0, attempt => σ.tryTarget_bind_tame r attempt fun _ => Routine.tame_ofOutcome
  | remaining + 1, attempt => by
    refine σ.tryTarget_bind_tame r attempt fun o ho => ?_
    cases o with
    | ok v => trivial
    | error f =>
      refine (wantsRetry_tame hc step r f attempt).bind fun b => ?_
      cases b with
      | true => exact (σ.awaitRetry_tame step r attempt).bind fun _ => retryFrom_tame hc step r remaining _
      | false => exact (tame_error f).1 ho

theorem dispatch_tame (hc : σ.call.Tame) (step : Step) : (σ.dispatch step).Tame := by
  unfold dispatch
  split
  · exact task_tame hc _ _
  · exact σ.parallel_tame _ _
  · exact choose_tame hc _ _ _ _
  · exact σ.map_tame _ _ _
  · exact retryFrom_tame hc _ _ _ _
  · exact Routine.tame_raise rfl

theorem follow_tame (σ : Scene) (next : Successor) (result : Value) :
    (σ.follow next result).Tame := by
  cases next with
  | none => trivial
  | one step => exact σ.go_tame step
  | fan steps => exact σ.gather_tame steps

theorem regroup_tame (hc : σ.call.Tame) (workflow id : String) (step : Step) {f : Failure}
    (hf : f.isCatchable = true) : (σ.regroup workflow id step f).Tame := by
  refine (Routine.tame_alter _).bind fun _ => (HookName.emit_tame hc _ _).bind fun _ => ?_
  have giveUp : ∀ m, ((Routine.log .debug logger m (extras workflow id step)).bind fun _ =>
      (.fail f : Routine (Ref .workflow))).Tame := fun m => (Routine.tame_alter _).bind fun _ => hf
  cases step.kind with
  | task t =>
    dsimp only
    split
    · exact (Routine.tame_alter _).bind fun _ => (pause_tame _).bind fun _ =>
        Routine.tame_modifyGet _
    · exact giveUp _
  | _ => exact giveUp _

theorem recover_tame (hc : σ.call.Tame) (workflow id : String) (step : Step) {f : Failure}
    (hf : f.isCatchable = true) : (σ.recover workflow id step f).Tame :=
  (regroup_tame hc workflow id step hf).bind fun w => σ.visit_call_tame id w

theorem settle_tame (hc : σ.call.Tame) (id : String) (step : Step) (result : Value) :
    (σ.settle id step result).Tame :=
  (Routine.tame_alter _).bind fun _ => (HookName.emit_tame hc _ _).bind fun _ =>
    σ.follow_tame _ _

theorem arrive_tame (hc : σ.call.Tame) (id : String) : (σ.arrive id).Tame := by
  refine (Routine.tame_read _).bind fun w => ?_
  refine (Routine.tame_ofExcept fun _ => Workflow.step_tame).bind fun step => ?_
  refine (Routine.tame_alter _).bind fun _ => (HookName.emit_tame hc _ _).bind fun _ => ?_
  exact (Routine.tame_alter _).bind fun _ => trivial

/-- **A visit is tame if the user code that it calls is.** -/
theorem visit_tame (hc : σ.call.Tame) (id : String) : (σ.visit id).Tame := by
  refine (arrive_tame hc id).bind fun x => (dispatch_tame hc x.2).attempt_bind fun o ho => ?_
  cases o with
  | ok v => exact settle_tame hc id x.2 v
  | error f => exact recover_tame hc _ _ _ ((tame_error f).1 ho)

end Visit.Scene

end Conductor
