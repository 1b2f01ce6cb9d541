import Conductor.Proofs.Account.Inside
import Conductor.Workflow.Run
import Conductor.Workflow.Visit

/-!
# Outlines of visits and of runs of workflows

What emissions of hooks, tasks, visits and runs of workflows say while they run. Each outline is the
routine of the same name with its remarks put in and its calls of user code set apart; without them
it is that routine (`erase_visit`, `erase_execute`). No abort comes out of any of them by itself.
-/

namespace Conductor

/-! ## Hooks and tasks -/

namespace Outline

/-- Runs the hooks that are registered at a point. -/
def emit (name : HookName) (args : List Value) : Outline Unit := do
  say (.emits name args)
  let hooks ← plain (.read fun s => s.hooks.under name)
  if hooks.isEmpty then pure ()
  else
    plain (.log .debug HookName.logger "emitting_hook"
      [("hook", .text name.text), ("hook_count", .int hooks.length)])
    each (fun h => call (.hook name) h args >>= fun _ => pure ()) hooks

@[simp] theorem erase_emit (run : Handlers) (name : HookName) (args : List Value) :
    (emit name args).erase run = name.emit run args := by
  have heach : ∀ hooks : List (Ref .callable),
      (each (fun h => call (.hook name) h args >>= fun _ => pure ()) hooks).erase run =
        HookName.runAll run args hooks := fun hooks => erase_each (fun h => by
      rw [erase_bind, erase_call]
      rfl) hooks
  simp only [emit, erase_say, pure_bind, erase_bind, erase_plain, erase_ite, erase_pure, heach]
  rfl

@[simp] theorem tame_emit (name : HookName) (args : List Value) : (emit name args).Tame := by
  refine Tame.bind (tame_say _) fun _ => Tame.bind (tame_plain (Routine.tame_read _)) fun hooks => ?_
  split
  · exact tame_pure ()
  · exact Tame.bind (tame_plain (Routine.tame_alter _)) fun _ =>
      tame_each (fun h => Tame.bind (tame_call _ _ _) fun _ => tame_pure ()) hooks

end Outline

open Outline (say plain call emit)

/-- Runs a task. -/
def Task.outline (r : Ref .task) (input context : Value) : Outline Value := do
  emit .taskStart [.task r, input, context]
  let handler ← plain (.read fun s => (s.get r).handler)
  match ← (call .work handler [input, context]).attempt with
  | .error f => do
    emit .taskError [.task r, input, context, .failure f]
    .fail f
  | .ok v => do
    emit .taskEnd [.task r, input, context, v]
    pure v

@[simp] theorem Task.erase_outline (run : Handlers) (r : Ref .task) (input context : Value) :
    (Task.outline r input context).erase run = Task.execute run r input context := by
  simp only [Task.outline, Task.execute, Outline.erase_bind, Outline.erase_emit,
    Outline.erase_plain, Outline.erase_attempt, Outline.erase_call]
  congr 1
  funext _
  congr 1
  funext handler
  congr 1
  funext o
  cases o <;> simp

@[simp] theorem Task.tame_outline (r : Ref .task) (input context : Value) :
    (Task.outline r input context).Tame := by
  refine Outline.Tame.bind (Outline.tame_emit _ _) fun _ => ?_
  refine Outline.Tame.bind (Outline.tame_plain (Routine.tame_read _)) fun _ => ?_
  refine (Outline.tame_call _ _ _).attempt_bind fun o ho => ?_
  cases o with
  | ok v => exact Outline.Tame.bind (Outline.tame_emit _ _) fun _ => Outline.tame_pure v
  | error f => exact Outline.Tame.bind (Outline.tame_emit _ _) fun _ => (tame_error f).1 ho

namespace Visit.Outlined

variable (σ : Scene)

/-! ## Steps -/

/-- Whether a condition holds. -/
def holds (condition : Ref .callable) (step : String) : Outline Bool := do
  match ← (call .condition condition [.context σ.context]).attempt with
  | .ok v => plain (.read fun s => s.isTruthy v)
  | .error f => plain (.raise (.predicateFailed step f.message))

/-- The value of one source of a task's input. -/
def source : Source → Outline Value
  | .call c => call .source c [.context σ.context]
  | .text t => plain (σ.source (.text t))

/-- The values of the sources of a task's input, one after another. -/
def sources : Entries Source → Outline (Entries Value)
  | [] => pure []
  | (key, x) :: rest => do
    let v ← source σ x
    let vs ← sources rest
    pure ((key, v) :: vs)

/-- The input of a task. -/
def inputOf (t : TaskStep) : Outline Value :=
  match t.inputs with
  | none => plain (.read fun s => (s.get σ.context).input)
  | some m => do
    let vs ← sources σ m
    plain (.modifyGet fun s => let (r, s) := s.newDict vs; (.dict r, s))

/-- Runs the task of a step. -/
def runTask (t : TaskStep) (r : Ref .task) : Outline Value := do
  let input ← inputOf σ t
  let result ← Task.outline r input (.context σ.context)
  plain (σ.applyOutput t result)
  pure result

/-- Runs a task step, unless its condition does not hold. -/
def task (step : String) (t : TaskStep) : Outline Value := do
  let r ← plain (.query fun s => s.task t.task)
  match t.condition with
  | none => runTask σ t r
  | some condition =>
    if ← holds σ condition step then runTask σ t r
    else
      plain (.log .debug logger s!"Step {step} skipped by its condition" [("step_id", .text step)])
      pure .null

/-- Goes on with one of two steps. -/
def choose (step : String) (predicate : Ref .callable) (trueNext falseNext : String) :
    Outline Value := do
  let chosen ← holds σ predicate step
  let next := if chosen then trueNext else falseNext
  let shown := (Datum.bool chosen).repr
  plain (.log .debug logger s!"Condition {step} evaluated {shown}, following {next}"
    [("step_id", .text step)])
  plain (σ.go next)

/-- Whether a failed try is to be followed by another one. -/
def wantsRetry (step : String) (r : RetryStep) (f : Failure) (attempt : Nat) : Outline Bool :=
  match r.shouldRetry with
  | none => pure true
  | some c => do
    match ← (call .retrying c [.failure f, .int attempt]).attempt with
    | .ok v => plain (.read fun s => s.isTruthy v)
    | .error g => plain (.raise (.retryPredicateFailed step g.message))

/-- Runs the target of a retry step, and notes its failure under the number of the try. -/
def tryTarget (r : RetryStep) (attempt : Nat) : Outline (Except Failure Value) := do
  let outcome ← (plain (σ.go r.target)).attempt
  match outcome with
  | .ok _ => pure outcome
  | .error f => do
    let target := r.target
    say (.notes σ.context s!"{target}_attempt_{attempt}" f)
    plain (.alter fun s => s.noteError σ.context s!"{target}_attempt_{attempt}" f)
    pure outcome

/-- Runs the target of a retry step until it succeeds or no tries remain. -/
def retryFrom (step : String) (r : RetryStep) (attempt : Nat) : Nat → Outline Value
  | 0 => do
    let outcome ← tryTarget σ r attempt
    Outline.ofOutcome outcome
  | remaining + 1 => do
    match ← tryTarget σ r attempt with
    | .ok v => pure v
    | .error f =>
      if ← wantsRetry step r f attempt then
        plain (σ.awaitRetry step r attempt)
        retryFrom step r (attempt + 1) remaining
      else .fail f

/-- What a step does, by its variant. -/
def dispatch (step : Step) : Outline Value :=
  match step.kind with
  | .task t => task σ step.id t
  | .parallel branches waitForAll => plain (σ.parallel branches waitForAll)
  | .condition predicate trueNext falseNext => choose σ step.id predicate trueNext falseNext
  | .map items iterator concurrency => plain (σ.map items iterator concurrency)
  | .retry r => retryFrom σ step.id r 0 r.maxRetries.toNat
  | .unknown name => plain (.raise (.unknownStepKind name))

section Erase

@[simp] theorem erase_holds (condition : Ref .callable) (step : String) :
    (holds σ condition step).erase σ.call = σ.holds condition step := by
  simp only [holds, Scene.holds, Outline.erase_bind, Outline.erase_attempt, Outline.erase_call]
  congr 1
  funext o
  cases o <;> simp

@[simp] theorem erase_source (x : Source) : (source σ x).erase σ.call = σ.source x := by
  cases x <;> simp [source, Scene.source]

@[simp] theorem erase_sources : ∀ m : Entries Source, (sources σ m).erase σ.call = σ.sources m
  | [] => rfl
  | (key, x) :: rest => by
    simp only [sources, Scene.sources, Outline.erase_bind, erase_source, erase_sources rest,
      Outline.erase_pure]

@[simp] theorem erase_inputOf (t : TaskStep) : (inputOf σ t).erase σ.call = σ.inputOf t := by
  unfold inputOf Scene.inputOf
  cases t.inputs <;> simp

@[simp] theorem erase_runTask (t : TaskStep) (r : Ref .task) :
    (runTask σ t r).erase σ.call = σ.runTask t r := by
  simp [runTask, Scene.runTask]

@[simp] theorem erase_task (step : String) (t : TaskStep) :
    (task σ step t).erase σ.call = σ.task step t := by
  simp only [task, Scene.task, Outline.erase_bind, Outline.erase_plain]
  congr 1
  funext r
  cases t.condition with
  | none => simp
  | some c => simp [Outline.erase_ite]

@[simp] theorem erase_choose (step : String) (predicate : Ref .callable)
    (trueNext falseNext : String) : (choose σ step predicate trueNext falseNext).erase σ.call =
      σ.choose step predicate trueNext falseNext := by
  simp [choose, Scene.choose]

@[simp] theorem erase_wantsRetry (step : String) (r : RetryStep) (f : Failure) (attempt : Nat) :
    (wantsRetry step r f attempt).erase σ.call = σ.wantsRetry step r f attempt := by
  unfold wantsRetry Scene.wantsRetry
  cases r.shouldRetry with
  | none => rfl
  | some c =>
    simp only [Outline.erase_bind, Outline.erase_attempt, Outline.erase_call]
    congr 1
    funext o
    cases o <;> simp

@[simp] theorem erase_tryTarget (r : RetryStep) (attempt : Nat) :
    (tryTarget σ r attempt).erase σ.call = σ.tryTarget r attempt := by
  simp only [tryTarget, Scene.tryTarget, Outline.erase_bind, Outline.erase_attempt,
    Outline.erase_plain]
  congr 1
  funext o
  cases o <;> simp

@[simp] theorem erase_retryFrom (step : String) (r : RetryStep) (attempt remaining : Nat) :
    (retryFrom σ step r attempt remaining).erase σ.call =
      σ.retryFrom step r attempt remaining := by
  induction remaining generalizing attempt with
  | zero => simp [retryFrom, Scene.retryFrom]
  | succ remaining ih =>
    simp only [retryFrom, Scene.retryFrom, Outline.erase_bind, erase_tryTarget]
    congr 1
    funext o
    cases o with
    | ok v => rfl
    | error f => simp [Outline.erase_ite, ih]

@[simp] theorem erase_dispatch (step : Step) :
    (dispatch σ step).erase σ.call = σ.dispatch step := by
  unfold dispatch Scene.dispatch
  cases step.kind <;> simp [Scene.retry]

/-! The outline of what a step does is the same for all user code. -/

variable (run : Handlers)

theorem sources_with : ∀ m : Entries Source, sources { σ with call := run } m = sources σ m
  | [] => rfl
  | (key, x) :: rest => by
    rw [sources, sources, sources_with rest]
    cases x <;> rfl

theorem retryFrom_with (step : String) (r : RetryStep) (remaining attempt : Nat) :
    retryFrom { σ with call := run } step r attempt remaining =
      retryFrom σ step r attempt remaining := by
  induction remaining generalizing attempt with
  | zero => rfl
  | succ remaining ih =>
    rw [retryFrom, retryFrom, ih]
    rfl

theorem runBatches_with (iterator : String) (batches : List (List Value)) :
    Scene.runBatches { σ with call := run } iterator batches = σ.runBatches iterator batches := by
  induction batches with
  | nil => rfl
  | cons batch rest ih =>
    rw [Scene.runBatches, Scene.runBatches, ih]
    rfl

theorem dispatch_with (step : Step) : dispatch { σ with call := run } step = dispatch σ step := by
  have hin : ∀ t, inputOf { σ with call := run } t = inputOf σ t := fun t => by
    simp only [inputOf, sources_with]
  unfold dispatch
  cases step.kind with
  | task t => simp only [task, runTask, hin]; rfl
  | map => simp only [Scene.map, runBatches_with]; rfl
  | retry r => exact retryFrom_with σ run _ _ _ _
  | _ => rfl

theorem erase_dispatch_with (step : Step) :
    (dispatch σ step).erase run = Scene.dispatch { σ with call := run } step := by
  rw [← dispatch_with σ run]
  exact erase_dispatch { σ with call := run } step

end Erase

section Tame

open Outline.Tame
open Outline (tame_plain tame_call tame_pure)

theorem tame_holds (condition : Ref .callable) (step : String) :
    (holds σ condition step).Tame := by
  refine (tame_call _ _ _).attempt_bind fun o _ => ?_
  cases o with
  | ok v => exact tame_plain (Routine.tame_read _)
  | error f => exact tame_plain (Routine.tame_raise rfl)

theorem tame_source (x : Source) : (source σ x).Tame := by
  cases x with
  | call c => exact tame_call _ _ _
  | text t =>
    refine tame_plain (Routine.tame_query fun s c h => ?_)
    split at h
    · exact Store.follow_tame h
    · exact Store.lookup_tame h

theorem tame_sources : ∀ m : Entries Source, (sources σ m).Tame
  | [] => trivial
  | (_, x) :: rest => bind (tame_source σ x) fun _ => bind (tame_sources rest) fun _ => trivial

theorem tame_inputOf (t : TaskStep) : (inputOf σ t).Tame := by
  unfold inputOf
  cases t.inputs with
  | none => exact tame_plain (Routine.tame_read _)
  | some m => exact bind (tame_sources σ m) fun _ => tame_plain (Routine.tame_modifyGet _)

theorem tame_runTask (t : TaskStep) (r : Ref .task) : (runTask σ t r).Tame :=
  bind (tame_inputOf σ t) fun _ => bind (Task.tame_outline _ _ _) fun result =>
    bind (tame_plain (σ.applyOutput_tame t result)) fun _ => tame_pure result

theorem tame_task (step : String) (t : TaskStep) : (task σ step t).Tame := by
  refine bind (tame_plain (Routine.tame_query fun s c h => Store.task_tame h)) fun r => ?_
  split
  · exact tame_runTask σ t r
  · refine bind (tame_holds σ _ _) fun b => ?_
    cases b with
    | true => exact tame_runTask σ t r
    | false => exact bind (tame_plain (Routine.tame_alter _)) fun _ => trivial

theorem tame_choose (step : String) (predicate : Ref .callable) (trueNext falseNext : String) :
    (choose σ step predicate trueNext falseNext).Tame :=
  bind (tame_holds σ _ _) fun _ => bind (tame_plain (Routine.tame_alter _)) fun _ =>
    tame_plain (σ.go_tame _)

theorem tame_wantsRetry (step : String) (r : RetryStep) (f : Failure) (attempt : Nat) :
    (wantsRetry step r f attempt).Tame := by
  unfold wantsRetry
  split
  · trivial
  · refine (tame_call _ _ _).attempt_bind fun o _ => ?_
    cases o with
    | ok v => exact tame_plain (Routine.tame_read _)
    | error g => exact tame_plain (Routine.tame_raise rfl)

/-- A failed try of a retry step's target is none of the aborts. -/
theorem tame_tryTarget_bind {α : Type} (r : RetryStep) (attempt : Nat)
    {g : Except Failure Value → Outline α} (hg : ∀ o, Conductor.Tame o → (g o).Tame) :
    (tryTarget σ r attempt >>= g).Tame := by
  simp only [tryTarget, bind_assoc]
  refine (tame_plain (σ.go_tame r.target)).attempt_bind fun o ho => ?_
  cases o with
  | ok v => exact hg _ ho
  | error f => exact fun _ s => hg _ ho

theorem tame_retryFrom (step : String) (r : RetryStep) :
    ∀ (remaining attempt : Nat), (retryFrom σ step r attempt remaining).Tame
  | 0, attempt => tame_tryTarget_bind σ r attempt fun _ => Outline.tame_ofOutcome
  | remaining + 1, attempt => by
    refine tame_tryTarget_bind σ r attempt fun o ho => ?_
    cases o with
    | ok v => trivial
    | error f =>
      refine bind (tame_wantsRetry step r f attempt) fun b => ?_
      cases b with
      | true =>
        exact bind (tame_plain (σ.awaitRetry_tame step r attempt)) fun _ =>
          tame_retryFrom step r remaining _
      | false => exact (tame_error f).1 ho

theorem tame_dispatch (step : Step) : (dispatch σ step).Tame := by
  unfold dispatch
  split
  · exact tame_task σ _ _
  · exact tame_plain (σ.parallel_tame _ _)
  · exact tame_choose σ _ _ _ _
  · exact tame_plain (σ.map_tame _ _ _)
  · exact tame_retryFrom σ _ _ _ _
  · exact tame_plain (Routine.tame_raise rfl)

end Tame

/-! ## Visits -/

/-- What happens after a step has failed. -/
def regroup (workflow id : String) (step : Step) (f : Failure) : Outline (Ref .workflow) := do
  say (.notes σ.context id f)
  plain (.alter fun s => s.noteError σ.context id f)
  emit .stepError (σ.stepArguments id ++ [.failure f])
  let reason := f.message
  let giveUp : Outline (Ref .workflow) := plain do
    .log .debug logger s!"Step {id} failed: {reason}" (Scene.extras workflow id step)
    .fail f
  match step.kind with
  | .task t =>
    if 0 < t.retries then
      let left := t.retries
      plain do
        .log .warning logger s!"Step {id} failed ({reason}); {left} retries left"
          (Scene.extras workflow id step)
        Scene.pause t.retryDelay
        σ.lower step t
    else giveUp
  | _ => giveUp

/-- Runs a step again after it has failed, as long as there are retries left. -/
def recover (workflow id : String) (step : Step) (f : Failure) : Outline Value := do
  let w ← regroup σ workflow id step f
  plain (.call (.visit id w σ.context))

/-- What happens after a step has succeeded. -/
def settle (id : String) (step : Step) (result : Value) : Outline Value := do
  say (.records σ.context id result)
  plain (.alter fun s => s.record σ.context id result)
  emit .stepEnd (σ.stepArguments id ++ [result])
  plain (σ.follow step.next result)

/-- Begins a visit of the step of a given id, and gives it with the id of its workflow. -/
def arrive (id : String) : Outline (String × Step) := do
  let (workflow, step) ← plain do
    let w ← .read fun s => s.get σ.workflow
    let step ← .ofExcept (w.step id)
    .alter fun s => s.enter σ.context id
    pure (w.id, step)
  emit .stepStart (σ.stepArguments id)
  plain (.log .debug logger s!"Running step {id}" (Scene.extras workflow id step))
  pure (workflow, step)

/-- Visits the step of a given id. -/
def visit (id : String) : Outline Value := do
  let (workflow, step) ← arrive σ id
  match ← (dispatch σ step).attempt with
  | .error f => recover σ workflow id step f
  | .ok v => settle σ id step v

theorem erase_regroup (workflow id : String) (step : Step) (f : Failure) :
    (regroup σ workflow id step f).erase σ.call = σ.regroup workflow id step f := by
  simp only [regroup, Scene.regroup, Outline.erase_say, pure_bind, Outline.erase_bind,
    Outline.erase_plain, Outline.erase_emit]
  congr 1
  funext _
  congr 1
  funext _
  cases step.kind with
  | task t => simp [Outline.erase_ite]
  | _ => simp

theorem erase_recover (workflow id : String) (step : Step) (f : Failure) :
    (recover σ workflow id step f).erase σ.call = σ.recover workflow id step f := by
  simp [recover, Scene.recover, erase_regroup]

theorem erase_settle (id : String) (step : Step) (result : Value) :
    (settle σ id step result).erase σ.call = σ.settle id step result := by
  simp [settle, Scene.settle]

theorem erase_arrive (id : String) : (arrive σ id).erase σ.call = σ.arrive id := by
  simp only [arrive, Scene.arrive, Outline.erase_bind, Outline.erase_plain, Outline.erase_emit,
    Outline.erase_pure, bind_assoc, pure_bind]

/-- **What runs is a visit.** -/
theorem erase_visit (id : String) : (visit σ id).erase σ.call = σ.visit id := by
  simp only [visit, Scene.visit, Outline.erase_bind, erase_arrive, Outline.erase_attempt,
    erase_dispatch]
  congr 1
  funext p
  obtain ⟨w, step⟩ := p
  congr 1
  funext o
  cases o with
  | ok v => exact erase_settle σ id step v
  | error f => exact erase_recover σ w id step f

theorem erase_visit_with (run : Handlers) (id : String) :
    (visit σ id).erase run = Scene.visit { σ with call := run } id := by
  have heq : visit { σ with call := run } id = visit σ id := by
    simp only [visit, dispatch_with]
    rfl
  rw [← heq]
  exact erase_visit { σ with call := run } id

section Tame

open Outline.Tame
open Outline (tame_plain tame_say tame_emit)

theorem tame_regroup (workflow id : String) (step : Step) {f : Failure}
    (hf : f.isCatchable = true) : (regroup σ workflow id step f).Tame := by
  refine bind (tame_say _) fun _ => bind (tame_plain (Routine.tame_alter _)) fun _ =>
    bind (tame_emit _ _) fun _ => ?_
  have giveUp : ∀ m, (plain ((Routine.log .debug logger m (Scene.extras workflow id step)).bind
      fun _ => (.fail f : Routine (Ref .workflow)))).Tame := fun m =>
    tame_plain ((Routine.tame_alter _).bind fun _ => hf)
  cases step.kind with
  | task t =>
    dsimp only
    split
    · exact tame_plain ((Routine.tame_alter _).bind fun _ => (Scene.pause_tame _).bind fun _ =>
        Routine.tame_modifyGet _)
    · exact giveUp _
  | _ => exact giveUp _

theorem tame_recover (workflow id : String) (step : Step) {f : Failure}
    (hf : f.isCatchable = true) : (recover σ workflow id step f).Tame :=
  bind (tame_regroup σ workflow id step hf) fun w => tame_plain (σ.visit_call_tame id w)

theorem tame_settle (id : String) (step : Step) (result : Value) :
    (settle σ id step result).Tame :=
  bind (tame_say _) fun _ => bind (tame_plain (Routine.tame_alter _)) fun _ =>
    bind (tame_emit _ _) fun _ => tame_plain (σ.follow_tame _ _)

theorem tame_arrive (id : String) : (arrive σ id).Tame := by
  refine bind (tame_plain ?_) fun x => bind (tame_emit _ _) fun _ =>
    bind (tame_plain (Routine.tame_alter _)) fun _ => trivial
  exact (Routine.tame_read _).bind fun w => (Routine.tame_ofExcept fun _ =>
    Workflow.step_tame).bind fun step => (Routine.tame_alter _).bind fun _ => trivial

/-- No abort comes out of a visit by itself. -/
theorem tame_visit (id : String) : (visit σ id).Tame := by
  refine bind (tame_arrive σ id) fun x => (tame_dispatch σ x.2).attempt_bind fun o ho => ?_
  cases o with
  | ok v => exact tame_settle σ id x.2 v
  | error f => exact tame_recover σ _ _ _ ((tame_error f).1 ho)

end Tame

end Visit.Outlined

/-! ## Runs of workflows -/

namespace Workflow

/-- Calls handlers one after another. -/
def Outlined.notify (u : Use) (args : List Value) (handlers : List (Ref .callable)) :
    Outline Unit :=
  Outline.each (fun h => call u h args >>= fun _ => pure ()) handlers

/-- What happens after a run has failed. -/
def Outlined.closeFailed (r : Ref .workflow) (c : Ref .context) (f : Failure) :
    Outline Value := do
  let moment ← plain (.query Store.now)
  say (.notes c failureKey f)
  let w ← plain do
    .alter fun s => (s.close c moment).noteError c failureKey f
    let w ← .read fun s => s.get r
    let name := w.name
    let step ← .read fun s => (Store.textOrNull (s.get c).currentStep).toText
    let reason := f.message
    .log .error logger s!"Workflow {name} failed at step {step}: {reason}"
      [("workflow_id", .text w.id)]
    pure w
  emit .workflowError [.workflow r, .context c, .failure f]
  Outlined.notify .failed [.failure f, .context c] w.onError
  .fail f

/-- What happens after a run has succeeded. -/
def Outlined.closeCompleted (r : Ref .workflow) (c : Ref .context) (result : Value) :
    Outline Value := do
  let (w, output) ← plain do
    .alter fun s => s.update c fun x => { x with result }
    let moment ← .query Store.now
    .alter fun s => s.close c moment
    let w ← .read fun s => s.get r
    let output ← .read fun s => Value.dict (s.get c).output
    pure (w, output)
  emit .workflowEnd [.workflow r, .context c, output]
  Outlined.notify .completed [output, .context c] w.onCompleted
  plain do
    let context ← .read fun s => s.get c
    let name := w.name
    let duration := context.duration?.getD 0
    let count ← .read fun s => (s.get context.steps).length
    .log .info logger s!"Workflow {name} completed in {duration}ms"
      [("workflow_id", .text w.id), ("step_count", .int count)]
  pure (.context c)

/-- Runs a workflow once and gives the context of the run. -/
def outline (r : Ref .workflow) (input : Value) (metadata : Entries Value) : Outline Value := do
  let (c, w) ← plain do
    let c ← openContext input metadata
    let w ← .read fun s => s.get r
    let name := w.name
    .log .info logger s!"Starting workflow {name}" [("workflow_id", .text w.id)]
    pure (c, w)
  emit .workflowStart [.workflow r, .context c]
  match ← (plain (.call (.visit w.entrypoint r c))).attempt with
  | .error f => Outlined.closeFailed r c f
  | .ok v => Outlined.closeCompleted r c v

section Erase

variable (run : Handlers)

theorem erase_notify (u : Use) (args : List Value) (handlers : List (Ref .callable)) :
    (Outlined.notify u args handlers).erase run = notify run args handlers :=
  Outline.erase_each (fun h => by
    rw [Outline.erase_bind, Outline.erase_call]
    rfl) handlers

theorem erase_closeFailed (r : Ref .workflow) (c : Ref .context) (f : Failure) :
    (Outlined.closeFailed r c f).erase run = closeFailed run r c f := by
  simp only [Outlined.closeFailed, closeFailed, Outline.erase_bind, Outline.erase_plain,
    Outline.erase_say, Outline.erase_emit, erase_notify, Outline.erase_fail, bind_assoc, pure_bind]

theorem erase_closeCompleted (r : Ref .workflow) (c : Ref .context) (v : Value) :
    (Outlined.closeCompleted r c v).erase run = closeCompleted run r c v := by
  simp only [Outlined.closeCompleted, closeCompleted, Outline.erase_bind, Outline.erase_plain,
    Outline.erase_emit, erase_notify, Outline.erase_pure, bind_assoc, pure_bind]

/-- **What runs is the run of a workflow.** -/
theorem erase_outline (r : Ref .workflow) (input : Value) (metadata : Entries Value) :
    (outline r input metadata).erase run = execute run r input metadata := by
  simp only [outline, execute, Outline.erase_bind, Outline.erase_plain, Outline.erase_emit,
    Outline.erase_attempt, bind_assoc, pure_bind]
  congr 1
  funext c
  congr 1
  funext w
  congr 1
  funext _
  congr 1
  funext _
  congr 1
  funext o
  cases o with
  | ok v => exact erase_closeCompleted run r c v
  | error f => exact erase_closeFailed run r c f

end Erase

section Tame

open Outline.Tame
open Outline (tame_plain tame_say tame_emit tame_each tame_call tame_part)

theorem tame_notify (u : Use) (args : List Value) (handlers : List (Ref .callable)) :
    (Outlined.notify u args handlers).Tame :=
  tame_each (fun _ => Outline.Tame.bind (tame_call _ _ _) fun _ => Outline.tame_pure ()) handlers

theorem tame_closeFailed (r : Ref .workflow) (c : Ref .context) {f : Failure}
    (hf : f.isCatchable = true) : (Outlined.closeFailed r c f).Tame :=
  bind (tame_plain (Routine.tame_query fun _ _ => Store.now_tame)) fun _ => bind (tame_say _) fun _ =>
    bind (tame_plain ((Routine.tame_alter _).bind fun _ => (Routine.tame_read _).bind fun _ =>
      (Routine.tame_read _).bind fun _ => (Routine.tame_alter _).bind fun _ => trivial)) fun _ =>
        bind (tame_emit _ _) fun _ => bind (tame_notify _ _ _) fun _ => hf

theorem tame_closeCompleted (r : Ref .workflow) (c : Ref .context) (v : Value) :
    (Outlined.closeCompleted r c v).Tame :=
  bind (tame_plain ((Routine.tame_alter _).bind fun _ =>
      (Routine.tame_query fun _ _ => Store.now_tame).bind fun _ => (Routine.tame_alter _).bind fun _ =>
        (Routine.tame_read _).bind fun _ => (Routine.tame_read _).bind fun _ => trivial)) fun _ =>
    bind (tame_emit _ _) fun _ => bind (tame_notify _ _ _) fun _ =>
      bind (tame_plain ((Routine.tame_read _).bind fun _ => (Routine.tame_read _).bind fun _ =>
        Routine.tame_alter _)) fun _ => trivial

/-- No abort comes out of a run by itself. -/
theorem tame_outline (r : Ref .workflow) (input : Value) (metadata : Entries Value) :
    (outline r input metadata).Tame := by
  refine bind (tame_plain ?_) fun x => bind (tame_emit _ _) fun _ =>
    (tame_part _).attempt_bind fun o ho => ?_
  · refine Routine.Tame.bind ?_ fun _ => (Routine.tame_read _).bind fun _ =>
      (Routine.tame_alter _).bind fun _ => trivial
    exact (Routine.tame_query fun _ _ => Store.now_tame).bind fun _ => Routine.tame_modifyGet _
  · cases o with
    | ok v => exact tame_closeCompleted _ _ v
    | error f => exact tame_closeFailed _ _ ((tame_error f).1 ho)

end Tame

end Workflow

end Conductor
