import Conductor.Proofs.Account.Visits
import Conductor.Setup

/-!
# Outlines of attempts to reach goals

What attempts say while they run: which execution is theirs, and how their result was judged; and
where they call agents, the scorer and hooks. Without the remarks they are the routines of the same
names (`erase_pursue`), and no abort comes out of them by itself (`tame_pursue`).

`Setup.plan` gives the outline of every part of a run.
-/

namespace Conductor

open Outline (say plain call emit)

/-! ## Agents -/

namespace Agent

/-- What an agent answered; a failure that it reported is said before it is passed on. -/
def Outlined.conclude (r : Ref .reply) : Outline Value := .get fun s =>
  match Reply.outcome s (s.get r) with
  | .ok v => .done v
  | .error (.inl f) => .remark (.reports f) (.fail f)
  | .error (.inr c) => plain (.raise c)

/-- Calls the handler of an agent with a fresh reply and gives its answer. -/
def Outlined.answerOf (r : Ref .agent) (task body : Value) (tools : Ref .dict) :
    Outline Value := do
  let a ← plain (.read fun s => s.get r)
  let reply ← plain (.modifyGet fun s => s.alloc (t := .reply) (Reply.fresh a.name))
  let _ ← call .agent a.handler [task, body, .dict tools, .reply reply]
  Outlined.conclude reply

/-- Runs an agent with its own copy of the tools. -/
def outline (r : Ref .agent) (task body : Value) (tools : Entries Value) : Outline Value := do
  let tools ← plain (.modifyGet fun s => s.newDict tools)
  emit .agentExecute [.agent r, task, body]
  match ← (Outlined.answerOf r task body tools).attempt with
  | .error f => do
    emit .agentError [.agent r, task, body, .failure f]
    .fail f
  | .ok v => do
    emit .agentComplete [.agent r, task, body, v]
    pure v

variable (run : Handlers)

@[simp] theorem erase_conclude (r : Ref .reply) :
    (Outlined.conclude r).erase run = Reply.conclude r := by
  refine congrArg Routine.get (funext fun s => ?_)
  dsimp only
  cases Reply.outcome s (s.get r) with
  | ok v => rfl
  | error x =>
    cases x with
    | inl f => rfl
    | inr c => exact Outline.erase_plain _

theorem tame_conclude (r : Ref .reply) : (Outlined.conclude r).Tame := by
  intro s
  dsimp only
  split
  · trivial
  · exact id
  · next c h =>
    refine Outline.tame_plain (Routine.tame_raise ?_)
    unfold Reply.outcome at h
    split at h
    · cases h
      rfl
    · split at h
      · split at h <;> cases h
        rfl
      · cases h

@[simp] theorem erase_answerOf (r : Ref .agent) (task body : Value) (tools : Ref .dict) :
    (Outlined.answerOf r task body tools).erase run = answerOf run r task body tools := by
  simp only [Outlined.answerOf, answerOf, Outline.erase_bind, Outline.erase_plain,
    Outline.erase_call, erase_conclude]

@[simp] theorem erase_outline (r : Ref .agent) (task body : Value) (tools : Entries Value) :
    (outline r task body tools).erase run = execute run r task body tools := by
  simp only [outline, execute, Outline.erase_bind, Outline.erase_plain, Outline.erase_emit,
    Outline.erase_attempt, erase_answerOf]
  congr 1
  funext _
  congr 1
  funext _
  congr 1
  funext o
  cases o <;> simp

theorem tame_outline (r : Ref .agent) (task body : Value) (tools : Entries Value) :
    (outline r task body tools).Tame := by
  refine .bind (Outline.tame_plain (Routine.tame_modifyGet _)) fun _ => ?_
  refine .bind (Outline.tame_emit _ _) fun _ => ?_
  refine Outline.Tame.attempt_bind ?_ fun o ho => ?_
  · exact .bind (Outline.tame_plain (Routine.tame_read _)) fun a =>
      .bind (Outline.tame_plain (Routine.tame_modifyGet _)) fun _ =>
        .bind (Outline.tame_call _ _ _) fun _ => tame_conclude _
  · cases o with
    | ok v => exact .bind (Outline.tame_emit _ _) fun _ => trivial
    | error f => exact .bind (Outline.tame_emit _ _) fun _ => (tame_error f).1 ho

end Agent

/-! ## Evaluation -/

namespace Evaluation.Outlined

variable (j : Judge)

/-- The score that a criterion has for a result. -/
def scoreOf (name : String) (criterion result : Value) : Outline Binary64 :=
  match j.scorer with
  | none => plain (.read fun s => clamp (s.presence result))
  | some c => do
    let raw ← call .scorer c [.text name, criterion, result]
    plain (.query fun s => (s.readBinary64 raw).map clamp)

/-- The scores of all criteria, each under its name and with its criterion. -/
def scores (result : Value) :
    List (String × Value) → Outline (List (String × Value × Binary64))
  | [] => pure []
  | (name, criterion) :: rest => do
    let score ← scoreOf j name criterion result
    let more ← scores result rest
    pure ((name, criterion, score) :: more)

/-- Scores a result against the criteria of a goal. -/
def evaluate (g : Ref .goal) (result : Value) : Outline (Ref .evaluation) := do
  let criteria ← plain (.read fun s => s.get (s.get g).criteria)
  if !j.settings.enabled || criteria.isEmpty then plain (record true Binary64.one [] [])
  else do
    let scored ← scores j result criteria
    let mean := average (scored.map fun (_, _, score) => score)
    let passed := j.settings.threshold.le mean
    plain do
      let missing ← .read fun s => missed s scored
      let e ← record passed mean (scored.map fun (name, _, score) => (name, score)) missing
      let name ← .read fun s => (s.get g).name
      let shownMean := mean.fixed 3
      let shownPassed := (Datum.bool passed).repr
      .log .debug logger s!"Evaluated {name}: score={shownMean} passed={shownPassed}"
        [("task", .text name)]
      pure e

/-- Evaluates a result between two hooks. -/
def judge (g : Ref .goal) (result : Value) : Outline (Ref .evaluation) := do
  emit .evaluationStart [.goal g, result]
  let e ← evaluate j g result
  emit .evaluationEnd [.goal g, result, .evaluation e]
  pure e

@[simp] theorem erase_scoreOf (name : String) (criterion result : Value) :
    (scoreOf j name criterion result).erase j.call = Evaluation.scoreOf j name criterion result := by
  unfold scoreOf Evaluation.scoreOf
  cases j.scorer <;> simp

@[simp] theorem erase_scores (result : Value) : ∀ criteria : List (String × Value),
    (scores j result criteria).erase j.call = Evaluation.scores j result criteria
  | [] => rfl
  | (name, criterion) :: rest => by
    simp only [scores, Evaluation.scores, Outline.erase_bind, erase_scoreOf, erase_scores result rest,
      Outline.erase_pure]

@[simp] theorem erase_evaluate (g : Ref .goal) (result : Value) :
    (evaluate j g result).erase j.call = Evaluation.evaluate j g result := by
  simp only [evaluate, Evaluation.evaluate, Outline.erase_bind, Outline.erase_plain,
    Outline.erase_ite, erase_scores]

@[simp] theorem erase_judge (g : Ref .goal) (result : Value) :
    (judge j g result).erase j.call = Evaluation.judge j g result := by
  simp only [judge, Evaluation.judge, Outline.erase_bind, Outline.erase_emit, erase_evaluate,
    Outline.erase_pure]

theorem readBinary64_tame {s : Store} {v : Value} {c : Cause} (h : s.readBinary64 v = .error c) :
    c.Tame := by
  unfold Store.readBinary64 at h
  split at h
  · cases h
  · exact Number.toBinary64_tame h
  · cases h
  · split at h <;> cases h
    rfl
  · cases h
    rfl
  · cases h
    rfl

theorem tame_scoreOf (name : String) (criterion result : Value) :
    (scoreOf j name criterion result).Tame := by
  unfold scoreOf
  split
  · exact Outline.tame_plain (Routine.tame_read _)
  · refine .bind (Outline.tame_call _ _ _) fun raw => ?_
    refine Outline.tame_plain (Routine.tame_query fun s c h => ?_)
    cases hr : s.readBinary64 raw with
    | ok x => rw [hr] at h; cases h
    | error d =>
      rw [hr] at h
      cases h
      exact readBinary64_tame hr

theorem tame_scores (result : Value) : ∀ criteria : List (String × Value),
    (scores j result criteria).Tame
  | [] => trivial
  | _ :: rest => .bind (tame_scoreOf j _ _ _) fun _ => .bind (tame_scores result rest) fun _ => trivial

theorem tame_judge (g : Ref .goal) (result : Value) : (judge j g result).Tame := by
  refine .bind (Outline.tame_emit _ _) fun _ => .bind ?_ fun e =>
    .bind (Outline.tame_emit _ _) fun _ => trivial
  refine .bind (Outline.tame_plain (Routine.tame_read _)) fun criteria => ?_
  split
  · exact Outline.tame_plain (Routine.tame_modifyGet _)
  · refine .bind (tame_scores j _ _) fun scored => Outline.tame_plain ?_
    exact (Routine.tame_read _).bind fun _ => (Routine.tame_modifyGet _).bind fun _ =>
      (Routine.tame_read _).bind fun _ => (Routine.tame_alter _).bind fun _ => trivial

end Evaluation.Outlined

/-! ## Attempts -/

namespace Pursuit.Outlined

variable (δ : Desk)

/-- Hands one subtask to its agent. -/
def handOut (e : Ref .execution) (g : Ref .goal) (known : Entries Value) :
    Outline (Value × Entries Value) := do
  let (a, agent) ← plain (δ.choose e g)
  let body ← plain (.modifyGet fun s =>
    s.newDict (s.normalize δ.aliases agent.capabilities known))
  let result ← Agent.outline a (.goal g) (.dict body) δ.tools
  let known ← plain (δ.file e g known result)
  pure (result, known)

/-- Hands out subtasks one after another. -/
def handOutAll (e : Ref .execution) (known : Entries Value) :
    List (Ref .goal) → Outline (List Value)
  | [] => pure []
  | g :: rest => do
    let (result, known) ← handOut δ e g known
    let results ← handOutAll e known rest
    pure (result :: results)

/-- Decides what becomes of a result. -/
def conclude (r : Ref .execution) (g : Ref .goal) (input result : Value)
    (e : Ref .evaluation) : Outline Value := do
  let passed ← plain (.read fun s => (s.get e).passed)
  say (.judges result e passed)
  if passed then pure result
  else
    let (goal, attempt) ← plain do
      let goal ← .read fun s => s.get g
      let attempt ← .read fun s => (s.get r).attempt
      pure (goal, attempt)
    if δ.budget goal ≤ attempt then plain (Desk.settleFor r goal result e)
    else plain (Desk.tryAgain r g input result e)

/-- The part of an attempt in which things may go wrong. -/
def work (r : Ref .execution) (g : Ref .goal) (input : Value) : Outline Value := do
  emit .goalStart [.goal g, .execution r]
  let (subtasks, known) ← plain do
    let entries ← .read fun s => (s.mapping? input).getD []
    let subtasks ← δ.plan r g entries
    let known ← .read fun s => (s.mapping? input).getD []
    pure (subtasks, known)
  let results ← handOutAll δ r known subtasks
  let whole ← plain do
    let names ← .read fun s => Desk.namesOf s subtasks
    Desk.aggregate names results
  let e ← Evaluation.Outlined.judge δ.evaluator g whole
  conclude δ r g input whole e

/-- What happens after an attempt has failed. -/
def closeFailed (r : Ref .execution) (g : Ref .goal) (f : Failure) : Outline Value := do
  plain do
    let data ← .modifyGet fun s => s.newDict [("error", .text f.shown)]
    let reason := f.message
    let _ ← Execution.log r "error" s!"Task failed: {reason}" (.dict data)
    Execution.finish r .failed
  emit .goalError [.goal g, .execution r, .failure f]
  .fail f

/-- What happens after an attempt has succeeded. -/
def closeCompleted (r : Ref .execution) (g : Ref .goal) (result : Value) : Outline Value := do
  plain (Execution.finish r .completed)
  emit .goalEnd [.goal g, .execution r, result]
  plain do
    let name ← .read fun s => (s.get g).name
    δ.progress r s!"Task {name} completed"
    pure result

/-- Attempts to reach a goal. -/
def pursue (g : Ref .goal) (input : Value) (attempt : Int) (parent : Option String) :
    Outline Value := do
  let goal ← plain (.read fun s => s.get g)
  let input := if input.isNull then .dict goal.input else input
  match ← plain (.read fun s => s.mapping? input) with
  | none => plain (.raise (.inputNotMapping goal.name))
  | some entries => do
    let r ← plain (Desk.openExecution g entries attempt parent)
    say (.opens r)
    match ← (work δ r g input).attempt with
    | .error f => closeFailed r g f
    | .ok v => closeCompleted δ r g v

section Erase

@[simp] theorem erase_handOut (e : Ref .execution) (g : Ref .goal) (known : Entries Value) :
    (handOut δ e g known).erase δ.call = δ.handOut e g known := by
  simp only [handOut, Desk.handOut, Outline.erase_bind, Outline.erase_plain, Agent.erase_outline,
    Outline.erase_pure]

@[simp] theorem erase_handOutAll (e : Ref .execution) : ∀ (gs : List (Ref .goal))
    (known : Entries Value), (handOutAll δ e known gs).erase δ.call = δ.handOutAll e known gs
  | [], _ => rfl
  | g :: rest, known => by
    simp only [handOutAll, Desk.handOutAll, Outline.erase_bind, erase_handOut,
      erase_handOutAll e rest, Outline.erase_pure]

@[simp] theorem erase_conclude (r : Ref .execution) (g : Ref .goal) (input result : Value)
    (e : Ref .evaluation) : (conclude δ r g input result e).erase δ.call =
      δ.conclude r g input result e := by
  simp only [conclude, Desk.conclude, Outline.erase_bind, Outline.erase_plain, Outline.erase_say,
    Outline.erase_ite, Outline.erase_pure, bind_assoc, pure_bind]

theorem erase_work (r : Ref .execution) (g : Ref .goal) (input : Value) :
    (work δ r g input).erase δ.call = δ.work r g input := by
  have hj := fun g whole => Evaluation.Outlined.erase_judge δ.evaluator g whole
  simp only [show δ.evaluator.call = δ.call from rfl] at hj
  simp only [work, Desk.work, Outline.erase_bind, Outline.erase_plain, Outline.erase_emit,
    erase_handOutAll, hj, erase_conclude, bind_assoc, pure_bind]

theorem erase_closeFailed (r : Ref .execution) (g : Ref .goal) (f : Failure) :
    (closeFailed r g f).erase δ.call = δ.closeFailed r g f := by
  simp only [closeFailed, Desk.closeFailed, Outline.erase_bind, Outline.erase_plain,
    Outline.erase_emit, Outline.erase_fail, bind_assoc]

theorem erase_closeCompleted (r : Ref .execution) (g : Ref .goal) (v : Value) :
    (closeCompleted δ r g v).erase δ.call = δ.closeCompleted r g v := by
  simp only [closeCompleted, Desk.closeCompleted, Outline.erase_bind, Outline.erase_plain,
    Outline.erase_emit]

/-- **What runs is an attempt.** -/
theorem erase_pursue (g : Ref .goal) (input : Value) (attempt : Int) (parent : Option String) :
    (pursue δ g input attempt parent).erase δ.call = δ.pursue g input attempt parent := by
  simp only [pursue, Desk.pursue, Outline.erase_bind, Outline.erase_plain]
  congr 1
  funext goal
  congr 1
  funext entries
  cases entries with
  | none => simp
  | some entries =>
    simp only [Outline.erase_bind, Outline.erase_plain, Outline.erase_say, pure_bind,
      Outline.erase_attempt, erase_work]
    congr 1
    funext r
    congr 1
    funext o
    cases o with
    | ok v => exact erase_closeCompleted δ r g v
    | error f => exact erase_closeFailed δ r g f

end Erase

section Tame

open Outline.Tame
open Outline (tame_plain tame_emit tame_say)

theorem log_tame (r : Ref .execution) (level message : String) (data : Value) :
    (Execution.log r level message data).Tame := by
  refine ((Routine.tame_query fun _ _ => Store.now_tame).bind fun _ => Routine.tame_modifyGet _).bind
    fun entry => (Routine.tame_read _).bind fun e => ?_
  split
  · exact (Routine.tame_alter _).bind fun _ => trivial
  · trivial
  · exact Routine.tame_raise rfl

theorem finish_tame (r : Ref .execution) (status : Status) : (Execution.finish r status).Tame :=
  (Routine.tame_alter _).bind fun _ => (Routine.tame_query fun _ _ => Store.now_tame).bind fun _ =>
    Routine.tame_alter _

theorem progress_tame (e : Ref .execution) (message : String) : (δ.progress e message).Tame :=
  (Routine.tame_read _).bind fun _ => Routine.tame_alter _

theorem choose_tame (e : Ref .execution) (g : Ref .goal) : (δ.choose e g).Tame := by
  refine (Routine.tame_query fun s c h => ?_).bind fun a => (Routine.tame_read _).bind fun _ =>
    (Routine.tame_read _).bind fun _ => (Routine.tame_alter _).bind fun _ =>
      (progress_tame δ _ _).bind fun _ => trivial
  unfold Desk.agentFor Store.agentCovering at h
  split at h <;> cases h
  rfl

theorem file_tame (e : Ref .execution) (g : Ref .goal) (known : Entries Value) (result : Value) :
    (δ.file e g known result).Tame :=
  (Routine.tame_read _).bind fun _ => (Routine.tame_modifyGet _).bind fun _ =>
    (progress_tame δ _ _).bind fun _ => trivial

theorem tame_handOut (e : Ref .execution) (g : Ref .goal) (known : Entries Value) :
    (handOut δ e g known).Tame :=
  bind (tame_plain (choose_tame δ _ _)) fun _ => bind (tame_plain (Routine.tame_modifyGet _)) fun _ =>
    bind (Agent.tame_outline _ _ _ _) fun _ => bind (tame_plain (file_tame δ _ _ _ _)) fun _ => trivial

theorem tame_handOutAll (e : Ref .execution) : ∀ (gs : List (Ref .goal)) (known : Entries Value),
    (handOutAll δ e known gs).Tame
  | [], _ => trivial
  | _ :: rest, _ => bind (tame_handOut δ _ _ _) fun _ => bind (tame_handOutAll e rest _) fun _ => trivial

theorem dump_tame (e : Ref .evaluation) : (Evaluation.dump e).Tame := Routine.tame_modifyGet _

theorem tame_settleFor (r : Ref .execution) (goal : Goal) (result : Value) (e : Ref .evaluation) :
    (plain (Desk.settleFor r goal result e)).Tame :=
  tame_plain ((Routine.tame_read _).bind fun _ => (dump_tame e).bind fun _ =>
    (log_tame _ _ _ _).bind fun _ => (dump_tame e).bind fun _ => Routine.tame_modifyGet _)

theorem tame_tryAgain (r : Ref .execution) (g : Ref .goal) (input result : Value)
    (e : Ref .evaluation) : (plain (Desk.tryAgain r g input result e)).Tame := by
  unfold Desk.tryAgain
  simp only [Outline.plain_bind]
  exact bind (tame_plain (Routine.tame_read _)) fun _ =>
    bind (tame_plain (Routine.tame_read _)) fun _ =>
      bind (tame_plain (Routine.tame_read _)) fun _ => bind (tame_plain (log_tame _ _ _ _)) fun _ =>
        bind (tame_plain ((dump_tame e).bind fun _ => Routine.tame_modifyGet _)) fun _ =>
          Outline.tame_part _

theorem tame_conclude (r : Ref .execution) (g : Ref .goal) (input result : Value)
    (e : Ref .evaluation) : (conclude δ r g input result e).Tame := by
  refine bind (tame_plain (Routine.tame_read _)) fun passed => bind (tame_say _) fun _ => ?_
  split
  · trivial
  · refine bind (tame_plain ((Routine.tame_read _).bind fun _ => (Routine.tame_read _).bind
      fun _ => trivial)) fun ⟨goal, attempt⟩ => ?_
    dsimp only
    split
    · exact tame_settleFor _ _ _ _
    · exact tame_tryAgain _ _ _ _ _

theorem decompose_tame (g : Ref .goal) (input : Entries Value) (strategy : Strategy) :
    (Desk.decompose g input strategy).Tame := by
  have hcollect : ∀ cs : List String, (Routine.collect (Desk.subtask g input) cs).Tame := by
    intro cs
    induction cs with
    | nil => trivial
    | cons c cs ih => exact (Routine.tame_modifyGet _).bind fun _ => ih.bind fun _ => trivial
  refine (Routine.tame_read _).bind fun cs => ?_
  dsimp only
  split
  · trivial
  · exact hcollect _

theorem plan_tame (r : Ref .execution) (g : Ref .goal) (input : Entries Value) :
    (δ.plan r g input).Tame := by
  refine Routine.Tame.bind ?_ fun _ => (decompose_tame g input _).bind fun _ =>
    (Routine.tame_read _).bind fun _ => (Routine.tame_alter _).bind fun _ =>
      (Routine.tame_read _).bind fun _ => (progress_tame δ _ _).bind fun _ => trivial
  unfold Desk.analyze
  split
  · trivial
  · exact Routine.tame_read _

theorem aggregate_tame (names : List String) (results : List Value) :
    (Desk.aggregate names results).Tame := by
  unfold Desk.aggregate
  split
  · trivial
  · exact Routine.tame_modifyGet _

theorem tame_work (r : Ref .execution) (g : Ref .goal) (input : Value) : (work δ r g input).Tame := by
  refine bind (tame_emit _ _) fun _ => bind (tame_plain ?_) fun x =>
    bind (tame_handOutAll δ r _ _) fun _ => bind (tame_plain ?_) fun _ =>
      bind (Evaluation.Outlined.tame_judge _ _ _) fun _ => tame_conclude δ _ _ _ _ _
  · exact (Routine.tame_read _).bind fun _ => (plan_tame δ r g _).bind fun _ =>
      (Routine.tame_read _).bind fun _ => trivial
  · exact (Routine.tame_read _).bind fun _ => aggregate_tame _ _

theorem start_tame (name : String) (input : Entries Value) (attempt : Int)
    (parent : Option String) : (Execution.start name input attempt parent).Tame :=
  Routine.Tame.bind (r := .modifyGet fun s =>
      (s.executionCount + 1, { s with executionCount := s.executionCount + 1 }))
    (Routine.tame_modifyGet _) fun _ => (Routine.tame_query fun _ _ => Store.now_tame).bind fun _ =>
      Routine.tame_modifyGet _

theorem openExecution_tame (g : Ref .goal) (input : Entries Value) (attempt : Int)
    (parent : Option String) : (Desk.openExecution g input attempt parent).Tame :=
  (Routine.tame_read _).bind fun _ => (start_tame _ _ _ _).bind fun _ =>
    (Routine.tame_modifyGet _).bind fun _ => (log_tame _ _ _ _).bind fun _ =>
      (Routine.tame_alter _).bind fun _ => trivial

/-- No abort comes out of an attempt by itself. -/
theorem tame_pursue (g : Ref .goal) (input : Value) (attempt : Int) (parent : Option String) :
    (pursue δ g input attempt parent).Tame := by
  refine bind (tame_plain (Routine.tame_read _)) fun goal => ?_
  refine bind (tame_plain (Routine.tame_read _)) fun entries => ?_
  split
  · exact tame_plain (Routine.tame_raise rfl)
  · refine bind (tame_plain (openExecution_tame g _ attempt parent)) fun r =>
      bind (tame_say _) fun _ => (tame_work δ r g _).attempt_bind fun o ho => ?_
    cases o with
    | ok v =>
      exact bind (tame_plain (finish_tame r _)) fun _ => bind (tame_emit _ _) fun _ =>
        tame_plain ((Routine.tame_read _).bind fun _ => (progress_tame δ _ _).bind fun _ => trivial)
    | error f =>
      refine bind (tame_plain ?_) fun _ => bind (tame_emit _ _) fun _ => (tame_error f).1 ho
      exact (Routine.tame_modifyGet _).bind fun _ => (log_tame _ _ _ _).bind fun _ => finish_tame r _

end Tame

end Pursuit.Outlined

/-! ## All parts of a run -/

namespace Setup

/-- What the parts of a run say while they run. -/
def plan (σ : Setup) : Procedure → Outline Value
  | .visit step w c => Visit.Outlined.visit ⟨σ.desk.call, σ.workflow, w, c⟩ step
  | .pursue g input attempt parent => Pursuit.Outlined.pursue σ.desk g input attempt parent

theorem erase_plan (σ : Setup) (p : Procedure) : (σ.plan p).erase σ.desk.call = σ.body p := by
  cases p with
  | visit step w c => exact Visit.Outlined.erase_visit ⟨σ.desk.call, σ.workflow, w, c⟩ step
  | pursue g input attempt parent => exact Pursuit.Outlined.erase_pursue σ.desk g input attempt parent

theorem tame_plan (σ : Setup) (p : Procedure) : (σ.plan p).Tame := by
  cases p with
  | visit step w c => exact Visit.Outlined.tame_visit _ step
  | pursue g input attempt parent => exact Pursuit.Outlined.tame_pursue σ.desk g input attempt parent

/-- What is done in a run of the setup from a moment on. -/
abbrev Does (σ : Setup) (R : Run σ.body) (N : Nat) {α : Type} (b n : Nat) (x : Outline α)
    (ds : List Deed) (e : Ending α) : Prop :=
  Account R σ.desk.call σ.plan N b n (.now x) ds e

end Setup

end Conductor
