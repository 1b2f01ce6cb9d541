import Conductor.Proofs.Workflow.Guarding
import Conductor.Script.Run

/-!
# Hooks stay registered

Nothing in the program ever takes a hook away, or puts one before another: the table of hooks only
grows at its end (`Conduct.growing`). Visits of steps and attempts at goals do not touch it at all, so if
user code only adds to it, it only grows for as long as a run goes on.

**Theorem (`Run.keeps_hooks`).** The hooks that are registered at a point are still registered there at
every later moment, in the same order, and before all others.
-/

namespace Conductor

namespace HookTable

@[simp] theorem under_add (t : HookTable) (point name : HookName) (c : Ref .callable) :
    (t.add point c).under name = if point = name then t.under name ++ [c] else t.under name := by
  by_cases h : point = name <;> simp [add, under, h]

/-- What is registered at a point stays there when the table grows. -/
theorem under_prefix {t u : HookTable} (h : t <+: u) (name : HookName) : t.under name <+: u.under name :=
  h.filterMap _

end HookTable

/-- The text of a point stands for the point. -/
theorem HookName.ofText?_text (name : HookName) : HookName.ofText? name.text = some name := by
  cases name <;> decide

open Routine

namespace Routine

variable {α β : Type} {C : Conduct}

theorem Obeys.thenOn {r : Routine α} {g : Except Failure α → Routine β} {s : Store} (hr : r.Obeys C s)
    (hg : ∀ o t, C.rely s t → (g o).Obeys C t) : (r.thenOn g).Obeys C s := by
  induction r generalizing s with
  | done a => exact hg _ s (C.refl s)
  | fail f => exact hg _ s (C.refl s)
  | get k ih => exact ih s hr hg
  | put t r ih => exact ⟨hr.1, ih hr.2 fun o u hu => hg o u (C.trans (C.relied hr.1) hu)⟩
  | await w k ih =>
    exact ⟨hr.1, fun o t ht => ih o (hr.2 o t ht) fun o' u hu => hg o' u (C.trans ht hu)⟩

theorem obeys_collect {f : α → Routine β} (h : ∀ a s, (f a).Obeys C s) :
    ∀ (xs : List α) (s : Store), (collect f xs).Obeys C s
  | [], _ => trivial
  | x :: xs, s => (h x s).bind fun _ t _ => (obeys_collect h xs t).bind fun _ _ _ => trivial

end Routine

namespace Conduct

/-- Hooks are added at the end of the table, and none is taken away. -/
def growing : Conduct where
  writes s t := s.hooks <+: t.hooks
  rely s t := s.hooks <+: t.hooks
  calls _ _ := True
  refl _ := List.prefix_rfl
  trans := List.IsPrefix.trans
  relied := id

variable {s t : Store} {call : Handlers}

theorem grows_of_hooks (h : t.hooks = s.hooks) : growing.writes s t := by
  show s.hooks <+: t.hooks
  rw [h]

theorem permits_growing : growing.Permits where
  same _ := grows_of_hooks rfl
  raise _ := grows_of_hooks rfl
  log _ _ _ _ _ := grows_of_hooks rfl
  enter _ _ _ := grows_of_hooks rfl
  record _ _ _ _ := grows_of_hooks rfl
  noteError _ _ _ _ := grows_of_hooks rfl
  merge _ _ _ := grows_of_hooks rfl
  path h := grows_of_hooks (Store.hooks_writeAlong h)
  list _ _ := grows_of_hooks rfl
  dict _ _ := grows_of_hooks rfl
  fork _ c items := grows_of_hooks (Store.hooks_forkAll c items _)
  opened s t input metadata moment h := by
    rcases h with rfl | rfl
    · exact grows_of_hooks rfl
    · exact grows_of_hooks rfl
  result _ _ _ := grows_of_hooks rfl
  closed _ _ _ := grows_of_hooks rfl
  failed _ _ _ _ _ := grows_of_hooks rfl

/-- Registering a hook only adds to the table. -/
theorem registerHook_obeys (point : String) (c : Script.Callable) :
    (Script.registerHook point c).Obeys growing s := by
  unfold Script.registerHook
  split
  · exact obeys_alter (List.prefix_append s.hooks _)
  · exact obeys_raise permits_growing _

end Conduct

/-! ## Attempts at goals -/

namespace Pursuit

open Conduct

variable {s : Store} {call : Handlers}

section Quiet

theorem query_obeys {α : Type} (f : Store → Except Cause α) : (query f).Obeys growing s :=
  obeys_query permits_growing f

theorem read_obeys {α : Type} (f : Store → α) : (read f).Obeys growing s := trivial

theorem executionLog_obeys (r : Ref .execution) (level message : String) (data : Value) :
    (Execution.log r level message data).Obeys growing s := by
  refine Obeys.bind (Obeys.bind (query_obeys _) fun _ _ _ => obeys_modifyGet (grows_of_hooks rfl))
    fun entry _ _ => Obeys.bind (read_obeys _) fun e _ _ => ?_
  split
  · exact Obeys.bind (obeys_log permits_growing _ _ _ _) fun _ _ _ => trivial
  · trivial
  · exact obeys_raise permits_growing _

theorem finish_obeys (r : Ref .execution) (status : Status) :
    (Execution.finish r status).Obeys growing s :=
  Obeys.bind (obeys_alter (grows_of_hooks rfl)) fun _ _ _ =>
    Obeys.bind (query_obeys _) fun _ _ _ => obeys_alter (grows_of_hooks rfl)

theorem open_obeys (g : Ref .goal) (input : Entries Value) (attempt : Int) (parent : Option String) :
    (Desk.openExecution g input attempt parent).Obeys growing s := by
  refine Obeys.bind (read_obeys _) fun name _ _ => Obeys.bind ?_ fun r _ _ =>
    Obeys.bind (obeys_modifyGet (grows_of_hooks rfl)) fun _ _ _ =>
      Obeys.bind (executionLog_obeys _ _ _ _) fun _ _ _ =>
        Obeys.bind (obeys_alter (grows_of_hooks rfl)) fun _ _ _ => trivial
  exact Obeys.bind (obeys_modifyGet (grows_of_hooks rfl)) fun _ _ _ =>
    Obeys.bind (query_obeys _) fun _ _ _ => obeys_modifyGet (grows_of_hooks rfl)

theorem progress_obeys (δ : Desk) (e : Ref .execution) (message : String) :
    (δ.progress e message).Obeys growing s :=
  Obeys.bind (read_obeys _) fun _ _ _ => obeys_log permits_growing _ _ _ _

theorem decompose_obeys (g : Ref .goal) (input : Entries Value) (strategy : Strategy) :
    (Desk.decompose g input strategy).Obeys growing s := by
  refine Obeys.bind (read_obeys _) fun cs t _ => ?_
  dsimp only
  split
  · trivial
  · exact obeys_collect (fun _ _ => obeys_modifyGet (grows_of_hooks rfl)) _ _

theorem plan_obeys (δ : Desk) (r : Ref .execution) (g : Ref .goal) (input : Entries Value) :
    (δ.plan r g input).Obeys growing s := by
  refine Obeys.bind ?_ fun _ _ _ => Obeys.bind (decompose_obeys g input _) fun _ _ _ =>
    Obeys.bind (read_obeys _) fun _ _ _ => Obeys.bind (obeys_alter (grows_of_hooks rfl)) fun _ _ _ =>
      Obeys.bind (read_obeys _) fun _ _ _ => Obeys.bind (progress_obeys δ _ _) fun _ _ _ => trivial
  unfold Desk.analyze
  split
  · trivial
  · exact read_obeys _

theorem aggregate_obeys (names : List String) (results : List Value) :
    (Desk.aggregate names results).Obeys growing s := by
  unfold Desk.aggregate
  split
  · trivial
  · exact obeys_modifyGet (grows_of_hooks rfl)

theorem dump_obeys (e : Ref .evaluation) : (Evaluation.dump e).Obeys growing s :=
  obeys_modifyGet (grows_of_hooks rfl)

theorem conclude_obeys (δ : Desk) (r : Ref .execution) (g : Ref .goal) (input result : Value) (e : Ref .evaluation) :
    (δ.conclude r g input result e).Obeys growing s := by
  refine Obeys.bind (read_obeys _) fun passed _ _ => ?_
  split
  · trivial
  refine Obeys.bind (read_obeys _) fun goal _ _ => Obeys.bind (read_obeys _) fun attempt _ _ => ?_
  split
  · exact Obeys.bind (read_obeys _) fun _ _ _ => Obeys.bind (dump_obeys _) fun _ _ _ =>
      Obeys.bind (executionLog_obeys _ _ _ _) fun _ _ _ => Obeys.bind (dump_obeys _) fun _ _ _ =>
        obeys_modifyGet (grows_of_hooks rfl)
  · exact Obeys.bind (read_obeys _) fun _ _ _ => Obeys.bind (read_obeys _) fun _ _ _ =>
      Obeys.bind (read_obeys _) fun _ _ _ => Obeys.bind (executionLog_obeys _ _ _ _) fun _ _ _ =>
        Obeys.bind (Obeys.bind (dump_obeys _) fun _ _ _ => obeys_modifyGet (grows_of_hooks rfl))
          fun _ _ _ => obeys_call trivial

end Quiet

section Loud

variable (hc : call.Obey growing)
include hc

theorem emit_obeys (name : HookName) (args : List Value) : (name.emit call args).Obeys growing s :=
  HookName.emit_obeys permits_growing hc name args

theorem agent_obeys (a : Ref .agent) (task body : Value) (tools : Entries Value) :
    (Agent.execute call a task body tools).Obeys growing s := by
  refine Obeys.bind (obeys_modifyGet (grows_of_hooks rfl)) fun tools _ _ =>
    Obeys.bind (emit_obeys hc _ _) fun _ _ _ => Obeys.bind (Obeys.attempt ?_) fun o _ _ => ?_
  · refine Obeys.bind (read_obeys _) fun _ _ _ =>
      Obeys.bind (obeys_modifyGet (grows_of_hooks rfl)) fun reply _ _ =>
        Obeys.bind (hc _ _ _) fun _ t _ => ?_
    unfold Reply.conclude
    rw [Obeys]
    split
    · trivial
    · trivial
    · exact obeys_raise permits_growing _
  · cases o with
    | ok v => exact Obeys.bind (emit_obeys hc _ _) fun _ _ _ => trivial
    | error f => exact Obeys.bind (emit_obeys hc _ _) fun _ _ _ => trivial

theorem scores_obeys (j : Evaluation.Judge) (hj : j.call = call) (result : Value) :
    ∀ (criteria : List (String × Value)) (s : Store), (Evaluation.scores j result criteria).Obeys growing s
  | [], _ => trivial
  | (_, _) :: rest, s => by
    refine Obeys.bind ?_ fun _ t _ => Obeys.bind (scores_obeys j hj result rest t) fun _ _ _ => trivial
    unfold Evaluation.scoreOf
    split
    · exact read_obeys _
    · rw [hj]
      exact Obeys.bind (hc _ _ _) fun _ _ _ => query_obeys _

theorem judge_obeys (j : Evaluation.Judge) (hj : j.call = call) (g : Ref .goal) (result : Value) :
    (Evaluation.judge j g result).Obeys growing s := by
  have hrecord : ∀ passed score scores unmet (s : Store),
      (Evaluation.record passed score scores unmet).Obeys growing s := fun _ _ _ _ _ =>
    obeys_modifyGet (grows_of_hooks rfl)
  unfold Evaluation.judge
  rw [hj]
  refine Obeys.bind (emit_obeys hc _ _) fun _ _ _ => Obeys.bind ?_ fun _ _ _ =>
    Obeys.bind (emit_obeys hc _ _) fun _ _ _ => trivial
  refine Obeys.bind (read_obeys _) fun criteria _ _ => ?_
  split
  · exact hrecord _ _ _ _ _
  · exact Obeys.bind (scores_obeys hc j hj result _ _) fun _ _ _ => Obeys.bind (read_obeys _) fun _ _ _ =>
      Obeys.bind (hrecord _ _ _ _ _) fun _ _ _ => Obeys.bind (read_obeys _) fun _ _ _ =>
        Obeys.bind (obeys_log permits_growing _ _ _ _) fun _ _ _ => trivial

variable (δ : Desk) (hδ : δ.call = call)
include hδ

theorem handOut_obeys (r : Ref .execution) (g : Ref .goal) (known : Entries Value) :
    (δ.handOut r g known).Obeys growing s := by
  refine Obeys.bind ?_ fun x _ _ => Obeys.bind (obeys_modifyGet (grows_of_hooks rfl)) fun _ _ _ =>
    Obeys.bind (hδ ▸ agent_obeys hc _ _ _ _) fun _ _ _ => Obeys.bind ?_ fun _ _ _ => trivial
  · exact Obeys.bind (query_obeys _) fun _ _ _ => Obeys.bind (read_obeys _) fun _ _ _ =>
      Obeys.bind (read_obeys _) fun _ _ _ => Obeys.bind (obeys_alter (grows_of_hooks rfl)) fun _ _ _ =>
        Obeys.bind (progress_obeys δ _ _) fun _ _ _ => trivial
  · exact Obeys.bind (read_obeys _) fun _ _ _ => Obeys.bind (obeys_modifyGet (grows_of_hooks rfl))
      fun _ _ _ => Obeys.bind (progress_obeys δ _ _) fun _ _ _ => trivial

theorem handOutAll_obeys (r : Ref .execution) : ∀ (gs : List (Ref .goal)) (known : Entries Value)
    (s : Store), (δ.handOutAll r known gs).Obeys growing s
  | [], _, _ => trivial
  | _ :: gs, _, _ => Obeys.bind (handOut_obeys hc δ hδ r _ _) fun x t _ =>
      Obeys.bind (handOutAll_obeys r gs x.2 t) fun _ _ _ => trivial

theorem pursue_obeys (g : Ref .goal) (input : Value) (attempt : Int) (parent : Option String) :
    (δ.pursue g input attempt parent).Obeys growing s := by
  refine Obeys.bind (read_obeys _) fun goal _ _ => Obeys.bind (read_obeys _) fun entries _ _ => ?_
  split
  · exact obeys_raise permits_growing _
  refine Obeys.bind (open_obeys g _ attempt parent) fun r _ _ => Obeys.bind (Obeys.attempt ?_)
    fun o _ _ => ?_
  · refine Obeys.bind (hδ ▸ emit_obeys hc _ _) fun _ _ _ => Obeys.bind (read_obeys _) fun _ _ _ =>
      Obeys.bind (plan_obeys δ r g _) fun _ _ _ => Obeys.bind (read_obeys _) fun _ _ _ =>
        Obeys.bind (handOutAll_obeys hc δ hδ r _ _ _) fun _ _ _ => Obeys.bind (read_obeys _) fun _ _ _ =>
          Obeys.bind (aggregate_obeys _ _) fun _ _ _ =>
            Obeys.bind (judge_obeys hc δ.evaluator hδ g _) fun _ _ _ => conclude_obeys δ r g _ _ _
  · cases o with
    | error f =>
      exact Obeys.bind (obeys_modifyGet (grows_of_hooks rfl)) fun _ _ _ =>
        Obeys.bind (executionLog_obeys _ _ _ _) fun _ _ _ => Obeys.bind (finish_obeys _ _) fun _ _ _ =>
          Obeys.bind (hδ ▸ emit_obeys hc _ _) fun _ _ _ => trivial
    | ok v =>
      exact Obeys.bind (finish_obeys _ _) fun _ _ _ => Obeys.bind (hδ ▸ emit_obeys hc _ _) fun _ _ _ =>
        Obeys.bind (read_obeys _) fun _ _ _ => Obeys.bind (progress_obeys δ _ _) fun _ _ _ => trivial

end Loud

end Pursuit

/-! ## Runs -/

variable {σ : Setup}

theorem Conduct.lawful_growing (h : σ.desk.call.Obey growing) : (growing.discipline σ.body).Lawful := by
  refine lawful (fun _ _ => grows_of_hooks rfl) (fun _ _ => grows_of_hooks rfl) fun {p s t} _ _ => ?_
  cases p with
  | visit id w c =>
    exact Visit.Scene.visit_obeys permits_growing h (fun _ _ _ _ => trivial) fun _ _ _ _ _ _ _ =>
      grows_of_hooks rfl
  | pursue g input attempt parent => exact Pursuit.pursue_obeys h σ.desk rfl g input attempt parent

/-- **Hooks stay registered**, in their order and before all that are registered later. -/
theorem Run.keeps_hooks {R : Run σ.body} (hσ : σ.desk.call.Obey .growing) (hR : R.Minds .growing)
    {i j : Nat} (hij : i ≤ j) (name : HookName) :
    (R.store i).hooks.under name <+: (R.store j).hooks.under name :=
  HookTable.under_prefix (Run.relies (Conduct.lawful_growing hσ) (fun _ => List.prefix_rfl) hR hij) name

end Conductor
