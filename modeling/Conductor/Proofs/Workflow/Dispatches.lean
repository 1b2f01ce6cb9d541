import Conductor.Proofs.Workflow.Stages

/-!
# What steps do

What an account of a step's own work says, by the variant of the step. A task step tells the start
and the end of its task exactly when it calls the unit of work (`Account.task_told`); a retry step
notes failed tries; the others say nothing by themselves.

A failure that leaves a step's own work is the failure of a part that the step has waited for, as it
is, or the step itself has raised it (`Account.dispatch_passes`); and if the step has waited for
all of its parts and returns, none of them has failed (`Account.dispatch_clears`).
-/

namespace Conductor

open Outline (plain emit)
open Visit (Scene)
open Visit.Outlined

variable {body : Procedure → Routine Value} {R : Run body} {plan : Procedure → Outline Value}
  {run : Handlers} {N : Nat} {α β : Type} {b n t k : Nat} {ds ds' : List Deed}

/-! ## What may be said -/

namespace Visit

/-- What a step may say while it does its own work. -/
def Utters (σ : Scene) (step : Step) : Remark → Prop
  | .emits name _ => (name = .taskStart ∨ name = .taskEnd ∨ name = .taskError) ∧
      ∃ t, step.kind = .task t
  | .notes c name _ => ∃ (r : RetryStep) (a : Nat), step.kind = .retry r ∧ c = σ.context ∧
      name = s!"{r.target}_attempt_{a}"
  | _ => False

namespace Outlined

open Outline (Says says_plain says_call says_emit says_ofOutcome says_pure says_say)

variable {P : Remark → Prop} {σ : Scene}

theorem says_holds (c : Ref .callable) (step : String) : (holds σ c step).Says P := by
  refine Says.bind (says_call _ _ _).attempt fun o => ?_
  cases o <;> exact says_plain _

theorem says_sources : ∀ m : Entries Source, (sources σ m).Says P
  | [] => trivial
  | (_, x) :: rest => by
    refine Says.bind ?_ fun _ => Says.bind (says_sources rest) fun _ => says_pure _
    cases x with
    | call c => exact says_call _ _ _
    | text t => exact says_plain _

theorem says_inputOf (t : TaskStep) : (inputOf σ t).Says P := by
  unfold inputOf
  split
  · exact says_plain _
  · exact Says.bind (says_sources _) fun _ => says_plain _

theorem says_task_outline {r : Ref .task} {input context : Value}
    (h : ∀ name args, name = .taskStart ∨ name = .taskEnd ∨ name = .taskError →
      P (.emits name args)) : (Task.outline r input context).Says P := by
  refine Says.bind (says_emit (h _ _ (Or.inl rfl))) fun _ => Says.bind (says_plain _) fun _ =>
    Says.bind (says_call _ _ _).attempt fun o => ?_
  cases o with
  | ok v => exact Says.bind (says_emit (h _ _ (Or.inr (Or.inl rfl)))) fun _ => says_pure _
  | error f => exact Says.bind (says_emit (h _ _ (Or.inr (Or.inr rfl)))) fun _ => trivial

theorem says_runTask {t : TaskStep} {r : Ref .task}
    (h : ∀ name args, name = .taskStart ∨ name = .taskEnd ∨ name = .taskError →
      P (.emits name args)) : (runTask σ t r).Says P :=
  Says.bind (says_inputOf t) fun _ => Says.bind (says_task_outline h) fun _ =>
    Says.bind (says_plain _) fun _ => says_pure _

theorem says_task {step : String} {t : TaskStep}
    (h : ∀ name args, name = .taskStart ∨ name = .taskEnd ∨ name = .taskError →
      P (.emits name args)) : (task σ step t).Says P := by
  refine Says.bind (says_plain _) fun r => ?_
  split
  · exact says_runTask h
  · refine Says.bind (says_holds _ _) fun b => ?_
    cases b with
    | true => exact says_runTask h
    | false => exact Says.bind (says_plain _) fun _ => says_pure _

theorem says_wantsRetry (step : String) (r : RetryStep) (f : Failure) (attempt : Nat) :
    (wantsRetry step r f attempt).Says P := by
  unfold wantsRetry
  split
  · trivial
  · refine Says.bind (says_call _ _ _).attempt fun o => ?_
    cases o <;> exact says_plain _

theorem says_tryTarget {r : RetryStep} {attempt : Nat}
    (h : ∀ f, P (.notes σ.context s!"{r.target}_attempt_{attempt}" f)) :
    (tryTarget σ r attempt).Says P := by
  refine Says.bind (says_plain _).attempt fun o => ?_
  cases o with
  | ok v => exact says_pure _
  | error f => exact Says.bind (says_say (h f)) fun _ => Says.bind (says_plain _) fun _ => says_pure _

theorem says_retryFrom {step : String} {r : RetryStep}
    (h : ∀ (a : Nat) f, P (.notes σ.context s!"{r.target}_attempt_{a}" f)) :
    ∀ remaining attempt, (retryFrom σ step r attempt remaining).Says P
  | 0, attempt => Says.bind (says_tryTarget (h attempt)) fun _ => says_ofOutcome _
  | remaining + 1, attempt => by
    refine Says.bind (says_tryTarget (h attempt)) fun o => ?_
    cases o with
    | ok v => exact says_pure _
    | error f =>
      refine Says.bind (says_wantsRetry _ _ _ _) fun b => ?_
      cases b with
      | true => exact Says.bind (says_plain _) fun _ => says_retryFrom h remaining _
      | false => trivial

/-- A step says nothing by itself but what `Utters` allows. -/
theorem says_dispatch (step : Step) : (dispatch σ step).Says (Utters σ step) := by
  unfold dispatch
  split
  · next t hk => exact says_task fun name _ hn => ⟨hn, t, hk⟩
  · exact says_plain _
  · exact Says.bind (says_holds _ _) fun _ => Says.bind (says_plain _) fun _ => says_plain _
  · exact says_plain _
  · next r hk => exact says_retryFrom (fun a f => ⟨r, a, hk, rfl, rfl⟩) _ _
  · exact says_plain _

end Outlined

end Visit

/-! ## Parts that have ended -/

namespace Deed

/-- A part has ended in a list of deeds, called or started side by side with others. -/
def Ended (ds : List Deed) (p : Procedure) (x : Except Failure Value) : Prop :=
  ∃ m b inner t, .part m b p inner (some (t, x)) ∈ ds ∨
    ∃ m' kind parts e, .fork m' kind parts e ∈ ds ∧ .part m b p inner (some (t, x)) ∈ parts

section Ended

variable {p : Procedure} {x : Except Failure Value}

theorem ended_append : Ended (ds ++ ds') p x ↔ Ended ds p x ∨ Ended ds' p x := by
  simp only [Ended, List.mem_append]
  constructor
  · rintro ⟨m, b, inner, t, (h | h) | ⟨m', kind, parts, e, h | h, hp⟩⟩
    · exact Or.inl ⟨m, b, inner, t, Or.inl h⟩
    · exact Or.inr ⟨m, b, inner, t, Or.inl h⟩
    · exact Or.inl ⟨m, b, inner, t, Or.inr ⟨m', kind, parts, e, h, hp⟩⟩
    · exact Or.inr ⟨m, b, inner, t, Or.inr ⟨m', kind, parts, e, h, hp⟩⟩
  · rintro (⟨m, b, inner, t, h | ⟨m', kind, parts, e, h, hp⟩⟩ |
      ⟨m, b, inner, t, h | ⟨m', kind, parts, e, h, hp⟩⟩)
    · exact ⟨m, b, inner, t, Or.inl (Or.inl h)⟩
    · exact ⟨m, b, inner, t, Or.inr ⟨m', kind, parts, e, Or.inl h, hp⟩⟩
    · exact ⟨m, b, inner, t, Or.inl (Or.inr h)⟩
    · exact ⟨m, b, inner, t, Or.inr ⟨m', kind, parts, e, Or.inr h, hp⟩⟩

@[simp] theorem not_ended_nil : ¬Ended [] p x := by
  rintro ⟨m, b, inner, t, h | ⟨m', kind, parts, e, h, -⟩⟩ <;> cases h

@[simp] theorem ended_part {n b : Nat} {q : Procedure} {inner : List Deed} {e : Ending Value} :
    Ended [.part n b q inner e] p x ↔ p = q ∧ ∃ t, e = some (t, x) := by
  constructor
  · rintro ⟨m, b, inner, t, h | ⟨m', kind, parts, e, h, -⟩⟩
    · cases List.mem_singleton.1 h
      exact ⟨rfl, t, rfl⟩
    · cases List.mem_singleton.1 h
  · rintro ⟨rfl, t, rfl⟩
    exact ⟨n, b, inner, t, Or.inl (List.mem_singleton_self _)⟩

@[simp] theorem not_ended_ask {n : Nat} {u : Use} {c : Ref .callable} {args : List Value}
    {inner : List Deed} {e : Ending Value} : ¬Ended [.ask n u c args inner e] p x := by
  rintro ⟨m, b, inner, t, h | ⟨m', kind, parts, e, h, -⟩⟩ <;> cases List.mem_singleton.1 h

@[simp] theorem not_ended_remark {n : Nat} {l : Remark} : ¬Ended [.remark n l] p x := by
  rintro ⟨m, b, inner, t, h | ⟨m', kind, parts, e, h, -⟩⟩ <;> cases List.mem_singleton.1 h

theorem ended_fork {n first : Nat} {kind : JoinKind} {ps : List Procedure}
    {dss : Fin ps.length → List Deed} {es : Fin ps.length → Ending Value}
    {e : Ending (List Value)} : Ended [.fork n kind (parts n first ps dss es) e] p x ↔
      ∃ i : Fin ps.length, p = ps.get i ∧ ∃ t, es i = some (t, x) := by
  constructor
  · rintro ⟨m, b, inner, t, h | ⟨m', kind', parts', e', h, hp⟩⟩
    · cases List.mem_singleton.1 h
    · cases List.mem_singleton.1 h
      obtain ⟨i, hi⟩ := mem_parts.1 hp
      injection hi with _ _ hp _ he
      exact ⟨i, hp, t, he.symm⟩
  · rintro ⟨i, rfl, t, he⟩
    refine ⟨n, first + i, dss i, t, Or.inr ⟨n, kind, _, e, List.mem_singleton_self _, ?_⟩⟩
    exact mem_parts.2 ⟨i, by rw [he]⟩

end Ended

end Deed

namespace Account

/-! ## Waiting for parts -/

theorem called_part {p : Procedure} {o : Except Failure Value}
    (h : Account R run plan N b n (.now (plain (.call p))) ds (some (t, o))) :
    ∃ inner, ds = [.part n b p inner (some (t, o))] := by
  rcases h.ran with ⟨-, he, -⟩ | ⟨inner, -, -, rfl, -⟩
  · cases he
  · exact ⟨inner, rfl⟩

theorem sides {w : Wait} {kind : JoinKind} {ps : List Procedure} {k : Outcome → Outline α}
    {e : Ending α} (h : Account R run plan N b n (.now (.await w k)) ds e)
    (hw : Schedule.sides w = some (kind, ps)) :
    (ps = [] ∧ Account R run plan N b (n + 1) (.now (k (.ok []))) ds e) ∨
      (∃ dss es m x ds', ds = .fork n kind (Deed.parts n (R.moment n).branches.size ps dss es)
          (some (m, x)) :: ds' ∧ n < m ∧ kind.Left es m x ∧
        Account R run plan N b m (.now (k x)) ds' e) ∨
      e = none ∧ (ds = [] ∨ ∃ dss es, ds =
        [.fork n kind (Deed.parts n (R.moment n).branches.size ps dss es) none]) := by
  cases h with
  | stop => exact Or.inr (Or.inr ⟨rfl, Or.inl rfl⟩)
  | call | calling | sleep | drain | drained => cases hw
  | skip hw' _ _ _ h =>
    rw [hw] at hw'
    cases hw'
    exact Or.inl ⟨rfl, h⟩
  | fork hw' _ hn _ _ _ _ _ _ ho _ hk =>
    rw [hw] at hw'
    cases hw'
    exact Or.inr (Or.inl ⟨_, _, _, _, _, rfl, hn, ho, hk⟩)
  | forking hw' =>
    rw [hw] at hw'
    cases hw'
    exact Or.inr (Or.inr ⟨rfl, Or.inr ⟨_, _, rfl⟩⟩)

/-- The outcome of waiting for all of several parts: a failure is that of one of them, and with a
result none of them has failed. -/
theorem all_passes {ps : List Procedure} {o : Except Failure (List Value)}
    (h : Account R run plan N b n (.now (plain (.all ps))) ds (some (t, o))) :
    (∀ f, o = .error f → ∃ p ∈ ps, Deed.Ended ds p (.error f)) ∧
      ∀ vs, o = .ok vs → ∀ p f, ¬Deed.Ended ds p (.error f) := by
  rcases h.sides rfl with ⟨rfl, h'⟩ | ⟨dss, es, m, x, ds', rfl, -, hl, h'⟩ | ⟨he, -⟩
  · obtain ⟨rfl, he⟩ := h'.done_iff
    cases he
    exact ⟨nofun, fun _ _ p f => Deed.not_ended_nil⟩
  · cases x with
    | ok vs =>
      obtain ⟨rfl, he⟩ := h'.done_iff
      cases he
      refine ⟨nofun, fun _ _ p f hp => ?_⟩
      obtain ⟨i, rfl, s, hi⟩ := Deed.ended_fork.1 hp
      rcases hl with ⟨ws, -, hws⟩ | ⟨g, hg, -⟩
      · obtain ⟨s', -, hi'⟩ := hws i
        rw [hi] at hi'
        cases hi'
      · cases hg
    | error g =>
      obtain ⟨rfl, he⟩ := h'.fail_iff
      cases he
      refine ⟨fun f hf => ?_, nofun⟩
      cases hf
      obtain ⟨i, s, -, hi⟩ := hl.error
      exact ⟨ps.get i, List.get_mem ps i, Deed.ended_fork.2 ⟨i, rfl, s, hi⟩⟩
  · cases he

/-- A failure of a race is that of one of its parts. -/
theorem first_passes {ps : List Procedure} {f : Failure}
    (h : Account R run plan N b n (.now (plain (.first ps))) ds (some (t, .error f))) :
    ∃ p ∈ ps, Deed.Ended ds p (.error f) := by
  rcases h.sides rfl with ⟨rfl, h'⟩ | ⟨dss, es, m, x, ds', rfl, -, hl, h'⟩ | ⟨he, -⟩
  · obtain ⟨-, he⟩ := h'.done_iff
    cases he
  · cases x with
    | ok vs =>
      obtain ⟨rfl, he⟩ := h'.done_iff
      cases he
    | error g =>
      obtain ⟨rfl, he⟩ := h'.fail_iff
      cases he
      obtain ⟨i, s, -, hi⟩ := hl.error
      exact ⟨ps.get i, List.get_mem ps i, Deed.ended_fork.2 ⟨i, rfl, s, hi⟩⟩
  · cases he

/-! ## What leaves a step's own work -/

section Passes

variable {σ : Scene}

/-- Going on with another step gives its outcome. -/
theorem go_passes {step : String} {o : Except Failure Value}
    (h : Account R run plan N b n (.now (plain (σ.go step))) ds (some (t, o))) :
    Deed.Ended ds (.visit step σ.workflow σ.context) o ∧
      ∀ p x, Deed.Ended ds p x → x = o := by
  obtain ⟨inner, rfl⟩ := called_part h
  refine ⟨Deed.ended_part.2 ⟨rfl, t, rfl⟩, fun p x hx => ?_⟩
  obtain ⟨-, s, hs⟩ := Deed.ended_part.1 hx
  cases hs
  rfl

theorem gather_passes {steps : List String} {o : Except Failure Value}
    (h : Account R run plan N b n (.now (plain (σ.gather steps))) ds (some (t, o))) :
    (∀ f, o = .error f → ∃ s ∈ steps,
        Deed.Ended ds (.visit s σ.workflow σ.context) (.error f)) ∧
      ∀ v, o = .ok v → ∀ p f, ¬Deed.Ended ds p (.error f) := by
  rw [Scene.gather, Outline.plain_bind] at h
  rcases h.bind with ⟨ds₁, m, vs, ds₂, h₁, h₂, rfl⟩ | ⟨m, f, h₁, he⟩ | ⟨-, he⟩
  · obtain ⟨rfl, he | ⟨he, -⟩⟩ := h₂.straight (Routine.eval_modifyGet _ _)
    · cases he
    · cases he
      rw [List.append_nil]
      exact ⟨nofun, fun _ _ => (all_passes h₁).2 vs rfl⟩
  · cases he
    refine ⟨fun g hg => ?_, nofun⟩
    cases hg
    obtain ⟨p, hp, hend⟩ := (all_passes h₁).1 _ rfl
    obtain ⟨s, hs, rfl⟩ := List.mem_map.1 hp
    exact ⟨s, hs, hend⟩
  · cases he

theorem batches_passes {iterator : String} : ∀ {batches : List (List Value)} {n : Nat}
    {ds : List Deed} {o : Except Failure (List Value)},
    Account R run plan N b n (.now (plain (σ.runBatches iterator batches))) ds (some (t, o)) →
    (∀ f, o = .error f → ∃ c, Deed.Ended ds (.visit iterator σ.workflow c) (.error f)) ∧
      ∀ vs, o = .ok vs → ∀ p f, ¬Deed.Ended ds p (.error f)
  | [], n, ds, o, h => by
    obtain ⟨rfl, he⟩ := h.done_iff
    cases he
    exact ⟨by simp, fun _ _ p f => Deed.not_ended_nil⟩
  | batch :: more, n, ds, o, h => by
    have hbatch : ∀ {n m : Nat} {ds : List Deed} {x : Except Failure (List Value)},
        Account R run plan N b n (.now (plain (σ.runBatch iterator batch))) ds (some (m, x)) →
        (∀ f, x = .error f → ∃ c, Deed.Ended ds (.visit iterator σ.workflow c) (.error f)) ∧
          ∀ vs, x = .ok vs → ∀ p f, ¬Deed.Ended ds p (.error f) := by
      intro n m ds x h
      rw [Scene.runBatch, Outline.plain_bind] at h
      rcases h.straight_bind (Routine.eval_modifyGet _ _) with ⟨-, he⟩ | ⟨-, h'⟩
      · cases he
      · refine ⟨fun f hf => ?_, (all_passes h').2⟩
        obtain ⟨p, hp, hend⟩ := (all_passes h').1 f hf
        obtain ⟨c, -, rfl⟩ := List.mem_map.1 hp
        exact ⟨c, hend⟩
    rw [Scene.runBatches, Outline.plain_bind] at h
    rcases h.bind with ⟨ds₁, m, vs, ds₂, h₁, h₂, rfl⟩ | ⟨m, f, h₁, he⟩ | ⟨-, he⟩
    · rw [Outline.plain_bind] at h₂
      rcases h₂.bind with ⟨ds₃, m', ws, ds₄, h₃, h₄, rfl⟩ | ⟨m', f, h₃, he⟩ | ⟨-, he⟩
      · obtain ⟨rfl, he⟩ := h₄.done_iff
        cases he
        refine ⟨by simp, fun _ _ p f => ?_⟩
        rw [List.append_nil, Deed.ended_append, not_or]
        exact ⟨(hbatch h₁).2 vs rfl p f, (batches_passes h₃).2 ws rfl p f⟩
      · cases he
        refine ⟨fun g hg => ?_, by simp⟩
        cases hg
        obtain ⟨c, hend⟩ := (batches_passes h₃).1 f rfl
        exact ⟨c, Deed.ended_append.2 (Or.inr hend)⟩
      · cases he
    · cases he
      refine ⟨fun g hg => ?_, by simp⟩
      cases hg
      exact (hbatch h₁).1 f rfl
    · cases he

/-- A condition only fails with the remark that it has failed. -/
theorem holds_passes {c : Ref .callable} {step : String} {o : Except Failure Bool}
    (h : Account R σ.call plan N b n (.now (holds σ c step)) ds (some (t, o)))
    (hplan : ∀ p, (plan p).Tame) (hc : Deed.Calm ds) :
    (∃ inner e, ds = [.ask n .condition c [.context σ.context] inner e]) ∧
      ∀ f, o = .error f → ∃ reason, f.cause = .predicateFailed step reason := by
  rcases h.attempt_calm hplan (Outline.tame_call _ _ _) hc with
    ⟨ds₁, m, x, ds₂, h₁, -, h₂, rfl⟩ | ⟨-, he⟩
  · obtain ⟨inner, rfl, -⟩ := h₁.called
    cases x with
    | ok v =>
      obtain ⟨rfl, he | ⟨he, -⟩⟩ := h₂.straight (Routine.eval_read _ _)
      · cases he
      · cases he
        exact ⟨⟨inner, _, rfl⟩, nofun⟩
    | error f =>
      obtain ⟨rfl, he | ⟨he, -⟩⟩ := h₂.straight (Routine.eval_raise _ _)
      · cases he
      · cases he
        refine ⟨⟨inner, _, rfl⟩, fun g hg => ?_⟩
        cases hg
        exact ⟨_, rfl⟩
  · cases he

theorem choose_passes {step : String} {predicate : Ref .callable} {trueNext falseNext : String}
    {o : Except Failure Value} (h : Account R σ.call plan N b n
      (.now (choose σ step predicate trueNext falseNext)) ds (some (t, o)))
    (hplan : ∀ p, (plan p).Tame) (hc : Deed.Calm ds) :
    (∀ f, o = .error f → (∃ reason, f.cause = .predicateFailed step reason) ∨
        ∃ s, (s = trueNext ∨ s = falseNext) ∧
          Deed.Ended ds (.visit s σ.workflow σ.context) (.error f)) ∧
      ∀ v, o = .ok v → ∀ p f, ¬Deed.Ended ds p (.error f) := by
  rcases h.bind with ⟨ds₁, m, x, ds₂, h₁, h₂, rfl⟩ | ⟨m, f, h₁, he⟩ | ⟨-, he⟩
  · obtain ⟨⟨inner, e, rfl⟩, -⟩ := h₁.holds_passes hplan hc.append.1
    rcases h₂.straight_bind (Routine.eval_alter _ _) with ⟨-, he⟩ | ⟨-, h₃⟩
    · cases he
    · obtain ⟨hend, hall⟩ := h₃.go_passes
      constructor
      · rintro f rfl
        refine Or.inr ⟨_, ?_, Deed.ended_append.2 (Or.inr hend)⟩
        cases x
        · exact Or.inr rfl
        · exact Or.inl rfl
      · rintro v rfl p f hp
        rcases Deed.ended_append.1 hp with hp | hp
        · exact Deed.not_ended_ask hp
        · cases hall p _ hp
  · cases he
    refine ⟨fun g hg => ?_, nofun⟩
    cases hg
    exact Or.inl ((h₁.holds_passes hplan hc).2 f rfl)
  · cases he

theorem map_passes {items : Items} {iterator : String} {concurrency : Option Int}
    {o : Except Failure Value} (h : Account R run plan N b n
      (.now (plain (σ.map items iterator concurrency))) ds (some (t, o))) :
    (∀ f, o = .error f → σ.itemsOf items (R.store n) = .error f.cause ∨
        ∃ c, Deed.Ended ds (.visit iterator σ.workflow c) (.error f)) ∧
      ∀ v, o = .ok v → ∀ p f, ¬Deed.Ended ds p (.error f) := by
  rw [Scene.map, Outline.plain_bind] at h
  cases hitems : σ.itemsOf items (R.store n) with
  | error c =>
    obtain ⟨rfl, he | ⟨he, -⟩⟩ := h.straight_bind_error (Routine.eval_query_error hitems)
    · cases he
    · cases he
      refine ⟨fun f hf => ?_, by simp⟩
      cases hf
      exact Or.inl rfl
  | ok vs =>
    rcases h.straight_bind (Routine.eval_query_ok hitems) with ⟨-, he⟩ | ⟨-, h⟩
    · cases he
    · rw [Outline.plain_bind] at h
      rcases h.bind with ⟨ds₁, m, ws, ds₂, h₁, h₂, rfl⟩ | ⟨m, f, h₁, he⟩ | ⟨-, he⟩
      · obtain ⟨rfl, he | ⟨he, -⟩⟩ := h₂.straight (Routine.eval_modifyGet _ _)
        · cases he
        · cases he
          rw [List.append_nil]
          exact ⟨by simp, fun _ _ => h₁.batches_passes.2 ws rfl⟩
      · cases he
        refine ⟨fun g hg => ?_, by simp⟩
        cases hg
        exact Or.inr (h₁.batches_passes.1 f rfl)
      · cases he

/-- A try of a retry step gives the outcome of its target. -/
theorem tryTarget_passes {r : RetryStep} {attempt : Nat} {o : Except Failure (Except Failure Value)}
    (h : Account R σ.call plan N b n (.now (tryTarget σ r attempt)) ds (some (t, o)))
    (hplan : ∀ p, (plan p).Tame) (hc : Deed.Calm ds) :
    ∃ x, o = .ok x ∧ Deed.Ended ds (.visit r.target σ.workflow σ.context) x := by
  rcases h.attempt_calm hplan (Outline.tame_plain (σ.go_tame r.target)) hc with
    ⟨ds₁, m, x, ds₂, h₁, -, h₂, rfl⟩ | ⟨-, he⟩
  · have hend : Deed.Ended (ds₁ ++ ds₂) (.visit r.target σ.workflow σ.context) x :=
      Deed.ended_append.2 (Or.inl h₁.go_passes.1)
    cases x with
    | ok v =>
      obtain ⟨rfl, he⟩ := h₂.done_iff
      cases he
      exact ⟨_, rfl, hend⟩
    | error f =>
      obtain ⟨ds₃, h₃, rfl⟩ := h₂.say
      rcases h₃.straight_bind (Routine.eval_alter _ _) with ⟨-, he⟩ | ⟨-, h₄⟩
      · cases he
      · obtain ⟨rfl, he⟩ := h₄.done_iff
        cases he
        exact ⟨_, rfl, hend⟩
  · cases he

/-- Whether to try again is only answered with a failure that says so. -/
theorem wantsRetry_passes {step : String} {r : RetryStep} {f g : Failure} {attempt : Nat}
    (h : Account R σ.call plan N b n (.now (wantsRetry step r f attempt)) ds (some (t, .error g)))
    (hplan : ∀ p, (plan p).Tame) (hc : Deed.Calm ds) :
    ∃ reason, g.cause = .retryPredicateFailed step reason := by
  unfold wantsRetry at h
  split at h
  · cases h.done_iff.2
  · rcases h.attempt_calm hplan (Outline.tame_call _ _ _) hc with
      ⟨ds₁, m, x, ds₂, h₁, -, h₂, rfl⟩ | ⟨-, he⟩
    · cases x with
      | ok v =>
        obtain ⟨rfl, he | ⟨he, -⟩⟩ := h₂.straight (Routine.eval_read _ _) <;> cases he
      | error f =>
        obtain ⟨rfl, he | ⟨he, -⟩⟩ := h₂.straight (Routine.eval_raise _ _)
        · cases he
        · cases he
          exact ⟨_, rfl⟩
    · cases he

end Passes

end Account

namespace Visit.Scene

/-- The wait after a failed try is impossible: it cannot be computed, shown or waited for. -/
def WaitFails (σ : Scene) (r : RetryStep) (attempt : Nat) (c : Cause) : Prop :=
  σ.wait r attempt = .error c ∨
    ∃ wait, σ.wait r attempt = .ok wait ∧ (wait.fixed 3 = .error c ∨ wait.TooLong c)

end Visit.Scene

namespace Account

variable {σ : Scene}

theorem awaitRetry_passes {step : String} {r : RetryStep} {attempt : Nat} {o : Except Failure Unit}
    (h : Account R run plan N b n (.now (plain (σ.awaitRetry step r attempt))) ds (some (t, o))) :
    ds = [] ∧ ∀ f, o = .error f → σ.WaitFails r attempt f.cause := by
  -- A part of the wait that fails leaves its cause.
  have hraise : ∀ {n : Nat} {ds : List Deed} {γ : Type} {c : Cause} {g : γ → Outline Unit},
      Account R run plan N b n (.now (plain (.ofExcept (.error c)) >>= g)) ds (some (t, o)) →
      ds = [] ∧ ∀ f, o = .error f → c = f.cause := by
    intro n ds γ c g h
    obtain ⟨rfl, he | ⟨he, -⟩⟩ := h.straight_bind_error (Routine.eval_raise c _)
    · cases he
    · cases he
      exact ⟨rfl, fun f hf => by cases hf; rfl⟩
  rw [Scene.awaitRetry, Outline.plain_bind] at h
  cases hwait : σ.wait r attempt with
  | error c =>
    rw [hwait] at h
    obtain ⟨rfl, hf⟩ := hraise h
    exact ⟨rfl, fun f ho => Or.inl (by rw [hwait, hf f ho])⟩
  | ok wait =>
    rw [hwait] at h
    rcases h.straight_bind (Routine.eval_done wait _) with ⟨-, he⟩ | ⟨-, h⟩
    · cases he
    rw [Outline.plain_bind] at h
    cases hshown : wait.fixed 3 with
    | error c =>
      rw [hshown] at h
      obtain ⟨rfl, hf⟩ := hraise h
      exact ⟨rfl, fun f ho => Or.inr ⟨wait, hwait, Or.inl (by rw [hshown, hf f ho])⟩⟩
    | ok shown =>
      rw [hshown] at h
      rcases h.straight_bind (Routine.eval_done shown _) with ⟨-, he⟩ | ⟨-, h⟩
      · cases he
      rw [Outline.plain_bind] at h
      rcases h.straight_bind (Routine.eval_read _ _) with ⟨-, he⟩ | ⟨-, h⟩
      · cases he
      rw [Outline.plain_bind] at h
      rcases h.straight_bind (Routine.eval_alter _ _) with ⟨-, he⟩ | ⟨-, h⟩
      · cases he
      obtain ⟨rfl, (he | ⟨m, -, he⟩) | ⟨m, f, -, he, hlong⟩⟩ := h.pause
      · cases he
      · cases he
        exact ⟨rfl, nofun⟩
      · cases he
        exact ⟨rfl, fun g hg => Or.inr ⟨wait, hwait, Or.inr (by cases hg; exact hlong)⟩⟩

/-- A retry step fails with the failure of its target, in asking whether to try again, or because
the wait before the next try is impossible. -/
theorem retryFrom_passes {step : String} {r : RetryStep} (hplan : ∀ p, (plan p).Tame)
    {f : Failure} : ∀ {remaining attempt n : Nat} {ds : List Deed},
    Account R σ.call plan N b n (.now (retryFrom σ step r attempt remaining)) ds
      (some (t, .error f)) → Deed.Calm ds →
    (∃ reason, f.cause = .retryPredicateFailed step reason) ∨
      (∃ a < attempt + remaining, σ.WaitFails r a f.cause) ∨
        Deed.Ended ds (.visit r.target σ.workflow σ.context) (.error f)
  | 0, attempt, n, ds, h, hc => by
    rcases h.bind with ⟨ds₁, m, x, ds₂, h₁, h₂, rfl⟩ | ⟨m, g, h₁, he⟩ | ⟨-, he⟩
    · obtain ⟨y, hy, hend⟩ := h₁.tryTarget_passes hplan hc.append.1
      cases hy
      cases x with
      | ok v => cases h₂.done_iff.2
      | error g =>
        cases h₂.fail_iff.2
        exact Or.inr (Or.inr (Deed.ended_append.2 (Or.inl hend)))
    · obtain ⟨y, hy, -⟩ := h₁.tryTarget_passes hplan hc
      cases hy
    · cases he
  | remaining + 1, attempt, n, ds, h, hc => by
    rcases h.bind with ⟨ds₁, m, x, ds₂, h₁, h₂, rfl⟩ | ⟨m, g, h₁, he⟩ | ⟨-, he⟩
    · obtain ⟨y, hy, hend⟩ := h₁.tryTarget_passes hplan hc.append.1
      cases hy
      cases x with
      | ok v => cases h₂.done_iff.2
      | error g =>
        rcases h₂.bind with ⟨ds₃, m', again, ds₄, h₃, h₄, rfl⟩ | ⟨m', g', h₃, he⟩ | ⟨-, he⟩
        · cases again with
          | false =>
            cases h₄.fail_iff.2
            exact Or.inr (Or.inr (Deed.ended_append.2 (Or.inl hend)))
          | true =>
            rcases h₄.bind with ⟨ds₅, m'', u, ds₆, h₅, h₆, rfl⟩ | ⟨m'', g'', h₅, he⟩ | ⟨-, he⟩
            · refine (retryFrom_passes hplan h₆ hc.append.2.append.2.append.2).imp id
                (Or.imp ?_ fun h => ?_)
              · rintro ⟨a, ha, hw⟩
                exact ⟨a, by omega, hw⟩
              · exact Deed.ended_append.2 (Or.inr (Deed.ended_append.2 (Or.inr
                  (Deed.ended_append.2 (Or.inr h)))))
            · cases he
              exact Or.inr (Or.inl ⟨attempt, by omega, h₅.awaitRetry_passes.2 _ rfl⟩)
            · cases he
        · cases he
          exact Or.inl (h₃.wantsRetry_passes hplan hc.append.2)
        · cases he
    · obtain ⟨y, hy, -⟩ := h₁.tryTarget_passes hplan hc
      cases hy
    · cases he

end Account

/-! ## Tasks -/

namespace Deed

/-- No unit of work is called in a list of deeds, not counting what goes on inside of them. -/
def Idle (ds : List Deed) : Prop := ∀ n c args inner e, Deed.ask n .work c args inner e ∉ ds

theorem Idle.append (h : Idle ds) (h' : Idle ds') : Idle (ds ++ ds') :=
  fun n c args inner e hd => (List.mem_append.1 hd).elim (h n c args inner e) (h' n c args inner e)

theorem idle_nil : Idle [] := fun _ _ _ _ _ hd => nomatch hd

theorem Idle.cons_remark {l : Remark} (h : Idle ds) : Idle (.remark n l :: ds) := by
  intro _ _ _ _ _ hd
  rcases List.mem_cons.1 hd with heq | hd
  · cases heq
  · exact h _ _ _ _ _ hd

theorem idle_ask {u : Use} {c : Ref .callable} {args : List Value} {inner : List Deed}
    {e : Ending Value} (hu : u ≠ .work) : Idle [.ask n u c args inner e] := by
  intro _ _ _ _ _ hd
  injection List.mem_singleton.1 hd with _ hu'
  exact hu hu'.symm

theorem Calls.idle {u : Use} {args : List Value} {cs : List (Ref .callable)}
    (h : Calls u args cs ds) (hu : u ≠ .work) : Idle ds := by
  intro n c as inner e hd
  obtain ⟨_, _, _, _, heq⟩ := h.mem hd
  injection heq with _ hu'
  exact hu hu'.symm

end Deed

namespace Visit

/-- How a task step that is done with its own work has told of its task: not at all if the unit of
work was not called, else of the start before the call and of the end or of the failure behind it. -/
inductive TaskTold (σ : Scene) : List Deed → Except Failure Value → Prop where
  | uncalled {ds : List Deed} {o : Except Failure Value} (hw : Deed.Idle ds)
    (hs : Deed.said ds = []) : TaskTold σ ds o
  | worked {pre post inner : List Deed} {m m' : Nat} {h : Ref .callable} {r : Ref .task}
    {input v : Value} {o : Except Failure Value} (hpre : Deed.Idle pre) (hpost : Deed.Idle post)
    (hstart : Deed.said pre = [.emits .taskStart [.task r, input, .context σ.context]])
    (hend : Deed.said post = [.emits .taskEnd [.task r, input, .context σ.context, v]])
    (ho : ∀ w, o = .ok w → w = v) :
    TaskTold σ (pre ++ .ask m .work h [input, .context σ.context] inner (some (m', .ok v)) :: post) o
  | broke {pre post inner : List Deed} {m m' : Nat} {h : Ref .callable} {r : Ref .task}
    {input : Value} {f : Failure} (hpre : Deed.Idle pre) (hpost : Deed.Idle post)
    (hstart : Deed.said pre = [.emits .taskStart [.task r, input, .context σ.context]])
    (hend : Deed.said post =
      [.emits .taskError [.task r, input, .context σ.context, .failure f]]) :
    TaskTold σ (pre ++ .ask m .work h [input, .context σ.context] inner (some (m', .error f)) :: post)
      (.error f)

/-- What comes before and does not tell anything changes nothing. -/
theorem TaskTold.before {σ : Scene} {o : Except Failure Value} (h : TaskTold σ ds o)
    (hw : Deed.Idle ds') (hs : Deed.said ds' = []) : TaskTold σ (ds' ++ ds) o := by
  cases h with
  | uncalled hw' hs' => exact .uncalled (hw.append hw') (by simp [hs, hs'])
  | worked hpre hpost hstart hend ho =>
    rw [← List.append_assoc]
    exact .worked (hw.append hpre) hpost (by simp [hs, hstart]) hend ho
  | broke hpre hpost hstart hend =>
    rw [← List.append_assoc]
    exact .broke (hw.append hpre) hpost (by simp [hs, hstart]) hend

end Visit

namespace Account

variable {σ : Scene}

theorem task_outline {r : Ref .task} {input : Value} {o : Except Failure Value}
    (h : Account R run plan N b n (.now (Task.outline r input (.context σ.context))) ds
      (some (t, o))) (hplan : ∀ p, (plan p).Tame) (hc : Deed.Calm ds)
    (hs : Deed.Sound Use.IsHook ds) : Visit.TaskTold σ ds o := by
  rcases h.bind with ⟨ds₁, m, u, ds₂, h₁, h₂, rfl⟩ | ⟨m, f, h₁, he⟩ | ⟨-, he⟩
  · obtain ⟨asks, rfl, hsaid, he | ⟨t', -, he, hcalls⟩⟩ := h₁.emission_sound hs.append.1.hook
    · cases he
    rcases h₂.straight_bind (Routine.eval_read _ _) with ⟨-, he⟩ | ⟨-, h₃⟩
    · cases he
    have hpre := (hcalls.idle (by simp)).cons_remark (n := n)
      (l := .emits .taskStart [.task r, input, .context σ.context])
    have hstart : Deed.said (.remark n (.emits .taskStart [.task r, input, .context σ.context]) ::
        asks) = [.emits .taskStart [.task r, input, .context σ.context]] := by
      rw [Deed.said_remark, hsaid]
    rcases h₃.attempt_calm hplan (Outline.tame_call _ _ _) hc.append.2 with
      ⟨ds₃, m', x, ds₄, h₄, -, h₅, rfl⟩ | ⟨-, he⟩
    · obtain ⟨inner, rfl, -⟩ := h₄.called
      have hs₅ := hs.append.2.append.2
      cases x with
      | ok v =>
        rcases h₅.bind with ⟨ds₅, m'', u, ds₆, h₆, h₇, rfl⟩ | ⟨m'', f, h₆, he⟩ | ⟨-, he⟩
        · obtain ⟨asks', rfl, hsaid', he | ⟨t'', -, he, hcalls'⟩⟩ :=
            h₆.emission_sound hs₅.append.1.hook
          · cases he
          obtain ⟨rfl, he⟩ := h₇.done_iff
          cases he
          rw [List.append_nil]
          have hend : Deed.said (.remark m' (.emits .taskEnd
              [.task r, input, .context σ.context, v]) :: asks') =
              [.emits .taskEnd [.task r, input, .context σ.context, v]] := by
            rw [Deed.said_remark, hsaid']
          exact .worked hpre (hcalls'.idle (by simp)).cons_remark hstart hend
            fun w hw => (Except.ok.inj hw).symm
        · obtain ⟨_, -, -, he' | ⟨_, -, he', -⟩⟩ := h₆.emission_sound hs₅.hook <;> cases he'
        · cases he
      | error f =>
        rcases h₅.bind with ⟨ds₅, m'', u, ds₆, h₆, h₇, rfl⟩ | ⟨m'', g, h₆, he⟩ | ⟨-, he⟩
        · obtain ⟨asks', rfl, hsaid', he | ⟨t'', -, he, hcalls'⟩⟩ :=
            h₆.emission_sound hs₅.append.1.hook
          · cases he
          obtain ⟨rfl, he⟩ := h₇.fail_iff
          cases he
          rw [List.append_nil]
          have hend : Deed.said (.remark m' (.emits .taskError
              [.task r, input, .context σ.context, .failure f]) :: asks') =
              [.emits .taskError [.task r, input, .context σ.context, .failure f]] := by
            rw [Deed.said_remark, hsaid']
          exact .broke hpre (hcalls'.idle (by simp)).cons_remark hstart hend
        · obtain ⟨_, -, -, he' | ⟨_, -, he', -⟩⟩ := h₆.emission_sound hs₅.hook <;> cases he'
        · cases he
    · cases he
  · obtain ⟨_, -, -, he' | ⟨_, -, he', -⟩⟩ := h₁.emission_sound hs.hook <;> cases he'
  · cases he

theorem plain_idle {r : Routine α} {e : Ending α}
    (h : Account R run plan N b n (.now (plain r)) ds e) : Deed.Idle ds ∧ Deed.said ds = [] := by
  refine ⟨fun n c args inner e hd => ?_, h.silent_plain.said⟩
  obtain ⟨_, _, _, _, _, heq⟩ | ⟨_, _, _, _, heq⟩ := h.silent_plain _ hd <;> cases heq

theorem called_idle {u : Use} {c : Ref .callable} {args : List Value} {e : Ending Value}
    (h : Account R run plan N b n (.now (.call u c args)) ds e) (hu : u ≠ .work) :
    Deed.Idle ds ∧ Deed.said ds = [] := by
  obtain ⟨inner, rfl, -⟩ := h.called
  exact ⟨Deed.idle_ask hu, rfl⟩

/-- Two pieces of which neither tells anything. -/
theorem bind_idle {x : Outline α} {g : α → Outline β} {e : Ending β}
    (h : Account R run plan N b n (.now (x >>= g)) ds e)
    (hx : ∀ {ds e}, Account R run plan N b n (.now x) ds e → Deed.Idle ds ∧ Deed.said ds = [])
    (hg : ∀ {a n ds e}, Account R run plan N b n (.now (g a)) ds e →
      Deed.Idle ds ∧ Deed.said ds = []) : Deed.Idle ds ∧ Deed.said ds = [] := by
  rcases h.bind with ⟨ds₁, m, a, ds₂, h₁, h₂, rfl⟩ | ⟨m, f, h₁, -⟩ | ⟨h₁, -⟩
  · exact ⟨(hx h₁).1.append (hg h₂).1, by rw [Deed.said_append, (hx h₁).2, (hg h₂).2]; rfl⟩
  · exact hx h₁
  · exact hx h₁

theorem sources_idle : ∀ {m : Entries Source} {n : Nat} {ds : List Deed}
    {e : Ending (Entries Value)}, Account R σ.call plan N b n (.now (sources σ m)) ds e →
    Deed.Idle ds ∧ Deed.said ds = []
  | [], n, ds, e, h => by
    obtain ⟨rfl, -⟩ := h.done_iff
    exact ⟨Deed.idle_nil, rfl⟩
  | (key, x) :: more, n, ds, e, h => by
    refine h.bind_idle (fun h => ?_) fun h => h.bind_idle sources_idle fun h => ?_
    · cases x with
      | call c => exact h.called_idle (by simp)
      | text t => exact h.plain_idle
    · obtain ⟨rfl, -⟩ := h.done_iff
      exact ⟨Deed.idle_nil, rfl⟩

theorem inputOf_idle {t : TaskStep} {e : Ending Value}
    (h : Account R σ.call plan N b n (.now (inputOf σ t)) ds e) :
    Deed.Idle ds ∧ Deed.said ds = [] := by
  unfold inputOf at h
  split at h
  · exact h.plain_idle
  · exact h.bind_idle sources_idle plain_idle

theorem runTask_told {s : TaskStep} {r : Ref .task} {o : Except Failure Value}
    (h : Account R σ.call plan N b n (.now (runTask σ s r)) ds (some (t, o)))
    (hplan : ∀ p, (plan p).Tame) (hc : Deed.Calm ds) (hs : Deed.Sound Use.IsHook ds) :
    Visit.TaskTold σ ds o := by
  rcases h.bind with ⟨ds₁, m, input, ds₂, h₁, h₂, rfl⟩ | ⟨m, f, h₁, he⟩ | ⟨-, he⟩
  · obtain ⟨hw, hsaid⟩ := h₁.inputOf_idle
    refine Visit.TaskTold.before ?_ hw hsaid
    rcases h₂.bind with ⟨ds₃, m', v, ds₄, h₃, h₄, rfl⟩ | ⟨m', f, h₃, he⟩ | ⟨-, he⟩
    · have htold := h₃.task_outline hplan hc.append.2.append.1 hs.append.2.append.1
      -- Behind the task only its result is put into the output.
      have hrest : Deed.Idle ds₄ ∧ Deed.said ds₄ = [] ∧ ∀ w, o = .ok w → w = v := by
        rcases h₄.bind with ⟨ds₅, m'', u, ds₆, h₅, h₆, rfl⟩ | ⟨m'', f, h₅, he⟩ | ⟨-, he⟩
        · obtain ⟨rfl, he⟩ := h₆.done_iff
          cases he
          rw [List.append_nil]
          exact ⟨h₅.plain_idle.1, h₅.plain_idle.2, fun w hw => (Except.ok.inj hw).symm⟩
        · cases he
          exact ⟨h₅.plain_idle.1, h₅.plain_idle.2, nofun⟩
        · cases he
      obtain ⟨hw', hsaid', ho⟩ := hrest
      generalize hx : (Except.ok v : Except Failure Value) = x at htold
      cases htold with
      | uncalled hw₁ hs₁ => exact .uncalled (hw₁.append hw') (by simp [hs₁, hsaid'])
      | @worked pre post _ _ _ _ _ _ v' _ hpre hpost hstart hend ho' =>
        subst hx
        cases ho' v rfl
        rw [List.append_assoc, List.cons_append]
        exact .worked hpre (hpost.append hw') hstart (by simp [hend, hsaid']) ho
      | broke => cases hx
    · cases he
      exact h₃.task_outline hplan hc.append.2 hs.append.2
    · cases he
  · obtain ⟨hw, hsaid⟩ := h₁.inputOf_idle
    exact .uncalled hw hsaid
  · cases he

/-- **A task step tells of its task** if and only if it calls the unit of work. -/
theorem task_told {step : String} {s : TaskStep} {o : Except Failure Value}
    (h : Account R σ.call plan N b n (.now (task σ step s)) ds (some (t, o)))
    (hplan : ∀ p, (plan p).Tame) (hc : Deed.Calm ds) (hs : Deed.Sound Use.IsHook ds) :
    Visit.TaskTold σ ds o := by
  rcases h.bind with ⟨ds₁, m, r, ds₂, h₁, h₂, rfl⟩ | ⟨m, f, h₁, he⟩ | ⟨-, he⟩
  · refine Visit.TaskTold.before ?_ h₁.plain_idle.1 h₁.plain_idle.2
    have hc₂ := hc.append.2
    have hs₂ := hs.append.2
    cases hcond : s.condition with
    | none =>
      rw [hcond] at h₂
      exact h₂.runTask_told hplan hc₂ hs₂
    | some c =>
      rw [hcond] at h₂
      rcases h₂.bind with ⟨ds₃, m', x, ds₄, h₃, h₄, rfl⟩ | ⟨m', f, h₃, he⟩ | ⟨-, he⟩
      · obtain ⟨⟨inner, e, rfl⟩, -⟩ := h₃.holds_passes hplan hc₂.append.1
        refine Visit.TaskTold.before ?_ (Deed.idle_ask (by simp)) rfl
        cases x with
        | true => exact h₄.runTask_told hplan hc₂.append.2 hs₂.append.2
        | false =>
          rcases h₄.straight_bind (Routine.eval_alter _ _) with ⟨-, he⟩ | ⟨-, h₅⟩
          · cases he
          · obtain ⟨rfl, -⟩ := h₅.done_iff
            exact .uncalled Deed.idle_nil rfl
      · obtain ⟨⟨inner, e, rfl⟩, -⟩ := h₃.holds_passes hplan hc₂
        exact .uncalled (Deed.idle_ask (by simp)) rfl
      · cases he
  · exact .uncalled h₁.plain_idle.1 h₁.plain_idle.2
  · cases he

end Account

/-! ## All variants -/

namespace Visit

/-- A failure that leaves a step's own work has come out of a part that the step has waited for, or
the step has raised it itself. The failures of a task are its own. -/
def Passes (R : Run body) (σ : Scene) (step : Step) (n : Nat) (ds : List Deed) (f : Failure) :
    Prop :=
  match step.kind with
  | .task _ => True
  | .parallel branches _ => ∃ s ∈ branches, Deed.Ended ds (.visit s σ.workflow σ.context) (.error f)
  | .condition _ trueNext falseNext =>
    (∃ reason, f.cause = .predicateFailed step.id reason) ∨
      ∃ s, (s = trueNext ∨ s = falseNext) ∧
        Deed.Ended ds (.visit s σ.workflow σ.context) (.error f)
  | .map items iterator _ => σ.itemsOf items (R.store n) = .error f.cause ∨
      ∃ c, Deed.Ended ds (.visit iterator σ.workflow c) (.error f)
  | .retry r => (∃ reason, f.cause = .retryPredicateFailed step.id reason) ∨
      (∃ a < r.maxRetries.toNat, σ.WaitFails r a f.cause) ∨
        Deed.Ended ds (.visit r.target σ.workflow σ.context) (.error f)
  | .unknown name => f.cause = .unknownStepKind name

/-- Whether a step waits for all of its parts to return. -/
def NeedsAll (step : Step) : Prop :=
  match step.kind with
  | .parallel _ waitForAll => waitForAll = true
  | .condition .. | .map .. => True
  | .task _ | .retry _ | .unknown _ => False

end Visit

namespace Account

variable {σ : Scene} {step : Step}

/-- **A failure passes through a step as it is.** -/
theorem dispatch_passes {f : Failure}
    (h : Account R σ.call plan N b n (.now (dispatch σ step)) ds (some (t, .error f)))
    (hplan : ∀ p, (plan p).Tame) (hc : Deed.Calm ds) : Visit.Passes R σ step n ds f := by
  unfold Visit.Passes
  unfold dispatch at h
  split
  · trivial
  · next branches waitForAll hk =>
    rw [hk] at h
    dsimp only [Scene.parallel] at h
    split at h
    · exact h.gather_passes.1 f rfl
    · split at h
      · cases h.done_iff.2
      · obtain ⟨p, hp, hend⟩ := h.first_passes
        obtain ⟨s, hs, rfl⟩ := List.mem_map.1 hp
        exact ⟨s, hs, hend⟩
  · next hk =>
    rw [hk] at h
    exact (h.choose_passes hplan hc).1 f rfl
  · next hk =>
    rw [hk] at h
    exact h.map_passes.1 f rfl
  · next r hk =>
    rw [hk] at h
    have hpass := h.retryFrom_passes hplan hc
    rwa [Nat.zero_add] at hpass
  · next name hk =>
    rw [hk] at h
    obtain ⟨-, he | ⟨he, -⟩⟩ := h.straight (Routine.eval_raise _ _) <;> cases he
    rfl

/-- **A step that waits for all of its parts** only returns if none of them has failed. -/
theorem dispatch_clears {v : Value}
    (h : Account R σ.call plan N b n (.now (dispatch σ step)) ds (some (t, .ok v)))
    (hplan : ∀ p, (plan p).Tame) (hc : Deed.Calm ds) (hall : Visit.NeedsAll step) (p : Procedure)
    (f : Failure) : ¬Deed.Ended ds p (.error f) := by
  unfold Visit.NeedsAll at hall
  unfold dispatch at h
  split at hall
  · next hk =>
    rw [hk] at h
    dsimp only [Scene.parallel] at h
    rw [if_pos hall] at h
    exact h.gather_passes.2 v rfl p f
  · next hk =>
    rw [hk] at h
    exact (h.choose_passes hplan hc).2 v rfl p f
  · next hk =>
    rw [hk] at h
    exact h.map_passes.2 v rfl p f
  · exact hall.elim
  · exact hall.elim
  · exact hall.elim

end Account

end Conductor
