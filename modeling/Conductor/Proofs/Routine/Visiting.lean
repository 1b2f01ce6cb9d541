import Conductor.Proofs.Routine.Terms
import Conductor.Setup

/-!
# The terms of a visit

A visit writes in few ways: it moves its context to the step, records the result, notes failures,
fills the output, forks its context for the items of a map step, copies its workflow with one retry
less, and beside that puts new lists and dictionaries into the store and logs. It waits for the
steps that its own step refers to, in its own context or in one that it has forked, and for itself
in the workflow with one retry less.

`Scene.Grants` lists all this for the visit of one step, together with a property of values that
user code gives and that is handed on from there: only such values are recorded and put into the
output.

**Theorem (`Scene.visit_meets`).** A visit keeps to all terms that grant this, and gives a value with
the property.
-/

namespace Conductor

/-- The ids that a step refers to. -/
def Step.references (step : Step) : List String :=
  (match step.kind with
    | .task _ | .unknown _ => []
    | .parallel branches _ => branches
    | .condition _ trueNext falseNext => [trueNext, falseNext]
    | .map _ iterator _ => [iterator]
    | .retry r => [r.target]) ++
  match step.next with
    | .none => []
    | .one next => [next]
    | .fan steps => steps

/-- What every part of a run does from a store on, beside its proper work; and what is known of the
values that user code gives. -/
structure Terms.Usual (T : Terms) (Good : Value → Store → Prop) (call : Handlers) (s₀ : Store) :
    Prop where
  same : ∀ {s}, T.rely s₀ s → T.writes s s
  raise : ∀ {s}, T.rely s₀ s → T.writes s { s with nextFailure := s.nextFailure + 1 }
  log : ∀ {s}, T.rely s₀ s → ∀ level logger message extras,
    T.writes s (s.write (.log level logger message extras))
  dict : ∀ {s}, T.rely s₀ s → ∀ es, T.writes s (s.newDict es).2
  list : ∀ {s}, T.rely s₀ s → ∀ vs, (∀ v ∈ vs, Good v s) →
    T.writes s (s.newList vs).2 ∧ Good (s.newList vs).1 (s.newList vs).2
  null : ∀ {s}, T.rely s₀ s → Good .null s
  lasting : ∀ {v s t}, T.rely s₀ s → Good v s → T.rely s t → Good v t
  user : ∀ {s}, T.rely s₀ s → ∀ c vs, (call c vs).Meets T (OnOk Good) s

namespace Terms.Usual

open Routine

variable {T : Terms} {Good : Value → Store → Prop} {call : Handlers} {s₀ s : Store} {α β : Type}
  (h : T.Usual Good call s₀) (hs : T.rely s₀ s)
include h hs

theorem meets_raise (c : Cause) {P : α → Store → Prop} :
    (Routine.raise c : Routine α).Meets T (OnOk P) s := ⟨h.raise hs, trivial⟩

/-- Behind a query the store is still the one that was asked. -/
theorem meets_ofExcept {x : Except Cause α} {P : α → Store → Prop} (hP : ∀ a, x = .ok a → P a s) :
    (ofExcept x).Meets T (OnOk P) s := by
  cases x with
  | ok a => exact hP a rfl
  | error c => exact h.meets_raise hs c

theorem meets_query {f : Store → Except Cause α} {P : α → Store → Prop}
    (hP : ∀ a, f s = .ok a → P a s) : (query f).Meets T (OnOk P) s := h.meets_ofExcept hs hP

theorem meets_query_bind {f : Store → Except Cause α} {g : α → Routine β} {P : β → Store → Prop}
    (hg : ∀ a, f s = .ok a → (g a).Meets T (OnOk P) s) :
    ((query f).bind g).Meets T (OnOk P) s := by
  show ((ofExcept (f s)).bind g).Meets T (OnOk P) s
  cases hf : f s with
  | ok a => exact hg a hf
  | error c => exact ⟨h.raise hs, trivial⟩

theorem meets_log (level : LogLevel) (logger message : String) (extras : List (String × Datum)) :
    (Routine.log level logger message extras).Meets T (OnOk fun _ _ => True) s :=
  meets_alter (h.log hs _ _ _ _) trivial

/-- Hooks and the like are called for what they do, not for what they give. -/
theorem meets_tell (args : List Value) (callables : List (Ref .callable)) :
    (each (fun c => (call c args).bind fun _ => .done ()) callables).Meets T
      (OnOk fun _ _ => True) s :=
  meets_each fun c _ _ ht => (h.user (T.trans hs ht) c args).bind fun _ _ _ _ => trivial

theorem meets_emit (name : HookName) (args : List Value) :
    (name.emit call args).Meets T (OnOk fun _ _ => True) s := by
  refine (meets_read (f := fun s => s.hooks.under name) (P := fun _ _ => True) trivial).bind
    fun hooks t ht _ => ?_
  split
  · trivial
  · exact (h.meets_log (T.trans hs ht) _ _ _ _).bind fun _ u hu _ =>
      h.meets_tell (T.trans hs (T.trans ht hu)) args hooks

/-- A task gives what its handler gives. -/
theorem meets_execute_of {P : Value → Store → Prop} {r : Ref .task}
    (hhandler : ∀ {t}, T.rely s t → ∀ vs, (call (t.get r).handler vs).Meets T (OnOk P) t)
    (hlasting : ∀ {v t u}, T.rely s t → P v t → T.rely t u → P v u) (input context : Value) :
    (Task.execute call r input context).Meets T (OnOk P) s := by
  refine (h.meets_emit hs _ _).bind fun _ t ht _ => ?_
  show ((call (t.get r).handler _).attempt.bind _).Meets T _ t
  refine (hhandler ht _).attempt_bind fun o u hu ho => ?_
  have hu := T.trans ht hu
  cases o with
  | ok a => exact (h.meets_emit (T.trans hs hu) _ _).bind fun _ _ hv _ => hlasting hu ho hv
  | error f => exact (h.meets_emit (T.trans hs hu) _ _).bind fun _ _ _ _ => trivial

theorem meets_execute (r : Ref .task) (input context : Value) :
    (Task.execute call r input context).Meets T (OnOk Good) s :=
  h.meets_execute_of hs (fun ht vs => h.user (T.trans hs ht) _ vs)
    (fun ht hv hu => h.lasting (T.trans hs ht) hv hu) input context

end Terms.Usual

namespace Visit.Scene

open Routine

/-- The workflow in which a task step is run again, and the store that holds it. -/
def lowered (σ : Scene) (step : Step) (t : TaskStep) (s : Store) : Ref .workflow × Store :=
  s.alloc ((s.get σ.workflow).withStep (fewer step t))

/-- What a visit of a step does from a store on, beside the own work of its step. -/
structure Frames (σ : Scene) (T : Terms) (Good : Value → Store → Prop) (s₀ : Store) (id : String) :
    Prop extends T.Usual Good σ.call s₀ where
  enter : ∀ {s}, T.rely s₀ s → T.writes s (s.enter σ.context id)
  noteError : ∀ {s}, T.rely s₀ s → ∀ f, T.writes s (s.noteError σ.context id f)
  sleep : ∀ {s x}, T.rely s₀ s → T.asks (.sleep x) s

/-- What a visit of a step does from a store on, before the step is perhaps run again. -/
structure Grants (σ : Scene) (T : Terms) (Good : Value → Store → Prop) (s₀ : Store) (id : String)
    (step : Step) : Prop extends σ.Frames T Good s₀ id where
  record : ∀ {s v}, T.rely s₀ s → Good v s → T.writes s (s.record σ.context id v)
  noteAttempt : ∀ {s}, T.rely s₀ s → ∀ r, step.kind = .retry r → ∀ (attempt : Nat) f,
    let target := r.target
    T.writes s (s.noteError σ.context s!"{target}_attempt_{attempt}" f)
  merge : ∀ {s v es}, T.rely s₀ s → Good v s → s.mapping? v = some es →
    T.writes s (s.insertAll (s.get σ.context).output es)
  path : ∀ {s t v key x path}, T.rely s₀ s → Good v s → s.lookup v key = .ok x →
    s.setPath (s.get σ.context).output path x = .ok t → T.writes s t
  fork : ∀ {s}, T.rely s₀ s → ∀ items iterator concurrency,
    step.kind = .map items iterator concurrency → ∀ batch,
    T.writes s (s.forkAll σ.context batch).2 ∧
      T.asks (.all ((s.forkAll σ.context batch).1.map fun c => .visit iterator σ.workflow c))
        (s.forkAll σ.context batch).2
  /-- Steps of the same workflow and context are waited for if the step refers to them. -/
  asks : ∀ {s w}, T.rely s₀ s → w ≠ .detached →
    (∀ p ∈ w.procedures, ∃ x ∈ step.references, p = .visit x σ.workflow σ.context) → T.asks w s
  answers : ∀ {s w vs}, T.rely s₀ s → T.answers w (.ok vs) s → ∀ v ∈ vs, Good v s

namespace Frames

variable {σ : Scene} {T : Terms} {Good : Value → Store → Prop} {s₀ s : Store} {id : String}
  (h : σ.Frames T Good s₀ id) (hs : T.rely s₀ s)
include h hs

theorem meets_holds (condition : Ref .callable) (step : String) :
    (σ.holds condition step).Meets T (OnOk fun _ _ => True) s := by
  refine (h.user hs condition _).attempt_bind fun o t ht _ => ?_
  cases o with
  | ok v => trivial
  | error f => exact h.meets_raise (T.trans hs ht) _

theorem meets_source (x : Source) : (σ.source x).Meets T (OnOk fun _ _ => True) s := by
  cases x with
  | call c => exact (h.user hs c _).mono fun o _ _ _ => by cases o <;> trivial
  | text t => exact h.meets_query hs fun _ _ => trivial

omit hs in
theorem meets_sources : ∀ (m : Entries Source) {s : Store}, T.rely s₀ s →
    (σ.sources m).Meets T (OnOk fun _ _ => True) s
  | [], _, _ => trivial
  | (_, x) :: rest, _, hs => (h.meets_source hs x).bind fun _ _ ht _ =>
      (meets_sources rest (T.trans hs ht)).bind fun _ _ _ _ => trivial

theorem meets_inputOf (t : TaskStep) :
    (σ.inputOf t).Meets T (OnOk fun _ _ => True) s := by
  unfold inputOf
  split
  · trivial
  · exact (h.meets_sources _ hs).bind fun vs u hu _ =>
      meets_modifyGet (h.dict (T.trans hs hu) vs) trivial

theorem meets_pause (n : Number) : (pause n).Meets T (OnOk fun _ _ => True) s := by
  unfold pause
  split
  · refine (h.meets_ofExcept (P := fun _ t => t = s) hs fun _ _ => rfl).bind fun x t ht heq => ?_
    refine ⟨h.sleep (T.trans hs ht), fun o u _ _ => ?_⟩
    cases o <;> trivial
  · trivial

theorem meets_wantsRetry (step : String) (r : RetryStep) (f : Failure) (attempt : Nat) :
    (σ.wantsRetry step r f attempt).Meets T (OnOk fun _ _ => True) s := by
  unfold wantsRetry
  split
  · trivial
  · refine (h.user hs _ _).attempt_bind fun o t ht _ => ?_
    cases o with
    | ok v => trivial
    | error g => exact h.meets_raise (T.trans hs ht) _

theorem meets_awaitRetry (step : String) (r : RetryStep) (attempt : Nat) :
    (σ.awaitRetry step r attempt).Meets T (OnOk fun _ _ => True) s := by
  refine (h.meets_ofExcept (P := fun _ _ => True) hs fun _ _ => trivial).bind fun wait t ht _ => ?_
  have ht := T.trans hs ht
  refine (h.meets_ofExcept (P := fun _ _ => True) ht fun _ _ => trivial).bind fun shown u hu _ => ?_
  have hu := T.trans ht hu
  refine (meets_read (f := fun s => (s.get σ.workflow).id) (P := fun _ _ => True) trivial).bind
    fun workflow v hv _ => ?_
  have hv := T.trans hu hv
  exact (h.meets_log hv _ _ _ _).bind fun _ w hw _ => h.meets_pause (T.trans hv hw) wait

/-- The step may be run again with one retry less. -/
theorem meets_regroup {P : Ref .workflow → Store → Prop} {step : Step}
    (hlower : ∀ t, step.kind = .task t → 0 < t.retries → ∀ {u}, T.rely s₀ u →
      T.writes u (σ.lowered step t u).2 ∧ P (σ.lowered step t u).1 (σ.lowered step t u).2)
    (workflow : String) (f : Failure) :
    (σ.regroup workflow id step f).Meets T (OnOk P) s := by
  refine (meets_alter (P := fun _ _ => True) (h.noteError hs f) trivial).bind fun _ s₁ h₁ _ => ?_
  have h₁ := T.trans hs h₁
  refine (h.meets_emit h₁ _ _).bind fun _ s₂ h₂ _ => ?_
  have h₂ := T.trans h₁ h₂
  have giveUp : ∀ m : String, ((Routine.log .debug logger m (extras workflow id step)).bind fun _ =>
      (.fail f : Routine (Ref .workflow))).Meets T (OnOk P) s₂ :=
    fun m => (h.meets_log h₂ _ _ _ _).bind fun _ _ _ _ => trivial
  cases hk : step.kind with
  | task t =>
    dsimp only
    split
    · next hpos =>
      refine (h.meets_log h₂ _ _ _ _).bind fun _ s₃ h₃ _ => ?_
      have h₃ := T.trans h₂ h₃
      refine (h.meets_pause h₃ _).bind fun _ s₄ h₄ _ => ?_
      obtain ⟨hw, ha⟩ := hlower t hk hpos (T.trans h₃ h₄)
      exact meets_modifyGet hw ha
    · exact giveUp _
  | _ => exact giveUp _

end Frames

namespace Grants

variable {σ : Scene} {T : Terms} {Good : Value → Store → Prop} {s₀ s : Store} {id : String}
  {step : Step} (h : σ.Grants T Good s₀ id step) (hs : T.rely s₀ s)
include h hs

/-! ## Tasks -/

theorem meets_writeOutput {result : Value} (hg : Good result s) (key path : String) :
    (σ.writeOutput result key path).Meets T (OnOk fun _ _ => True) s :=
  h.meets_query_bind hs fun _ hv => h.meets_query_bind hs fun _ ht =>
    ⟨h.path hs hg hv ht, trivial⟩

theorem meets_applyOutput (t : TaskStep) {result : Value} (hg : Good result s) :
    (σ.applyOutput t result).Meets T (OnOk fun _ _ => True) s := by
  unfold applyOutput
  split
  · refine meets_alter ?_ trivial
    split
    · next hm => exact h.merge hs hg hm
    · exact h.same hs
  · exact meets_each fun e _ u hu =>
      h.meets_writeOutput (T.trans hs hu) (h.lasting hs hg hu) e.1 e.2

theorem meets_runTask (t : TaskStep) (r : Ref .task) :
    (σ.runTask t r).Meets T (OnOk Good) s := by
  refine (h.meets_inputOf hs t).bind fun input u hu _ => ?_
  have hu := T.trans hs hu
  refine (h.meets_execute hu r input _).bind fun result v hv hg => ?_
  have hv := T.trans hu hv
  exact (h.meets_applyOutput hv t hg).bind fun _ w hw _ => h.lasting hv hg hw

theorem meets_task (t : TaskStep) : (σ.task step.id t).Meets T (OnOk Good) s := by
  refine h.meets_query_bind hs fun r _ => ?_
  split
  · exact h.meets_runTask hs t r
  · refine (h.meets_holds hs _ _).bind fun b v hv _ => ?_
    have hv := T.trans hs hv
    cases b with
    | true => exact h.meets_runTask hv t r
    | false => exact (h.meets_log hv _ _ _ _).bind fun _ u hu _ => h.null (T.trans hv hu)

/-! ## Waiting for other steps -/

omit h hs in
theorem good_headD {vs : List Value} (hnull : Good .null s) (hvs : ∀ v ∈ vs, Good v s) :
    Good (vs.headD .null) s := by
  cases vs with
  | nil => exact hnull
  | cons v vs => exact hvs v List.mem_cons_self

/-- A wait for one result. -/
theorem meets_single {w : Wait} (hw : T.asks w s) :
    (Routine.await w Routine.single).Meets T (OnOk Good) s := by
  refine ⟨hw, fun o t ht ho => ?_⟩
  have ht := T.trans hs ht
  cases o with
  | ok vs => exact good_headD (h.null ht) (h.answers ht ho)
  | error f => trivial

theorem meets_go {next : String} (hn : next ∈ step.references) :
    (σ.go next).Meets T (OnOk Good) s := by
  refine h.meets_single hs (h.asks hs nofun fun p hp => ?_)
  exact ⟨next, hn, List.mem_singleton.1 hp⟩

omit h hs in
theorem side_references {steps : List String} (hn : ∀ x ∈ steps, x ∈ step.references) :
    ∀ p ∈ σ.side steps, ∃ x ∈ step.references, p = .visit x σ.workflow σ.context := by
  intro p hp
  obtain ⟨x, hx, rfl⟩ := List.mem_map.1 hp
  exact ⟨x, hn x hx, rfl⟩

theorem meets_all {ps : List Procedure} (hp : T.asks (.all ps) s) :
    (Routine.all ps).Meets T (OnOk fun vs t => ∀ v ∈ vs, Good v t) s := by
  refine ⟨hp, fun o t ht ho => ?_⟩
  cases o with
  | ok vs => exact h.answers (T.trans hs ht) ho
  | error f => trivial

theorem meets_gather {steps : List String} (hn : ∀ x ∈ steps, x ∈ step.references) :
    (σ.gather steps).Meets T (OnOk Good) s := by
  refine (h.meets_all hs (h.asks hs nofun (side_references hn))).bind fun vs t ht hvs => ?_
  obtain ⟨hw, hg⟩ := h.list (T.trans hs ht) vs hvs
  exact meets_modifyGet hw hg

theorem meets_parallel {branches : List String} {waitForAll : Bool}
    (hk : step.kind = .parallel branches waitForAll) :
    (σ.parallel branches waitForAll).Meets T (OnOk Good) s := by
  have hn : ∀ x ∈ branches, x ∈ step.references := fun x hx => by
    simp [Step.references, hk, hx]
  unfold parallel
  split
  · exact h.meets_gather hs hn
  · split
    · exact h.null hs
    · exact h.meets_single hs (h.asks hs nofun (side_references hn))

theorem meets_choose {predicate : Ref .callable} {trueNext falseNext : String}
    (hk : step.kind = .condition predicate trueNext falseNext) :
    (σ.choose step.id predicate trueNext falseNext).Meets T (OnOk Good) s := by
  refine (h.meets_holds hs _ _).bind fun chosen t ht _ => ?_
  have ht := T.trans hs ht
  refine (h.meets_log ht _ _ _ _).bind fun _ u hu _ => h.meets_go (T.trans ht hu) ?_
  cases chosen <;> simp [Step.references, hk]

/-! ## Maps -/

theorem meets_runBatch {items : Items} {iterator : String} {concurrency : Option Int}
    (hk : step.kind = .map items iterator concurrency) (batch : List Value) :
    (σ.runBatch iterator batch).Meets T (OnOk fun vs t => ∀ v ∈ vs, Good v t) s := by
  obtain ⟨hw, ha⟩ := h.fork hs _ _ _ hk batch
  exact ⟨hw, h.meets_all (T.trans hs (T.relied hw)) ha⟩

theorem meets_runBatches {items : Items} {iterator : String} {concurrency : Option Int}
    (hk : step.kind = .map items iterator concurrency) (batches : List (List Value)) :
    (σ.runBatches iterator batches).Meets T (OnOk fun vs t => ∀ v ∈ vs, Good v t) s := by
  induction batches generalizing s with
  | nil => exact meets_done fun v hv => absurd hv List.not_mem_nil
  | cons batch rest ih =>
    refine (h.meets_runBatch hs hk batch).bind fun vs t ht hvs => ?_
    have ht := T.trans hs ht
    refine (ih ht).bind fun ws u hu hws => meets_done fun v hv => ?_
    rcases List.mem_append.1 hv with hv | hv
    · exact h.lasting ht (hvs v hv) hu
    · exact hws v hv

theorem meets_map {items : Items} {iterator : String} {concurrency : Option Int}
    (hk : step.kind = .map items iterator concurrency) :
    (σ.map items iterator concurrency).Meets T (OnOk Good) s := by
  refine h.meets_query_bind hs fun vs _ => ?_
  refine (h.meets_runBatches hs hk _).bind fun results t ht hvs => ?_
  obtain ⟨hw, hg⟩ := h.list (T.trans hs ht) results hvs
  exact meets_modifyGet hw hg

/-! ## Retries -/

/-- A try of the target comes to an outcome in any case. -/
theorem meets_tryTarget {r : RetryStep} (hk : step.kind = .retry r) (attempt : Nat) :
    (σ.tryTarget r attempt).Meets T (OnOk fun o t => OnOk Good o t) s := by
  refine (h.meets_go hs (by simp [Step.references, hk])).attempt_bind fun o t ht ho => ?_
  have ht := T.trans hs ht
  cases o with
  | ok v => exact ho
  | error f => exact (meets_alter (P := fun _ _ => True) (h.noteAttempt ht r hk attempt f)
      trivial).bind fun _ _ _ _ => trivial

theorem meets_retryFrom {r : RetryStep} (hk : step.kind = .retry r) (remaining attempt : Nat) :
    (σ.retryFrom step.id r attempt remaining).Meets T (OnOk Good) s := by
  induction remaining generalizing attempt s with
  | zero => exact (h.meets_tryTarget hs hk attempt).bind fun o _ _ ho => meets_ofOutcome ho
  | succ remaining ih =>
    refine (h.meets_tryTarget hs hk attempt).bind fun o t ht ho => ?_
    have ht := T.trans hs ht
    cases o with
    | ok v => exact ho
    | error f =>
      refine (h.meets_wantsRetry ht step.id r f attempt).bind fun b u hu _ => ?_
      have hu := T.trans ht hu
      cases b with
      | true =>
        exact (h.meets_awaitRetry hu step.id r attempt).bind fun _ v hv _ => ih (T.trans hu hv) (attempt + 1)
      | false => trivial

/-! ## Visits -/

/-- What a step does, by its variant. -/
theorem meets_dispatch : (σ.dispatch step).Meets T (OnOk Good) s := by
  unfold dispatch
  split
  · exact h.meets_task hs _
  · next hk => exact h.meets_parallel hs hk
  · next hk => exact h.meets_choose hs hk
  · next hk => exact h.meets_map hs hk
  · next hk => exact h.meets_retryFrom hs hk _ _
  · exact h.meets_raise hs _

theorem meets_follow {result : Value} (hg : Good result s) :
    (σ.follow step.next result).Meets T (OnOk Good) s := by
  cases hn : step.next with
  | none => exact hg
  | one next => exact h.meets_go hs (by simp [Step.references, hn])
  | fan steps => exact h.meets_gather hs fun x hx => by simp [Step.references, hn, hx]

theorem meets_settle {result : Value} (hg : Good result s) :
    (σ.settle id step result).Meets T (OnOk Good) s := by
  refine (meets_alter (P := fun _ _ => True) (h.record hs hg) trivial).bind fun _ t ht _ => ?_
  have ht' := T.trans hs ht
  refine (h.meets_emit ht' _ _).bind fun _ u hu _ => h.meets_follow (T.trans ht' hu) ?_
  exact h.lasting hs hg (T.trans ht hu)

end Grants

section Visits

variable {σ : Scene} {T : Terms} {Good Done Final : Value → Store → Prop} {s : Store} {id : String}

/-- A visit keeps to the terms that grant what it does, if the own work of its step does and what
comes behind it. The copy of the workflow in which it runs its step again is made from the workflow
as it was in the beginning. -/
theorem visit_meets_of (hraise : T.writes s { s with nextFailure := s.nextFailure + 1 })
    (hframes : ∀ step, (s.get σ.workflow).step id = .ok step → σ.Frames T Good s id)
    (hdispatch : ∀ step, (s.get σ.workflow).step id = .ok step → ∀ {t}, T.rely s t →
      (σ.dispatch step).Meets T (OnOk Done) t)
    (hsettle : ∀ step, (s.get σ.workflow).step id = .ok step → ∀ {t v}, T.rely s t → Done v t →
      (σ.settle id step v).Meets T (OnOk Final) t)
    (hlower : ∀ step t, (s.get σ.workflow).step id = .ok step → step.kind = .task t →
      0 < t.retries → ∀ {u}, T.rely s u → T.writes u (σ.lowered step t u).2 ∧
        (Routine.call (.visit id (σ.lowered step t u).1 σ.context)).Meets T (OnOk Final)
          (σ.lowered step t u).2) :
    (σ.visit id).Meets T (OnOk Final) s := by
  show (Routine.bind (Routine.bind (.ofExcept ((s.get σ.workflow).step id)) _) _).Meets T _ s
  cases hstep : (s.get σ.workflow).step id with
  | error c => exact ⟨hraise, trivial⟩
  | ok step =>
    have h := hframes step hstep
    show (Routine.bind (Routine.bind (.alter fun s => s.enter σ.context id) _) _).Meets T _ s
    rw [Routine.bind_assoc]
    refine (meets_alter (P := fun _ _ => True) (h.enter (T.refl s)) trivial).bind fun _ s₁ h₁ _ => ?_
    show (Routine.bind (Routine.bind _ _) _).Meets T _ s₁
    rw [Routine.bind_assoc]
    refine (h.meets_emit h₁ _ _).bind fun _ s₂ h₂ _ => ?_
    have h₂ := T.trans h₁ h₂
    show (Routine.bind (Routine.bind _ _) _).Meets T _ s₂
    rw [Routine.bind_assoc]
    refine (h.meets_log h₂ _ _ _ _).bind fun _ s₃ h₃ _ => ?_
    have h₃ := T.trans h₂ h₃
    refine (hdispatch step hstep h₃).attempt_bind fun o s₄ h₄ ho => ?_
    have h₄ := T.trans h₃ h₄
    cases o with
    | ok v => exact hsettle step hstep h₄ ho
    | error f =>
      exact (h.meets_regroup (P := fun w t => (Routine.call (.visit id w σ.context)).Meets T
        (OnOk Final) t) h₄ (fun t => hlower step t hstep) _ f).bind fun _ _ _ hcall => hcall

/-- **A visit keeps to the terms that grant what it does.** -/
theorem visit_meets (hraise : T.writes s { s with nextFailure := s.nextFailure + 1 })
    (hgrants : ∀ step, (s.get σ.workflow).step id = .ok step → σ.Grants T Good s id step)
    (hlower : ∀ step t, (s.get σ.workflow).step id = .ok step → step.kind = .task t →
      0 < t.retries → ∀ {u}, T.rely s u → T.writes u (σ.lowered step t u).2 ∧
        T.asks (.call (.visit id (σ.lowered step t u).1 σ.context)) (σ.lowered step t u).2) :
    (σ.visit id).Meets T (OnOk Good) s := by
  refine visit_meets_of hraise (fun step hs => (hgrants step hs).toFrames)
    (fun step hs {_} ht => (hgrants step hs).meets_dispatch ht)
    (fun step hs {_ _} ht hv => (hgrants step hs).meets_settle ht hv) fun step t hs hk hpos u hu => ?_
  obtain ⟨hw, ha⟩ := hlower step t hs hk hpos hu
  exact ⟨hw, (hgrants step hs).meets_single (T.trans hu (T.relied hw)) ha⟩

end Visits

end Visit.Scene

end Conductor
