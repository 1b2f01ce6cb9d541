import Conductor.Proofs.Routine.Visiting
import Conductor.Workflow.Run

/-!
# What routines write and whom they call

A conduct says which changes of the store a routine may make at once, what may have happened to the
store when it goes on behind a wait, and which parts of the run it may call or start, and when. A
routine obeys the conduct if all of this holds on every way through it, whatever its waits come to.

Everything that a visit does goes through few writes: it moves its context to the step, records
results and failures, fills the output, puts new lists, dictionaries and contexts into the store,
copies its workflow with one retry less, and logs. A run of a workflow also opens and closes its
context. A conduct that permits these is obeyed by every visit and every run, as far as user code
obeys it.

**Theorem (`Scene.visit_obeys`).** A visit only writes what is permitted, if it may put a copy of its
workflow into the store in which its own step has one retry less.
-/

namespace Conductor

/-- What a routine may write and whom it may call, in a store that others change meanwhile. -/
structure Conduct where
  writes : Store → Store → Prop
  rely : Store → Store → Prop
  calls : Procedure → Store → Prop
  refl : ∀ s, rely s s
  trans : ∀ {s t u}, rely s t → rely t u → rely s u
  relied : ∀ {s t}, writes s t → rely s t

namespace Routine

variable {α β : Type} {C : Conduct} {s : Store}

/-- Every write of the routine, begun in a given store, is permitted, and so is every call. -/
def Obeys (C : Conduct) : Routine α → Store → Prop
  | .done _, _ => True
  | .fail _, _ => True
  | .get k, s => (k s).Obeys C s
  | .put t r, s => C.writes s t ∧ r.Obeys C t
  | .await w k, s => (∀ p ∈ w.procedures, C.calls p s) ∧ ∀ o t, C.rely s t → (k o).Obeys C t

theorem Obeys.mono {C' : Conduct} {r : Routine α} (hw : ∀ {s t}, C.writes s t → C'.writes s t)
    (hc : ∀ {p s}, C.calls p s → C'.calls p s) (hr : ∀ {s t}, C'.rely s t → C.rely s t)
    (h : r.Obeys C s) : r.Obeys C' s := by
  induction r generalizing s with
  | done a => trivial
  | fail f => trivial
  | get k ih => exact ih s h
  | put t r ih => exact ⟨hw h.1, ih h.2⟩
  | await w k ih => exact ⟨fun p hp => hc (h.1 p hp), fun o t ht => ih o (h.2 o t (hr ht))⟩

/-! ## Combining routines -/

/-- What follows a routine may rely on how the store has changed so far. -/
theorem Obeys.bind {r : Routine α} {g : α → Routine β} (hr : r.Obeys C s)
    (hg : ∀ a t, C.rely s t → (g a).Obeys C t) : (r.bind g).Obeys C s := by
  induction r generalizing s with
  | done a => exact hg a s (C.refl s)
  | fail f => trivial
  | get k ih => exact ih s hr hg
  | put t r ih => exact ⟨hr.1, ih hr.2 fun a u hu => hg a u (C.trans (C.relied hr.1) hu)⟩
  | await w k ih =>
    exact ⟨hr.1, fun o t ht => ih o (hr.2 o t ht) fun a u hu => hg a u (C.trans ht hu)⟩

theorem Obeys.attempt {r : Routine α} (hr : r.Obeys C s) : r.attempt.Obeys C s := by
  induction r generalizing s with
  | done a => trivial
  | fail f =>
    unfold Routine.attempt
    split <;> trivial
  | get k ih => exact ih s hr
  | put t r ih => exact ⟨hr.1, ih hr.2⟩
  | await w k ih => exact ⟨hr.1, fun o t ht => ih o (hr.2 o t ht)⟩

theorem Obeys.continueWith {r : Routine Value} {g : Outcome → Routine α} (hr : r.Obeys C s)
    (hg : ∀ o t, C.rely s t → (g o).Obeys C t) : (r.continueWith g).Obeys C s := by
  induction r generalizing s with
  | done v => exact hg _ s (C.refl s)
  | fail f => exact hg _ s (C.refl s)
  | get k ih => exact ih s hr hg
  | put t r ih => exact ⟨hr.1, ih hr.2 fun o u hu => hg o u (C.trans (C.relied hr.1) hu)⟩
  | await w k ih =>
    exact ⟨hr.1, fun o t ht => ih o (hr.2 o t ht) fun o' u hu => hg o' u (C.trans ht hu)⟩

theorem obeys_alter {f : Store → Store} (h : C.writes s (f s)) : (alter f).Obeys C s := ⟨h, trivial⟩

theorem obeys_modifyGet {f : Store → α × Store} (h : C.writes s (f s).2) :
    (modifyGet f).Obeys C s := ⟨h, trivial⟩

theorem obeys_single (o : Outcome) : (single o).Obeys C s := by cases o <;> trivial

theorem obeys_ofOutcome (o : Except Failure α) : (ofOutcome o).Obeys C s := by cases o <;> trivial

theorem obeys_call {p : Procedure} (h : C.calls p s) : (call p).Obeys C s :=
  ⟨by simpa [Wait.procedures] using h, fun o _ _ => obeys_single o⟩

theorem obeys_sleep (x : Binary64) : (sleep x).Obeys C s :=
  ⟨by simp [Wait.procedures], fun o _ _ => (obeys_ofOutcome o).bind fun _ _ _ => trivial⟩

theorem obeys_each {f : α → Routine Unit} (h : ∀ a t, C.rely s t → (f a).Obeys C t) :
    ∀ xs : List α, (each f xs).Obeys C s := by
  intro xs
  induction xs generalizing s with
  | nil => trivial
  | cons x xs ih => exact (h x s (C.refl s)).bind fun _ t ht => ih fun a u hu => h a u (C.trans ht hu)

end Routine

namespace Conduct

/-! ## What the interpreter writes -/

/-- A conduct that permits what happens in the course of a visit or a run. -/
structure Permits (C : Conduct) : Prop where
  same : ∀ s, C.writes s s
  raise : ∀ s, C.writes s { s with nextFailure := s.nextFailure + 1 }
  log : ∀ s level logger message extras, C.writes s (s.write (.log level logger message extras))
  enter : ∀ s c id, C.writes s (s.enter c id)
  record : ∀ s c id v, C.writes s (s.record c id v)
  noteError : ∀ s c name f, C.writes s (s.noteError c name f)
  merge : ∀ s (c : Ref .context) es, C.writes s (s.insertAll (s.get c).output es)
  path : ∀ {s} {c : Ref .context} {path v t}, s.setPath (s.get c).output path v = .ok t →
    C.writes s t
  list : ∀ s vs, C.writes s (s.newList vs).2
  dict : ∀ s es, C.writes s (s.newDict es).2
  fork : ∀ s c items, C.writes s (s.forkAll c items).2
  opened : ∀ s t input metadata moment, t = s ∨ t = (s.newDict []).2 →
    C.writes s (t.newContext input [] [] [] metadata none moment).2
  result : ∀ s (c : Ref .context) v,
    C.writes s (s.update c fun x : Context => { x with result := v })
  closed : ∀ s c moment, C.writes s (s.close c moment)
  failed : ∀ s c moment name f, C.writes s ((s.close c moment).noteError c name f)

/-- Everything may be written, but only certain parts may be called. -/
def calling (P : Procedure → Prop) : Conduct where
  writes _ _ := True
  rely _ _ := True
  calls p _ := P p
  refl _ := trivial
  trans _ _ := trivial
  relied _ := trivial

theorem permits_calling (P : Procedure → Prop) : (calling P).Permits := by
  constructor <;> intros <;> trivial

end Conduct

/-- User code that obeys a conduct wherever it is called. -/
def Handlers.Obey (call : Handlers) (C : Conduct) : Prop := ∀ c vs s, (call c vs).Obeys C s

section Calls

variable {C : Conduct} {s : Store} {α : Type}

theorem Routine.obeys_raise (hC : C.Permits) (c : Cause) : (raise c : Routine α).Obeys C s :=
  ⟨hC.raise s, trivial⟩

theorem Routine.obeys_ofExcept (hC : C.Permits) (x : Except Cause α) : (ofExcept x).Obeys C s := by
  cases x with
  | ok a => trivial
  | error c => exact obeys_raise hC c

theorem Routine.obeys_query (hC : C.Permits) (f : Store → Except Cause α) :
    (query f).Obeys C s := obeys_ofExcept hC (f s)

theorem Routine.obeys_log (hC : C.Permits) (level : LogLevel) (logger message : String)
    (extras : List (String × Datum)) : (log level logger message extras).Obeys C s :=
  obeys_alter (hC.log s _ _ _ _)

theorem HookName.emit_obeys (hC : C.Permits) {call : Handlers} (hc : call.Obey C)
    (name : HookName) (args : List Value) : (name.emit call args).Obeys C s := by
  show (Routine.bind (.read fun s => s.hooks.under name) _).Obeys C s
  refine Routine.Obeys.bind (r := .read _) trivial fun hooks t _ => ?_
  split
  · trivial
  · refine (Routine.obeys_log hC _ _ _ _).bind fun _ u _ => ?_
    exact Routine.obeys_each (fun h u _ =>
      Routine.Obeys.bind (g := fun _ => .done ()) (hc h args u) fun _ _ _ => trivial) hooks

/-! ## Runs -/

theorem Workflow.openContext_obeys (hC : C.Permits) (input : Value) (metadata : Entries Value) :
    (Workflow.openContext input metadata).Obeys C s := by
  refine (Routine.obeys_query hC _).bind fun moment t _ => Routine.obeys_modifyGet ?_
  by_cases h : input.isNull = true
  · rw [if_pos h]
    exact hC.opened t _ _ metadata moment (Or.inr rfl)
  · rw [if_neg h]
    exact hC.opened t _ _ metadata moment (Or.inl rfl)

theorem Workflow.notify_obeys {call : Handlers} (hc : call.Obey C) (args : List Value)
    (handlers : List (Ref .callable)) : (Workflow.notify call args handlers).Obeys C s :=
  Routine.obeys_each (fun h u _ =>
    Routine.Obeys.bind (g := fun _ => .done ()) (hc h args u) fun _ _ _ => trivial) handlers

theorem Workflow.closeFailed_obeys (hC : C.Permits) {call : Handlers} (hc : call.Obey C)
    (r : Ref .workflow) (c : Ref .context) (f : Failure) :
    (Workflow.closeFailed call r c f).Obeys C s := by
  refine (Routine.obeys_query hC _).bind fun moment t _ => ?_
  refine (Routine.obeys_alter (hC.failed t c moment _ f)).bind fun _ t _ => ?_
  refine Routine.Obeys.bind (r := .read _) trivial fun w t _ => ?_
  refine Routine.Obeys.bind (r := .read _) trivial fun step t _ => ?_
  refine (Routine.obeys_log hC _ _ _ _).bind fun _ t _ => ?_
  refine (HookName.emit_obeys hC hc _ _).bind fun _ t _ => ?_
  exact (Workflow.notify_obeys hc _ _).bind fun _ _ _ => trivial

theorem Workflow.closeCompleted_obeys (hC : C.Permits) {call : Handlers} (hc : call.Obey C)
    (r : Ref .workflow) (c : Ref .context) (v : Value) :
    (Workflow.closeCompleted call r c v).Obeys C s := by
  refine (Routine.obeys_alter (hC.result s c v)).bind fun _ t _ => ?_
  refine (Routine.obeys_query hC _).bind fun moment t _ => ?_
  refine (Routine.obeys_alter (hC.closed t c moment)).bind fun _ t _ => ?_
  refine Routine.Obeys.bind (r := .read _) trivial fun w t _ => ?_
  refine Routine.Obeys.bind (r := .read _) trivial fun output t _ => ?_
  refine (HookName.emit_obeys hC hc _ _).bind fun _ t _ => ?_
  refine (Workflow.notify_obeys hc _ _).bind fun _ t _ => ?_
  refine Routine.Obeys.bind (r := .read _) trivial fun context t _ => ?_
  refine Routine.Obeys.bind (r := .read _) trivial fun count t _ => ?_
  exact (Routine.obeys_log hC _ _ _ _).bind fun _ _ _ => trivial

/-- A run of a workflow does what is permitted, if it may visit the entrypoint. -/
theorem Workflow.execute_obeys (hC : C.Permits) (call : Handlers) (hc : call.Obey C)
    (r : Ref .workflow) (hgo : ∀ id c t, C.calls (.visit id r c) t) (input : Value)
    (metadata : Entries Value) : (Workflow.execute call r input metadata).Obeys C s := by
  refine (Workflow.openContext_obeys hC input metadata).bind fun c t _ => ?_
  refine Routine.Obeys.bind (r := .read _) trivial fun w t _ => ?_
  refine (Routine.obeys_log hC _ _ _ _).bind fun _ t _ => ?_
  refine (HookName.emit_obeys hC hc _ _).bind fun _ t _ => ?_
  refine (Routine.obeys_call (hgo _ c t)).attempt.bind fun o t _ => ?_
  cases o with
  | ok v => exact Workflow.closeCompleted_obeys hC hc r c v
  | error f => exact Workflow.closeFailed_obeys hC hc r c f

end Calls

/-! ## Visits -/

/-- The terms of a conduct say nothing about how waits end. -/
def Conduct.terms (C : Conduct) : Terms where
  writes := C.writes
  rely := C.rely
  asks w s := ∀ p ∈ w.procedures, C.calls p s
  answers _ _ _ := True
  refl := C.refl
  trans := C.trans
  relied := C.relied

section Visits

variable {C : Conduct} {s : Store}

theorem Routine.obeys_iff_meets {α : Type} {r : Routine α} :
    r.Obeys C s ↔ r.Meets C.terms (OnOk fun _ _ => True) s := by
  induction r generalizing s with
  | done a => exact Iff.rfl
  | fail f => exact Iff.rfl
  | get k ih => exact ih s
  | put t r ih => exact and_congr_right fun _ => ih
  | await w k ih =>
    refine and_congr_right fun _ => forall_congr' fun o => forall_congr' fun t => ?_
    exact forall_congr' fun _ => (ih o).trans ⟨fun h _ => h, fun h => h trivial⟩

namespace Visit.Scene

variable {σ : Scene}

/-- What a conduct permits is granted by all terms that let it be written, and that let steps of the same
workflow be waited for. -/
theorem grants_of_permits (hC : C.Permits) {T : Terms} {s₀ : Store} {id : String} {step : Step}
    (hw : ∀ {s t}, C.writes s t → T.writes s t)
    (hc : ∀ c vs s, (σ.call c vs).Meets T (OnOk fun _ _ => True) s)
    (hgo : ∀ {s w}, T.rely s₀ s → w ≠ .detached →
      (∀ p ∈ w.procedures, ∃ x ∈ step.references, ∃ c, p = .visit x σ.workflow c) → T.asks w s) :
    σ.Grants T (fun _ _ => True) s₀ id step where
  same _ := hw (hC.same _)
  raise _ := hw (hC.raise _)
  log _ _ _ _ _ := hw (hC.log _ _ _ _ _)
  dict _ _ := hw (hC.dict _ _)
  list _ vs _ := ⟨hw (hC.list _ vs), trivial⟩
  null _ := trivial
  lasting _ _ _ := trivial
  user _ c vs := hc c vs _
  enter _ := hw (hC.enter _ _ _)
  record _ _ := hw (hC.record _ _ _ _)
  noteError _ _ := hw (hC.noteError _ _ _ _)
  noteAttempt _ _ _ _ _ := hw (hC.noteError _ _ _ _)
  sleep hs := hgo hs nofun fun p hp => absurd hp List.not_mem_nil
  merge _ _ _ := hw (hC.merge _ _ _)
  path _ _ _ ht := hw (hC.path ht)
  fork {s} hs items iterator concurrency hk batch := by
    have hfork := hw (hC.fork s σ.context batch)
    refine ⟨hfork, hgo (T.trans hs (T.relied hfork)) nofun fun p hp => ?_⟩
    obtain ⟨c, -, rfl⟩ := List.mem_map.1 hp
    exact ⟨iterator, by simp [Step.references, hk], c, rfl⟩
  asks hs hd hw := hgo hs hd fun p hp => by
    obtain ⟨x, hx, rfl⟩ := hw p hp
    exact ⟨x, hx, _, rfl⟩
  answers _ _ _ _ := trivial

/-- A visit is granted what the conduct permits that it obeys. -/
theorem grants_terms (hC : C.Permits) (hc : σ.call.Obey C)
    (hgo : ∀ id c t, C.calls (.visit id σ.workflow c) t) (s₀ : Store) (id : String) (step : Step) :
    σ.Grants C.terms (fun _ _ => True) s₀ id step := by
  refine grants_of_permits hC (T := C.terms) (fun h => h)
    (fun c vs s => Routine.obeys_iff_meets.1 (hc c vs s)) fun _ _ hw p hp => ?_
  obtain ⟨x, -, c, rfl⟩ := hw p hp
  exact hgo _ _ _

theorem dispatch_obeys (hgo : ∀ id c t, C.calls (.visit id σ.workflow c) t) (hC : C.Permits)
    (hc : σ.call.Obey C) (step : Step) : (σ.dispatch step).Obeys C s :=
  Routine.obeys_iff_meets.2
    ((grants_terms hC hc hgo s step.id step).meets_dispatch (C.refl s))

/-- **A visit only writes what is permitted.** The copy of the workflow in which it runs its step
again is made from the workflow as it was in the beginning. -/
theorem visit_obeys (hC : C.Permits) (hc : σ.call.Obey C)
    (hgo : ∀ id w c t, C.calls (.visit id w c) t) {id : String}
    (hlower : ∀ step t, (s.get σ.workflow).step id = .ok step → step.kind = .task t →
      0 < t.retries → ∀ u, C.rely s u → C.writes u (σ.lowered step t u).2) :
    (σ.visit id).Obeys C s := by
  refine Routine.obeys_iff_meets.2 (visit_meets (hC.raise s) (fun step _ =>
    grants_terms hC hc (fun id c t => hgo id _ c t) s id step) ?_)
  intro step t hstep hk hpos u hu
  refine ⟨hlower step t hstep hk hpos u hu, fun p hp => ?_⟩
  rw [List.mem_singleton.1 hp]
  exact hgo _ _ _ _

end Visit.Scene

end Visits

end Conductor
