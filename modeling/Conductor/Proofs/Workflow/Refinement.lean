import Conductor.Proofs.Routine.Visiting
import Conductor.Proofs.Workflow.Batches
import Conductor.Proofs.Workflow.Expecting

/-!
# Concurrent runs give what the evaluator gives

Branches and items run side by side, in one context or in forks of it, and the same step may be visited
several times at once. None of this shows as long as no step reads what other steps have written: every
visit then gives what the sequential evaluator gives for the input of its context, and whatever is
recorded for a step is the one result that the step has for that input.

Each part of a visit succeeds with what the evaluator gives for it, from the sources of a task's input up
to the visit itself (`meets_visit`). A visit only waits for visits that can be evaluated with less fuel,
so it comes to an end (`descends`).

**Theorem (`execution_refines`).** If the evaluator succeeds, then the concurrent execution succeeds, for
all sleeps of user code, with the same result; and the results of its context are in the end the ones
that the evaluator has recorded.
-/

namespace Conductor

open Store

namespace Reference

variable {E : Reference} {records : List (String × Look)} {s t u : Store} {c : Ref .context}
  {v input : Value} {d : Look} {r r' : Reference.Report} {x : String} {p : Procedure} {m n : Nat}

/-! ## What the parts of a visit give -/

section Parts

open Routine Visit

variable {σ : Setup}

theorem meets_log (level : LogLevel) (logger message : String) (extras : List (String × Datum)) :
    (Routine.log level logger message extras).Meets (E.terms records m) (IsOk fun _ _ => True) s :=
  ⟨goes_mark s _ _ _, trivial⟩

/-! ### Other visits -/

/-- A visit that is called gives what is expected of it. -/
theorem meets_call (hp : E.Expects records p r m s) :
    (Routine.call p).Meets (E.terms records m) (IsOk (E.Delivers records p r)) s := by
  refine ⟨⟨⟨fun q hq => ?_, fun q hq s t hs => hs⟩, nofun, fun q hq => ?_⟩, fun o t ht ho => ?_⟩
  · rw [List.mem_singleton.1 hq]
    exact ⟨r, m, hp⟩
  · rw [List.mem_singleton.1 hq]
    exact hp.within
  · obtain ⟨x, ⟨r', hx⟩, rfl⟩ := ho
    cases x with
    | error f => exact hx.elim
    | ok v =>
      obtain rfl := hp.unique ht hx
      exact hx

/-- Visits that run side by side give what is expected of them. -/
theorem meets_all {ps : List Procedure} {rs : List Report}
    (hps : List.Forall₂ (fun p r => E.Expects records p r m s) ps rs) :
    (Routine.all ps).Meets (E.terms records m)
      (IsOk fun vs t => List.Forall₂ (fun r v => ∃ p ∈ ps, E.Delivers records p r v t) rs vs) s := by
  have hexpected : ∀ p ∈ ps, ∃ r, E.Expects records p r m s :=
    ((List.forall₂_and_left _ _).1 (hps.imp fun _ r hp => ⟨⟨r, hp⟩, hp⟩)).1
  refine ⟨⟨⟨fun p hp => ?_, nofun⟩, nofun, fun p hp => ?_⟩, fun o t ht ho => ?_⟩
  · obtain ⟨r, hr⟩ := hexpected p hp
    exact ⟨r, m, hr⟩
  · obtain ⟨r, hr⟩ := hexpected p hp
    exact hr.within
  · cases o with
    | error f =>
      obtain ⟨p, -, r, hr⟩ := ho
      exact hr.elim
    | ok vs =>
      refine (forall₂_join hps ho).imp fun r v ⟨p, hp, hr, r', hdelivers⟩ => ⟨p, hp, ?_⟩
      obtain rfl := hr.unique ht hdelivers
      exact hdelivers

variable (h : E.Here records c input s)
include h

theorem meets_go (hx : E.evaluate m input x = some r)
    (hrecords : c = E.context → ∀ e ∈ r.2, e ∈ records) :
    ((σ.scene E.workflow c).go x).Meets (E.terms records m) (IsOk (E.Gives records c input r)) s := by
  have hexpects : E.Expects records (.visit x E.workflow c) r m s :=
    ⟨x, c, input, rfl, h, hx, hrecords⟩
  refine (meets_call hexpects).mono fun o t ht ho => ?_
  cases o with
  | error f => exact ho
  | ok v =>
    obtain ⟨x', c', input', m', heq, -, hgives⟩ := ho
    cases heq
    obtain rfl := (h.lasting ht).input.symm.trans hgives.here.input
    exact hgives

/-- Visits of several steps give their results in the order of the steps. -/
theorem meets_gather {steps : List String} (hx : gather (E.evaluate m) input steps = some r)
    (hrecords : c = E.context → ∀ e ∈ r.2, e ∈ records) :
    ((σ.scene E.workflow c).gather steps).Meets (E.terms records m)
      (IsOk (E.Gives records c input r)) s := by
  obtain ⟨rs, hrs, rfl⟩ := gather_eq_some.1 hx
  have hexpects : List.Forall₂ (fun p r => E.Expects records p r m s)
      ((σ.scene E.workflow c).side steps) rs := by
    refine List.forall₂_map_left_iff.2 ?_
    refine (List.forall₂_iff_get.2 ⟨hrs.length_eq, fun i hi hi' => ?_⟩)
    refine ⟨_, c, input, rfl, h, hrs.get hi hi', fun hc e he => hrecords hc e ?_⟩
    exact List.mem_flatMap.2 ⟨_, List.get_mem _ _, he⟩
  refine (meets_all hexpects).bind_ok fun vs t ht hvs => ⟨goes_newList t vs, ?_⟩
  have hhere := h.lasting ht
  -- All branches run in the same context.
  have hgives : List.Forall₂ (fun r v => E.Gives records c input r v t) rs vs := by
    refine hvs.imp fun r v ⟨p, hp, hdelivers⟩ => ?_
    obtain ⟨x, -, rfl⟩ := List.mem_map.1 hp
    obtain ⟨x', c', input', m', heq, -, hgives⟩ := hdelivers
    cases heq
    obtain rfl := hhere.input.symm.trans hgives.here.input
    exact hgives
  have hnext : E.Goes records t (t.newList vs).2 := goes_newList t vs
  refine ⟨hhere.lasting hnext, appears_newList ?_, fun hc e he => ?_⟩
  · refine List.forall₂_map_right_iff.2 (List.Forall₂.flip ?_)
    exact hgives.imp fun r v hv => hv.appears
  · obtain ⟨r, hr, he⟩ := List.mem_flatMap.1 he
    obtain ⟨hall, -⟩ := (List.forall₂_and_left (p := fun r => ∃ v, E.Gives records c input r v t) _ _).1
      (hgives.imp fun r v hv => ⟨⟨v, hv⟩, hv⟩)
    obtain ⟨v, hv⟩ := hall r hr
    exact (hv.lasting hnext).recorded hc e he

/-! ### Tasks -/

variable (hE : E.Ready) (hcall : Computes σ.desk.call E)
include hE

theorem meets_emit (name : HookName) (args : List Value) :
    (name.emit σ.desk.call args).Meets (E.terms records m) (IsOk fun _ _ => True) s := by
  have hnone : (s.hooks.under name).isEmpty = true := by
    rw [h.held.proceeds.hooks, hE.hooks]
    rfl
  show (if (s.hooks.under name).isEmpty then _ else _ : Routine Unit).Meets _ _ s
  rw [if_pos hnone]
  trivial

include hcall

theorem meets_holds {a : Ref .callable} {b : Bool} (hb : E.holds a input = some b) (step : String) :
    ((σ.scene E.workflow c).holds a step).Meets (E.terms records m) (IsOk fun b' _ => b' = b) s := by
  have hinput := h.input
  subst hinput
  have hmeets := hcall.conditions a c s h.held.proceeds h.opened h.rests b hb
  exact (meets_of_computing hE hmeets).attempt_bind_ok fun v t _ hv => hv

theorem meets_source {y : Source} (hd : E.sourceOf input y = some d) :
    ((σ.scene E.workflow c).source y).Meets (E.terms records m) (IsOk fun v t => t.Appears v d) s := by
  have hinput := h.input
  subst hinput
  cases y with
  | call a => exact meets_of_computing hE (hcall.sources a c s h.held.proceeds h.opened h.rests d hd)
  | text key =>
    unfold sourceOf at hd
    dsimp only at hd
    split at hd
    · cases hd
    · next hkey =>
      obtain ⟨w, hw, rfl⟩ := Option.map_eq_some_iff.1 hd
      have hw := toOption_eq_some.1 hw
      have hfound : s.lookup (s.get c).input key = .ok w :=
        (h.held.proceeds.lookup h.rests key).trans hw
      show (Routine.ofExcept (if _ then _ else _ : Except Cause Value)).Meets _ _ s
      rw [if_neg hkey]
      show (Routine.ofExcept (s.lookup (s.get c).input key)).Meets _ _ s
      rw [hfound]
      exact (h.rests.lookup hw).appears.lasting h.held.proceeds

omit h in
theorem meets_sources : ∀ {y : Entries Source} {es : List (String × Look)} {s : Store},
    E.Here records c input s →
    y.mapM (fun e => (E.sourceOf input e.2).map fun d => (e.1, d)) = some es →
    ((σ.scene E.workflow c).sources y).Meets (E.terms records m)
      (IsOk fun vs t => List.Forall₂ (fun e e' => e.1 = e'.1 ∧ t.Appears e.2 e'.2) vs es) s
  | [], _, _, _, hes => by
    cases hes
    exact .nil
  | (key, y) :: rest, _, _, h, hes => by
    cases mapM_eq_some.1 hes with
    | cons hy hrest =>
      obtain ⟨d, hd, rfl⟩ := Option.map_eq_some_iff.1 hy
      refine (meets_source h hE hcall hd).bind_ok fun v t ht hv => ?_
      refine (meets_sources (h.lasting ht) (mapM_eq_some.2 hrest)).bind_ok fun vs u hu hvs => ?_
      exact .cons ⟨rfl, hv.lasting hu.proceeds⟩ hvs

theorem meets_inputOf {t : TaskStep} (hd : E.inputOf input t = some d) :
    ((σ.scene E.workflow c).inputOf t).Meets (E.terms records m) (IsOk fun v t => t.Appears v d) s := by
  unfold inputOf at hd
  unfold Scene.inputOf
  cases hinputs : t.inputs with
  | none =>
    rw [hinputs] at hd
    cases hd
    show s.Appears (s.get c).input _
    rw [h.input]
    exact h.rests.appears.lasting h.held.proceeds
  | some y =>
    rw [hinputs] at hd
    obtain ⟨es, hes, rfl⟩ := Option.map_eq_some_iff.1 hd
    refine (meets_sources hE hcall h hes).bind_ok fun vs u hu hvs => ⟨goes_newDict u vs, ?_⟩
    exact appears_newDict ((h.lasting hu).held.proceeds.sound hE.sound) hvs

/-- A task gives what its handler makes of its input. -/
theorem meets_execute {name : String} {a : Ref .task} (ha : E.start.task name = .ok a)
    (hv : s.Appears v d) :
    (Task.execute σ.desk.call a v (.context c)).Meets (E.terms records m)
      (IsOk fun w t => t.Appears w (E.handler (E.start.get a).handler d)) s := by
  refine (meets_emit h hE _ _).bind_ok fun _ t ht _ => ?_
  have ht' := h.lasting ht
  show ((σ.desk.call (t.get a).handler _).attempt.bind _).Meets _ _ t
  rw [ht'.held.proceeds.tasks.handler name a ha]
  have hmeets := hcall.handlers name a ha v c t ht'.held.proceeds (hv.rests.lasting ht.proceeds)
  refine (meets_of_computing hE hmeets).attempt_bind_ok fun w u hu hw => ?_
  refine (meets_emit (ht'.lasting hu) hE _ _).bind_ok fun _ u' hu' _ => ?_
  rw [(hv.lasting ht.proceeds).look] at hw
  exact hw.lasting hu'.proceeds

theorem meets_runTask {t : TaskStep} {a : Ref .task} (ha : E.start.task t.task = .ok a)
    (hout : t.outputs = none) (hd : E.inputOf input t = some d) :
    ((σ.scene E.workflow c).runTask t a).Meets (E.terms records m)
      (IsOk fun v t => t.Appears v (E.handler (E.start.get a).handler d)) s := by
  refine (meets_inputOf h hE hcall hd).bind_ok fun v u hu hv => ?_
  have hhere := h.lasting hu
  refine (meets_execute hhere hE hcall ha hv).bind_ok fun w u' hu' hw => ?_
  have hhere := hhere.lasting hu'
  unfold Scene.applyOutput
  rw [hout]
  refine ⟨?goes, hw.lasting (Goes.proceeds ?goes)⟩
  -- Nobody reads the output.
  dsimp only
  cases u'.mapping? w with
  | some es => exact hhere.goes_insertAll es
  | none => exact .refl E records u'

theorem meets_task {t : TaskStep} (hd : E.task input t = some d) (step : String) :
    ((σ.scene E.workflow c).task step t).Meets (E.terms records m) (IsOk fun v t => t.Appears v d) s := by
  obtain ⟨a, runs, ha, hruns, hout, hd⟩ := task_cases hd
  refine (meets_query_bind ((h.held.proceeds.tasks.task t.task).trans ha)).2 ?_
  have hrun : ∀ {u}, E.Goes records s u → runs = true →
      ((σ.scene E.workflow c).runTask t a).Meets (E.terms records m) (IsOk fun v t => t.Appears v d) u := by
    intro u hu hrun
    subst hrun
    obtain ⟨x, hx, rfl⟩ := Option.map_eq_some_iff.1 hd
    exact meets_runTask (h.lasting hu) hE hcall ha hout hx
  unfold Reference.runs at hruns
  cases hc : t.condition with
  | none =>
    rw [hc] at hruns
    exact hrun (.refl E records s) (Option.some.inj hruns).symm
  | some b =>
    rw [hc] at hruns
    refine (meets_holds h hE hcall hruns step).bind_ok fun b' u hu hb' => ?_
    subst hb'
    cases b' with
    | true => exact hrun hu rfl
    | false =>
      cases hd
      exact (meets_log _ _ _ _).bind_ok fun _ u' _ _ => appears_null

omit hcall

/-! ### Maps -/

omit hE in
/-- The items of a map step are what they were in the beginning. -/
theorem itemsOf_eq {items : Items} {xs : List Value} (hx : E.items input items = some xs)
    (hliteral : ∀ v, items = .literal v → E.start.AtRest v) :
    (σ.scene E.workflow c).itemsOf items s = .ok xs ∧ ∀ y ∈ xs, E.start.AtRest y := by
  have hrow : ∀ {v} origin, E.start.AtRest v → E.start.row? v = some xs →
      (σ.scene E.workflow c).findItems s items = .ok (v, origin) →
      (σ.scene E.workflow c).itemsOf items s = .ok xs ∧ ∀ y ∈ xs, E.start.AtRest y := by
    intro v origin hv hxs hfind
    refine ⟨?_, fun y hy => hv.leads (.item hxs hy)⟩
    show (((σ.scene E.workflow c).findItems s items).bind fun p => _) = _
    rw [hfind]
    dsimp only [Except.bind]
    rw [h.held.proceeds.row? hv, hxs]
  cases items with
  | literal v => exact hrow _ (hliteral v rfl) hx rfl
  | source key =>
    unfold Reference.items at hx
    dsimp only at hx
    split at hx
    · cases hx
    · next hkey =>
      obtain ⟨v, hv, hxs⟩ := Option.bind_eq_some_iff.1 hx
      have hv := toOption_eq_some.1 hv
      refine hrow s!"input '{key}'" (h.rests.lookup hv) hxs ?_
      show (if _ then _ else _ : Except Cause (Value × String)) = _
      rw [if_neg hkey]
      show (s.lookup (s.get c).input key).map _ = _
      rw [h.input, h.held.proceeds.lookup h.rests, hv]
      rfl

/-- The items of a batch give their results in their order. -/
theorem meets_runBatch {iterator : String} {xs : List Value} {rs : List Report}
    (hxs : ∀ y ∈ xs, E.start.AtRest y)
    (hrs : List.Forall₂ (fun y r => E.evaluate m y iterator = some r) xs rs) :
    ((σ.scene E.workflow c).runBatch iterator xs).Meets (E.terms records m)
      (IsOk fun vs t => List.Forall₂ (fun r v => t.Appears v r.1) rs vs) s := by
  have hfork : E.Goes records s (s.forkAll c xs).2 := goes_forkAll hE s c xs
  have hthere := h.held.there hE
  have hcontext := h.held.proceeds.opened hE.context
  have hexpects : List.Forall₂ (fun p r => E.Expects records p r m (s.forkAll c xs).2)
      ((s.forkAll c xs).1.map fun d => .visit iterator E.workflow d) rs := by
    refine List.forall₂_map_left_iff.2 ?_
    refine (forall₂_join (get_forkAll c xs s) hrs).imp fun d r ⟨y, hy, ⟨hle, hlt, hin, hsteps⟩, hr⟩ => ?_
    -- The fork is not the context of the execution, and neither are its results.
    refine ⟨iterator, d, y, rfl, ⟨hfork.held h.held, hlt, hxs y hy, hin, fun _ heq => ?_⟩, hr,
      fun heq => ?_⟩
    · rw [heq] at hsteps
      exact absurd hthere (Nat.not_lt.2 hsteps)
    · rw [heq] at hle
      exact absurd hcontext (Nat.not_lt.2 hle)
  refine ⟨hfork, (meets_all hexpects).mono fun o t _ ho => ?_⟩
  cases o with
  | error f => exact ho
  | ok vs =>
    refine List.Forall₂.imp (fun r v ⟨p, _, hp⟩ => ?_) ho
    obtain ⟨x', c', input', m', -, -, hgives⟩ := hp
    exact hgives.appears

omit h in
theorem meets_runBatches {iterator : String} : ∀ {batches : List (List Value)} {rs : List Report}
    {s : Store}, E.Here records c input s → (∀ y ∈ batches.flatten, E.start.AtRest y) →
    List.Forall₂ (fun y r => E.evaluate m y iterator = some r) batches.flatten rs →
    ((σ.scene E.workflow c).runBatches iterator batches).Meets (E.terms records m)
      (IsOk fun vs t => List.Forall₂ (fun r v => t.Appears v r.1) rs vs) s
  | [], _, _, _, _, hrs => by
    cases hrs
    exact .nil
  | batch :: rest, rs, s, h, hxs, hrs => by
    rw [List.flatten_cons] at hxs hrs
    have hfirst := List.forall₂_take batch.length hrs
    have hothers := List.forall₂_drop batch.length hrs
    rw [List.take_left] at hfirst
    rw [List.drop_left] at hothers
    refine (meets_runBatch h hE (fun y hy => hxs y (List.mem_append_left _ hy)) hfirst).bind_ok
      fun vs t ht hvs => ?_
    refine (meets_runBatches (h.lasting ht) (fun y hy => hxs y (List.mem_append_right _ hy))
      hothers).bind_ok fun ws u hu hws => ?_
    have hall : List.Forall₂ (fun (r : Report) v => u.Appears v r.1)
        (rs.take batch.length ++ rs.drop batch.length) (vs ++ ws) :=
      List.rel_append (hvs.imp fun r v hv => hv.lasting hu.proceeds) hws
    rw [List.take_append_drop] at hall
    exact hall

omit h hE in
/-- The batches of a map step are its items. -/
theorem flatten_batches {α : Type} {size : Nat} (hsize : 0 < size) : ∀ {fuel : Nat} {xs : List α},
    xs.length ≤ fuel → (Scene.batches size fuel xs).flatten = xs
  | 0, xs, hfuel => by
    rw [List.length_eq_zero_iff.1 (Nat.le_zero.1 hfuel)]
    rfl
  | fuel + 1, [], _ => rfl
  | fuel + 1, y :: xs, hfuel => by
    have hrest : ((y :: xs).drop size).length ≤ fuel := by
      rw [List.length_drop]
      simp only [List.length_cons] at hfuel ⊢
      omega
    show ((y :: xs).take size :: Scene.batches size fuel ((y :: xs).drop size)).flatten = _
    rw [List.flatten_cons, flatten_batches hsize hrest, List.take_append_drop]

theorem meets_map {items : Items} {iterator : String} {concurrency : Option Int}
    (hd : dispatch (E.evaluate m) input E (.map items iterator concurrency) = some r)
    (hliteral : ∀ v, items = .literal v → E.start.AtRest v) :
    ((σ.scene E.workflow c).map items iterator concurrency).Meets (E.terms records m)
      (IsOk (E.Gives records c input r)) s := by
  obtain ⟨xs, rs, hxs, hrs, rfl⟩ := map_eq_some.1 hd
  obtain ⟨hitems, hrest⟩ := itemsOf_eq (σ := σ) h hxs hliteral
  refine (meets_query_bind hitems).2 ?_
  have hflatten := flatten_batches ((σ.scene E.workflow c).batchSize_pos concurrency) (le_refl xs.length)
  rw [← hflatten] at hrest hrs
  refine (meets_runBatches hE h hrest hrs).bind_ok fun vs t ht hvs => ⟨goes_newList t vs, ?_⟩
  refine ⟨(h.lasting ht).lasting (goes_newList t vs), appears_newList ?_, fun _ e he => ?_⟩
  · exact List.forall₂_map_right_iff.2 (List.Forall₂.flip hvs)
  · exact absurd he List.not_mem_nil

/-! ### Retries -/

omit hE in
/-- The first try succeeds. -/
theorem meets_retry {y : RetryStep} (hd : E.evaluate m input y.target = some r)
    (hrecords : c = E.context → ∀ e ∈ r.2, e ∈ records) (step : String) :
    ((σ.scene E.workflow c).retry step y).Meets (E.terms records m)
      (IsOk (E.Gives records c input r)) s := by
  have htry : ((σ.scene E.workflow c).tryTarget y 0).Meets (E.terms records m)
      (IsOk fun o t => IsOk (E.Gives records c input r) o t) s :=
    (meets_go h hd hrecords).attempt_bind_ok fun v t _ hv => hv
  unfold Scene.retry
  cases y.maxRetries.toNat with
  | zero =>
    refine htry.bind_ok fun o t _ ho => ?_
    cases o with
    | ok v => exact ho
    | error f => exact ho.elim
  | succ remaining =>
    refine htry.bind_ok fun o t _ ho => ?_
    cases o with
    | ok v => exact ho
    | error f => exact ho.elim

/-! ### Steps -/

include hcall

/-- What a step does itself, by its variant. -/
theorem meets_dispatch {step : Step} (hstep : (E.start.get E.workflow).step x = .ok step)
    (hd : dispatch (E.evaluate m) input E step.kind = some r)
    (hrecords : c = E.context → ∀ e ∈ r.2, e ∈ records) :
    ((σ.scene E.workflow c).dispatch step).Meets (E.terms records m)
      (IsOk (E.Gives records c input r)) s := by
  unfold Scene.dispatch
  cases hk : step.kind with
  | task t =>
    rw [hk] at hd
    obtain ⟨d, htask, rfl⟩ := Option.map_eq_some_iff.1 hd
    refine (meets_task h hE hcall htask step.id).mono fun o t ht ho => ?_
    cases o with
    | ok v => exact ⟨h.lasting ht, ho, fun _ e he => absurd he List.not_mem_nil⟩
    | error f => exact ho
  | parallel branches waitForAll =>
    rw [hk] at hd
    cases waitForAll with
    | false => cases hd
    | true => exact meets_gather h hd hrecords
  | condition predicate trueNext falseNext =>
    rw [hk] at hd
    obtain ⟨chosen, hchosen, hnext⟩ := choose_eq_some.1 hd
    refine (meets_holds h hE hcall hchosen step.id).bind_ok fun b t ht hb => ?_
    subst hb
    refine (meets_log _ _ _ _).bind_ok fun _ u hu _ => ?_
    exact meets_go ((h.lasting ht).lasting hu) hnext hrecords
  | map items iterator concurrency =>
    rw [hk] at hd
    refine meets_map h hE hd fun v hv => ?_
    subst hv
    exact hE.literals x step hstep v iterator concurrency hk
  | retry y =>
    rw [hk] at hd
    exact meets_retry h hd hrecords step.id
  | unknown name =>
    rw [hk] at hd
    cases hd

omit hE hcall in
/-- What comes behind a step with a given result. -/
theorem meets_follow {next : Successor} (hd : follow (E.evaluate m) input d next = some r)
    (hv : s.Appears v d) (hrecords : c = E.context → ∀ e ∈ r.2, e ∈ records) :
    ((σ.scene E.workflow c).follow next v).Meets (E.terms records m)
      (IsOk (E.Gives records c input r)) s := by
  cases next with
  | none =>
    cases hd
    exact ⟨h, hv, fun _ e he => absurd he List.not_mem_nil⟩
  | one next => exact meets_go h hd hrecords
  | fan steps => exact meets_gather h hd hrecords

/-- **A visit that the evaluator can evaluate gives what the evaluator gives.** -/
theorem meets_visit (hx : E.evaluate (m + 1) input x = some r)
    (hrecords : c = E.context → ∀ e ∈ r.2, e ∈ records) :
    ((σ.scene E.workflow c).visit x).Meets (E.terms records m)
      (IsOk (E.Gives records c input r)) s := by
  obtain ⟨step, d, before, behind, hstep, hd, hfollow, rfl⟩ := evaluate_succ.1 hx
  have hfound : (s.get E.workflow).step x = .ok step := by
    rw [h.held.proceeds.freezes.same _ hE.workflow]
    exact hstep
  show (Routine.bind (Routine.bind (.ofExcept ((s.get E.workflow).step x)) _) _).Meets _ _ s
  rw [hfound]
  show (Routine.bind (Routine.bind (.alter fun s => s.enter c x) _) _).Meets _ _ s
  rw [Routine.bind_assoc]
  have harrive : (Routine.alter fun s => s.enter c x).Meets (E.terms records m)
      (IsOk fun _ _ => True) s := ⟨h.goes_enter x, trivial⟩
  refine harrive.bind_ok fun _ s₁ h₁ _ => ?_
  have h := h.lasting h₁
  show (Routine.bind (Routine.bind _ _) _).Meets _ _ s₁
  rw [Routine.bind_assoc]
  refine (meets_emit h hE _ _).bind_ok fun _ s₂ h₂ _ => ?_
  have h := h.lasting h₂
  show (Routine.bind (Routine.bind _ _) _).Meets _ _ s₂
  rw [Routine.bind_assoc]
  refine (meets_log _ _ _ _).bind_ok fun _ s₃ h₃ _ => ?_
  have h := h.lasting h₃
  refine (meets_dispatch h hE hcall hstep hd fun hc e he => ?_).attempt_bind_ok fun v s₄ h₄ hv => ?_
  · exact hrecords hc e (List.mem_append_left _ he)
  -- The result is recorded, and stays so while the run goes on.
  obtain ⟨hrecord, hrecorded⟩ := hv.here.record hE hv.appears fun hc =>
    hrecords hc (x, d) (List.mem_append_right _ List.mem_cons_self)
  have hsettle : (Routine.alter fun s => s.record c x v).Meets (E.terms records m)
      (IsOk fun _ t => E.Gives records c input (d, before) v t ∧ (c = E.context → E.Recorded t x)) s₄ :=
    ⟨hrecord, hv.lasting hrecord, hrecorded⟩
  refine hsettle.bind_ok fun _ s₅ h₅ ⟨hv, hx⟩ => ?_
  have hheld := hv.here.held
  refine (meets_emit hv.here hE _ _).bind_ok fun _ s₆ h₆ _ => ?_
  have hv := hv.lasting h₆
  refine (meets_follow hv.here hfollow hv.appears fun hc e he => ?_).mono fun o t ht ho => ?_
  · exact hrecords hc e (List.mem_append_right _ (List.mem_cons_of_mem _ he))
  cases o with
  | error f => exact ho
  | ok w =>
    refine ⟨ho.here, ho.appears, fun hc e he => ?_⟩
    rcases List.mem_append.1 he with he | he
    · exact (hv.lasting ht).recorded hc e he
    · rcases List.mem_cons.1 he with rfl | he
      · exact (h₆.trans ht).recorded hheld _ (hx hc)
      · exact ho.recorded hc e he

end Parts

/-! ## Executions -/

/-- A visit that can be evaluated with less fuel stands lower. -/
def Lower (E : Reference) (a b : Procedure × Store) : Prop :=
  ∃ m, E.Within m a.1 a.2 ∧ ¬ E.Within m b.1 b.2

theorem Within.mono (h : E.Within m p s) (hmn : m ≤ n) : E.Within n p s := by
  obtain ⟨x, c, r, rfl, hr⟩ := h
  exact ⟨x, c, r, rfl, evaluate_le hmn hr⟩

/-- Nothing can be evaluated without fuel. -/
theorem not_within_zero : ¬ E.Within 0 p s := by
  rintro ⟨x, c, r, -, hr⟩
  cases hr

theorem acc_lower {a : Procedure × Store} (h : E.Within n a.1 a.2) : Acc E.Lower a := by
  induction n using Nat.strong_induction_on generalizing a with
  | _ n ih =>
    refine ⟨a, fun b ⟨m, hb, ha⟩ => ih m ?_ hb⟩
    exact Nat.lt_of_not_le fun hle => ha (h.mono hle)

/-- There is a least fuel that suffices. -/
theorem Within.exists_least (h : E.Within n p s) : ∃ m, E.Within (m + 1) p s ∧ ¬ E.Within m p s := by
  induction n with
  | zero => exact absurd h not_within_zero
  | succ n ih =>
    by_cases hn : E.Within n p s
    · exact ih hn
    · exact ⟨n, h, hn⟩

section Executions

variable {σ : Setup} (hE : E.Ready) (hcall : Computes σ.desk.call E)
include hE hcall

/-- **Visits keep the contract**, and wait for lower ones only. -/
theorem descends : (E.contract records).Descends σ.body E.Lower where
  clock s _ := goes_mark s _ _ _
  late s _ := goes_mark s _ _ _
  mark s := goes_mark s _ _ _
  founded hp := by
    obtain ⟨r, m, hp⟩ := hp
    exact acc_lower hp.within
  body {p s t} hp ht := by
    obtain ⟨r, n, hp⟩ := hp
    obtain ⟨m, hsuffices, hleast⟩ := hp.within.exists_least
    obtain ⟨x, c, input, rfl, hhere, hr, hrecords⟩ := hp
    obtain ⟨x', c', r', heq, hr'⟩ := hsuffices
    cases heq
    rw [hhere.input] at hr'
    obtain rfl := evaluate_unique hr' hr
    have hvisit := meets_visit (hhere.lasting ht) hE hcall hr' hrecords
    refine Routine.Meets.weaken (T := E.terms records m) (fun h => h) (fun h => h) (fun h => ?_)
      (fun h => h) (hvisit.mono fun o u _ ho => ?_)
    · exact ⟨h.1, h.2.1, fun q hq => ⟨m, h.2.2 q hq, hleast⟩⟩
    · refine ⟨r', ?_⟩
      cases o with
      | ok v => exact ⟨x, c, input, m + 1, rfl, hr', ho⟩
      | error f => exact ho

omit hcall in
/-- In the beginning nothing is recorded. -/
theorem Ready.here : E.Here records E.context (E.start.get E.context).input E.start where
  held := ⟨.refl E.start, fun id v hv => by rw [hE.fresh] at hv; cases hv⟩
  opened := hE.context
  rests := hE.input
  input := rfl
  apart h := absurd rfl h

omit hcall in
/-- When everything is recorded that the evaluator has recorded, and nothing else, then the results are
what the evaluator has recorded. -/
theorem Held.results (h : E.Held r.2 s) (hr : E.evaluate n input x = some r)
    (hall : ∀ e ∈ r.2, E.Recorded s e.1) (id : String) :
    (Entries.get? (s.get (s.get E.context).steps) id).map (Look.of s) =
      Entries.get? (Entries.ofList r.2) id := by
  rw [h.steps hE]
  cases hd : Entries.get? (Entries.ofList r.2) id with
  | none =>
    rw [Option.map_eq_none_iff, Option.eq_none_iff_forall_not_mem]
    intro v hv
    obtain ⟨d, hd', -⟩ := h.right id v hv
    obtain ⟨d', hfound⟩ : ∃ d', Entries.get? (Entries.insertAll [] r.2) id = some d' :=
      Entries.exists_get?_insertAll (Or.inr ⟨d, hd'⟩)
    cases hd.symm.trans hfound
  | some d =>
    have hmem : (id, d) ∈ r.2 :=
      (Entries.mem_insertAll (Entries.mem_of_get? hd)).resolve_left List.not_mem_nil
    obtain ⟨v, hv⟩ := hall _ hmem
    obtain ⟨d', hd', happears⟩ := h.right id v hv
    rw [hv]
    exact congrArg some (happears.look.trans (records_unique hr hd' hmem))

/-- **Concurrent execution refines the evaluator.** Take a workflow whose steps do not read what other
steps have written, and a fresh context for it, without hooks; and user code that sleeps as it likes and
then computes what the evaluator takes it to compute. If the evaluator succeeds, the execution comes to
an end and succeeds with a value that looks like the result of the evaluator, down to every depth; and
the results of the context are those that the evaluator has recorded, under the same ids. -/
theorem execution_refines
    (hr : E.evaluate n (E.start.get E.context).input (E.start.get E.workflow).entrypoint = some r) :
    ∃ k, ∀ i ≥ k, ∃ v,
      let run := Schedule.run σ.body i
        (.call (.visit (E.start.get E.workflow).entrypoint E.workflow E.context))
        (Schedule.ofStore E.start)
      let t := run.2.store
      run.1 = some (.ok v) ∧ Look.of t v = r.1 ∧
        ∀ id, (Entries.get? (t.get (t.get E.context).steps) id).map (Look.of t) =
          Entries.get? (Entries.ofList r.2) id := by
  have hexpects : E.Expects r.2 (.visit (E.start.get E.workflow).entrypoint E.workflow E.context) r n
      E.start := ⟨_, E.context, _, rfl, hE.here, hr, fun _ _ he => he⟩
  have hvisit : (Procedure.visit (E.start.get E.workflow).entrypoint E.workflow E.context).IsVisit :=
    trivial
  obtain ⟨k, hk⟩ := (descends hE hcall).returns hvisit ⟨r, n, hexpects⟩
  refine ⟨k, fun i hi => ?_⟩
  obtain ⟨o, ho, ⟨r', hpost⟩, -⟩ := hk i hi
  cases o with
  | error f => exact hpost.elim
  | ok v =>
    obtain ⟨x, c, input, m, heq, hr', hgives⟩ := hpost
    cases heq
    have hinput := hgives.here.held.proceeds.input hE.context
    obtain rfl := hinput.symm.trans hgives.here.input
    obtain rfl := evaluate_unique hr hr'
    exact ⟨v, ho, hgives.appears.look,
      hgives.here.held.results hE hr (hgives.recorded rfl)⟩

end Executions

/-! ## Several ways to one step -/

/-- User code that sleeps. The first callable gives its input then, and the second one says yes. -/
def dozing (first second : Binary64) : Setup :=
  ⟨default, ⟨fun a args => (Routine.sleep (if a = ⟨0⟩ then first else second)).bind fun _ =>
    .done (if a = ⟨0⟩ then args.headD .null else .bool true), default, none, [], [], none⟩⟩

/-- A workflow in which one task is run on several ways, among them side by side and for items. -/
def several : Store :=
  { Store.empty with
    workflows := #[⟨"w", "w", [("both", ⟨"both", .parallel ["one", "each"] true, .one "pick"⟩),
      ("one", ⟨"one", .task ⟨"t", none, none, none, 0, .int 0⟩, .none⟩),
      ("each", ⟨"each", .map (.source "items") "one" (some 1), .none⟩),
      ("pick", ⟨"pick", .condition ⟨1⟩ "again" "both", .none⟩),
      ("again", ⟨"again", .retry ⟨"one", 2, none, none, none⟩, .fan ["one", "each"]⟩)],
      "both", .null, .null, .null, [], [], []⟩]
    tasks := #[⟨"t", ⟨0⟩, .null, .null, .null⟩]
    taskRegistry := [("t", ⟨0⟩)] }

/-- The workflow with a context in which the input names two items. -/
def ways : Reference where
  start :=
    let (xs, s) := several.newList [.int 1, .int 2]
    let (d, s) := s.newDict [("items", xs)]
    (s.newContext (.dict d) [] [] [] [] none 0).2
  workflow := ⟨0⟩
  context := ⟨0⟩
  handler _ d := d
  holds a _ := if a = ⟨1⟩ then some true else none
  source _ _ := none

theorem ready_ways : ways.Ready where
  workflow := Nat.zero_lt_one
  context := Nat.zero_lt_one
  sound := by
    refine (proceeds_newContext _ _ _ _ _ _ _ _).sound fun v hv => ?_
    cases hv with | context hc | results hc | errors hc | output hc => exact absurd hc (Nat.not_lt_zero _)
  hooks := rfl
  fresh := rfl
  input := by
    have hlist : (several.newList [.int 1, .int 2]).2.AtRest (.list ⟨0⟩) := by
      refine atRest_newList fun v hv => atRest_plain ?_
      simp only [List.mem_cons, List.not_mem_nil, or_false] at hv
      rcases hv with rfl | rfl <;> rfl
    have hsound : (several.newList [.int 1, .int 2]).2.Sound := fun v hv => by
      cases hv with | context hc | results hc | errors hc | output hc =>
        exact absurd hc (Nat.not_lt_zero _)
    have hdict := atRest_newDict hsound (fun e (he : e ∈ [("items", .list ⟨0⟩)]) =>
      List.mem_singleton.1 he ▸ hlist)
    exact hdict.lasting (proceeds_newContext _ _ _ _ _ _ _ _)
  literals x step hstep v iterator concurrency hk := by
    have hmem := Entries.mem_of_get? (Workflow.step_ok_iff.1 hstep)
    change (x, step) ∈ [(_, _), (_, _), (_, _), (_, _), (_, _)] at hmem
    simp only [List.mem_cons, List.not_mem_nil, or_false, Prod.mk.injEq] at hmem
    rcases hmem with ⟨-, rfl⟩ | ⟨-, rfl⟩ | ⟨-, rfl⟩ | ⟨-, rfl⟩ | ⟨-, rfl⟩ <;> cases hk

theorem computes_ways (first second : Binary64) : Computes (dozing first second).desk.call ways where
  handlers name a ha v c s _ hv := by
    have hmem : (name, a) ∈ ways.start.taskRegistry := by
      unfold Store.task at ha
      split at ha
      · next hfound =>
        cases ha
        exact Entries.mem_of_get? hfound
      · cases ha
    cases List.mem_singleton.1 hmem
    refine ⟨⟨_, rfl⟩, fun o t ht ho => ?_⟩
    rw [ho _ rfl]
    exact hv.appears.lasting ht
  conditions a c s _ _ _ b hb := by
    refine ⟨⟨_, rfl⟩, fun o t ht ho => ?_⟩
    rw [ho _ rfl]
    change (if a = ⟨1⟩ then some true else none) = some b at hb
    split at hb
    · next ha =>
      subst ha
      cases hb
      rfl
    · cases hb
  sources a c s _ _ _ d hd := by cases hd

/-- Whatever the sleeps are, each way gives the same. -/
theorem execution_refines_ways :
    ∃ k, ∀ i ≥ k, ∃ v,
      let run := Schedule.run (dozing .one .zero).body i (.call (.visit "both" ⟨0⟩ ⟨0⟩))
        (Schedule.ofStore ways.start)
      let t := run.2.store
      run.1 = some (.ok v) ∧ Look.of t v = Look.list [Look.of ways.start (.dict ⟨0⟩),
        Look.list [Look.of ways.start (.int 1), Look.of ways.start (.int 2)]] ∧
      (Entries.get? (t.get (t.get (⟨0⟩ : Ref .context)).steps) "one").map (Look.of t) =
        some (Look.of ways.start (.dict ⟨0⟩)) := by
  have hr : ∃ records, ways.evaluate 5 (ways.start.get ways.context).input "both" =
      some (Look.list [Look.of ways.start (.dict ⟨0⟩),
        Look.list [Look.of ways.start (.int 1), Look.of ways.start (.int 2)]], records) ∧
      Entries.get? (Entries.ofList records) "one" = some (Look.of ways.start (.dict ⟨0⟩)) := ⟨_, rfl, rfl⟩
  obtain ⟨records, hr, hone⟩ := hr
  obtain ⟨k, hk⟩ := execution_refines ready_ways (computes_ways .one .zero) hr
  refine ⟨k, fun i hi => ?_⟩
  obtain ⟨v, hv, hlook, hresults⟩ := hk i hi
  exact ⟨v, hv, hlook, (hresults "one").trans hone⟩

end Reference

end Conductor
