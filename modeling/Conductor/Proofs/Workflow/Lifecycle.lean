import Conductor.Proofs.Account.Launched
import Conductor.Proofs.Goal.Stages
import Conductor.Proofs.Workflow.Dispatches

/-!
# The lifecycle of workflows and steps

Hooks tell of the lifecycle of a run and of every visit in it, in a fixed grammar: what a visit does
by itself stands between its start and its end or failure, and whatever comes of its successors
and of its further tries stands behind them.

**Theorem (`Workflow.lifecycle`).** A run of a workflow whose hooks do not fail, from whose user code
no abort comes and that leaves no branch behind begins by telling its start and ends by telling
its end or its failure, and every visit in it keeps to the grammar of visits (`Visit.Grammar`).
-/

namespace Conductor

open Outline (plain emit)
open Visit (Scene)
open Visit.Outlined

variable {body : Procedure → Routine Value} {R : Run body} {plan : Procedure → Outline Value}
  {N : Nat} {α β : Type} {b n t k : Nat} {ds ds' : List Deed}

namespace Visit

/-- What is told when a step's own work has ended, and what is noted with it. -/
def Ends (R : Run body) (σ : Scene) (id : String) : Except Failure Value → Nat → Nat → List Deed → Prop
  | .ok v => Closes R (.records σ.context id v) (fun s => s.record σ.context id v) .stepEnd
      (σ.stepArguments id ++ [v])
  | .error f => Closes R (.notes σ.context id f) (fun s => s.noteError σ.context id f) .stepError
      (σ.stepArguments id ++ [.failure f])

/-- The grammar of a visit that is over. A step that is not in the workflow tells nothing. Any other
step tells its start, then does its own work, then tells its end with the result that has just been
recorded or its failure with what was raised; everything in its own work stands strictly between
the two, and all the rest behind them. -/
inductive Grammar (R : Run body) (plan : Procedure → Outline Value) (N b : Nat) (σ : Scene)
    (id : String) (n : Nat) : List Deed → Prop where
  | unknown {cause : Cause} (h : ((R.store n).get σ.workflow).step id = .error cause) :
    Grammar R plan N b σ id n []
  | known {start own close rest : List Deed} {step : Step} {k t m : Nat}
    {o : Except Failure Value} (hstart : Begins R σ id n step k start)
    (hown : Account R σ.call plan N b k (.now (dispatch σ step)) own (some (t, o)))
    (hclose : Ends R σ id o t m close)
    (hbetween : ∀ d, Occurs d own → n + 3 < d.moment ∧ d.moment < t + 2)
    (hbehind : ∀ d, Occurs d rest → t + 2 < d.moment)
    (hutters : ∀ l ∈ Deed.said own, Utters σ step l)
    (htask : ∀ s, step.kind = .task s → TaskTold σ own o)
    (hquiet : Deed.said rest = []) :
    Grammar R plan N b σ id n (start ++ (own ++ (close ++ rest)))

variable {σ : Scene} {id : String}

/-- **Visits keep to their grammar.** -/
theorem Stages.grammar {e : Ending Value} (h : Stages R plan N b σ id n ds e)
    (hplan : ∀ p, (plan p).Tame) (hc : Deed.Calm ds) (hs : Deed.Sound Use.IsHook ds)
    (hleft : ∀ t ≤ N, (R.moment t).detached = []) {o : Except Failure Value} (he : e = some (t, o)) :
    Grammar R plan N b σ id n ds := by
  -- What is known of a step's own work, however it has ended.
  have hwork : ∀ {pre own : List Deed} {step : Step} {k t : Nat} {x : Except Failure Value},
      Begins R σ id n step k pre → Deed.Calm own → Deed.Sound Use.IsHook own →
      Account R σ.call plan N b k (.now (dispatch σ step)) own (some (t, x)) →
      (∀ d, Occurs d own → n + 3 < d.moment ∧ d.moment < t + 2) ∧
        (∀ l ∈ Deed.said own, Utters σ step l) ∧
          ∀ s, step.kind = .task s → TaskTold σ own x := by
    intro pre own step k t x hb hc hs hd
    refine ⟨fun d hocc => ⟨?_, ?_⟩, hd.said_all (P := Utters σ step) (says_dispatch step),
      fun s hk => ?_⟩
    · exact hb.later.trans_le (hd.occurs hocc).1
    · exact Nat.lt_of_le_of_lt (hd.before hplan hleft hc hocc) (by omega)
    · unfold dispatch at hd
      rw [hk] at hd
      exact hd.task_told hplan hc hs
  cases h with
  | unknown h => exact .unknown h
  | early | telling | running => cases he
  | @failed pre own rest step k t' f _ hb hd hr =>
    obtain ⟨h₁, h₂, h₃⟩ := hwork hb hc.append.2.append.1 hs.append.2.append.1 hd
    cases hr with
    | telling => cases he
    | gaveUp hcl =>
      rw [← List.append_nil rest]
      exact .known hb hd hcl h₁ (fun d hocc => absurd hocc Occurs.not_nil) h₂ h₃ rfl
    | waiting hcl =>
      rw [← List.append_nil rest]
      exact .known hb hd hcl h₁ (fun d hocc => absurd hocc Occurs.not_nil) h₂ h₃ rfl
    | @again close inner m' i _ _ w hcl _ _ hi _ _ hrun =>
      refine .known hb hd hcl h₁ (fun d hocc => ?_) h₂ h₃ rfl
      have hlater := hcl.later
      rcases Occurs.cons.1 hocc with rfl | hocc | hocc
      · show t' + 2 < i + 2
        omega
      · have := (hrun.occurs hocc).1
        omega
      · exact absurd hocc Occurs.not_nil
  | @returned pre own rest step k t' v _ hb hd hset =>
    obtain ⟨h₁, h₂, h₃⟩ := hwork hb hc.append.2.append.1 hs.append.2.append.1 hd
    cases hset with
    | telling => cases he
    | following hcl hf =>
      exact .known hb hd hcl h₁ (fun d hocc => hcl.later.trans_le (hf.occurs hocc).1) h₂ h₃
        hf.silent_plain.said

end Visit

/-! ## Who tells of runs of workflows -/

/-- Whether something is said about a run of a workflow as a whole. -/
def Remark.OfWorkflow : Remark → Bool
  | .emits name _ => name = .workflowStart ∨ name = .workflowEnd ∨ name = .workflowError
  | _ => false

/-- Whether something is said about a visit. -/
def Remark.OfVisit : Remark → Bool
  | .emits name args => !(Remark.emits name args).OfWorkflow
  | .records .. | .notes .. => true
  | .reports _ | .opens _ | .judges .. => false

theorem Remark.OfVisit.not_ofWorkflow {l : Remark} (h : l.OfVisit = true) :
    l.OfWorkflow = false := by
  cases l with
  | emits name args => exact Bool.eq_false_of_not_eq_true' h
  | _ => rfl

theorem Remark.OfVisit.mild {l : Remark} (h : l.OfVisit = true) : l.Mild := by
  cases l with
  | reports f => cases h
  | _ => trivial

section Says

open Outline (Says says_plain says_call says_emit says_ofOutcome says_pure says_say)

theorem Visit.Outlined.says_visit {P : Remark → Prop} {σ : Scene} {id : String}
    (hP : ∀ l, l.OfVisit = true → P l) : (visit σ id).Says P := by
  refine Says.bind (Says.bind (says_plain _) fun x => Says.bind (says_emit (hP _ rfl)) fun _ =>
    Says.bind (says_plain _) fun _ => says_pure _) fun x => ?_
  have hown : (dispatch σ x.2).Says P := (says_dispatch x.2).mono fun l hl => hP l (by
    cases l with
    | emits name args => obtain ⟨rfl | rfl | rfl, -⟩ := hl <;> rfl
    | notes c name f => rfl
    | _ => exact hl.elim)
  refine Says.bind hown.attempt fun o => ?_
  cases o with
  | ok v =>
    exact Says.bind (says_say (hP _ rfl)) fun _ => Says.bind (says_plain _) fun _ =>
      Says.bind (says_emit (hP _ rfl)) fun _ => says_plain _
  | error f =>
    refine Says.bind (Says.bind (says_say (hP _ rfl)) fun _ => Says.bind (says_plain _) fun _ =>
      Says.bind (says_emit (hP _ rfl)) fun _ => ?_) fun _ => says_plain _
    split
    · split <;> exact says_plain _
    · exact says_plain _

theorem Remark.OfWork.not_ofWorkflow {l : Remark} (h : l.OfWork = true) : l.OfWorkflow = false := by
  cases l with
  | emits name args =>
    rw [Remark.OfWork, decide_eq_true_iff] at h
    rw [Remark.OfWorkflow, decide_eq_false_iff_not]
    rintro (rfl | rfl | rfl) <;> simp at h
  | _ => rfl

theorem Pursuit.Outlined.says_pursue {P : Remark → Prop} (hP : ∀ l, l.OfWorkflow = false → P l)
    (δ : Desk) (g : Ref .goal) (input : Value) (attempt : Int) (parent : Option String) :
    (pursue δ g input attempt parent).Says P := by
  refine Says.bind (says_plain _) fun goal => Says.bind (says_plain _) fun entries => ?_
  split
  · exact says_plain _
  · refine Says.bind (says_plain _) fun r => Says.bind (says_say (hP _ rfl)) fun _ =>
      Says.bind (Says.attempt ?_) fun o => ?_
    · rw [work_eq]
      refine Says.bind (says_prepare (fun l hl => hP l (Remark.OfWork.not_ofWorkflow hl)) _ _ _ _) fun x =>
        Says.bind (says_plain _) fun passed => Says.bind (says_say (hP _ rfl)) fun _ => ?_
      split
      · exact says_pure _
      · refine Says.bind (says_plain _) fun x => ?_
        dsimp only
        split <;> exact says_plain _
    · cases o with
      | ok v =>
        exact Says.bind (says_plain _) fun _ => Says.bind (says_emit (hP _ rfl)) fun _ =>
          says_plain _
      | error f =>
        exact Says.bind (says_plain _) fun _ => Says.bind (says_emit (hP _ rfl)) fun _ => trivial

/-- No part of a run says anything about a run of a workflow as a whole. -/
theorem Setup.says_plan (σ : Setup) (p : Procedure) :
    (σ.plan p).Says fun l => l.OfWorkflow = false := by
  cases p with
  | visit step w c => exact Visit.Outlined.says_visit fun _ => Remark.OfVisit.not_ofWorkflow
  | pursue g input attempt parent => exact Pursuit.Outlined.says_pursue (fun _ h => h) _ _ _ _ _

end Says

/-! ## Runs -/

namespace Setup

variable {σ : Setup} {R : Run σ.body} {o : Except Failure Value}

/-- A visit in a workflow and a context. -/
abbrev scene (σ : Setup) (w : Ref .workflow) (c : Ref .context) : Scene :=
  ⟨σ.desk.call, σ.workflow, w, c⟩

/-- Every visit in what has ended keeps to the grammar of visits. -/
theorem visits_grammar {s : Stretch α} {x : Except Failure α}
    (h : Account R σ.desk.call σ.plan N b n s ds (some (t, x))) (hc : Deed.Calm ds)
    (hs : Deed.Sound Use.IsHook ds) (hleft : ∀ i ≤ N, (R.moment i).detached = [])
    {m b' : Nat} {id : String} {w : Ref .workflow} {c : Ref .context} {inner : List Deed}
    {e : Ending Value} (hd : Occurs (.part m b' (.visit id w c) inner e) ds) :
    ∃ k, m < k ∧ Visit.Grammar R σ.plan N b' (σ.scene w c) id k inner := by
  obtain ⟨i, hi, -⟩ := h.ended σ.tame_plan hleft hc hd
  obtain ⟨⟨t', o'⟩, rfl, -⟩ := Option.map_eq_some_iff.1 hi
  rcases h.part hd with ⟨k, hk, hv⟩ | ⟨-, he⟩
  · exact ⟨k, hk, (Account.visit hv σ.tame_plan (hc.inside hd) (hs.inside hd)).grammar σ.tame_plan
      (hc.inside hd) (hs.inside hd) hleft rfl⟩
  · cases he

end Setup

namespace Workflow

variable {σ : Setup} {R : Run σ.body} {o : Except Failure Value}

/-- What the last hooks of a run tell. -/
theorem Closes.last {r : Ref .workflow} {c : Ref .context} {x : Except Failure Value} {m : Nat}
    (h : Closes R r c n x m ds o) : n < m ∧ (∃ last arg,
      .remark m (.emits last [.workflow r, .context c, arg]) ∈ ds ∧
      (Deed.said ds).filter Remark.OfWorkflow = [.emits last [.workflow r, .context c, arg]] ∧
      (last = .workflowEnd ∨ last = .workflowError) ∧
      (last = .workflowEnd ↔ (∃ v, o = .ok v) ∨
        ∃ m g args inner i f, .ask m .completed g args inner (some (i, .error f)) ∈ ds)) ∧
    ∀ m b p inner e, .part m b p inner e ∉ ds := by
  -- The calls behind a telling say nothing and are neither parts nor for other uses.
  have hcalls : ∀ {u u' : Use} {as as' : List Value} {cs cs' : List (Ref .callable)}
      {asks tail : List Deed}, Deed.Calls u as cs asks → Deed.Calls u' as' cs' tail →
      Deed.said (asks ++ tail) = [] ∧ (∀ m b p inner e, .part m b p inner e ∉ asks ++ tail) ∧
        ∀ {m v g as'' inner e}, v ≠ u → v ≠ u' → .ask m v g as'' inner e ∉ asks ++ tail := by
    intro u u' as as' cs cs' asks tail ha ht
    refine ⟨by rw [Deed.said_append, ha.said, ht.said]; rfl, fun _ _ _ _ _ hd => ?_,
      fun hu hu' hd => ?_⟩
    · obtain ⟨_, _, _, _, heq⟩ | ⟨_, _, _, _, heq⟩ :=
        (List.mem_append.1 hd).imp (fun h => ha.mem h) fun h => ht.mem h <;> cases heq
    · rcases List.mem_append.1 hd with hd | hd
      · obtain ⟨_, _, _, _, heq⟩ := ha.mem hd
        injection heq with _ h
        exact hu h
      · obtain ⟨_, _, _, _, heq⟩ := ht.mem hd
        injection heq with _ h
        exact hu' h
  have hparts : ∀ {k : Nat} {l : Remark} {ds : List Deed},
      (∀ m b p inner e, .part m b p inner e ∉ ds) →
      ∀ m b p inner e, .part m b p inner e ∉ .remark k l :: ds := fun hds m b p inner e hd =>
    (List.mem_cons.1 hd).elim (fun heq => Deed.noConfusion heq) (hds m b p inner e)
  cases h with
  | completed hm ha ht =>
    obtain ⟨hsaid, hno, -⟩ := hcalls ha ht
    refine ⟨hm, ⟨_, _, List.mem_cons_self, ?_, Or.inl rfl, iff_of_true rfl (Or.inl ⟨_, rfl⟩)⟩,
      hparts hno⟩
    rw [Deed.said_remark, hsaid]
    simp [Remark.OfWorkflow]
  | unfinished hm ha _ ht hg =>
    obtain ⟨hsaid, hno, -⟩ := hcalls ha ht
    refine ⟨hm, ⟨_, _, List.mem_cons_self, ?_, Or.inl rfl, iff_of_true rfl (Or.inr
      ⟨_, _, _, _, _, _, List.mem_cons_of_mem _ (List.mem_append_right _ hg)⟩)⟩, hparts hno⟩
    rw [Deed.said_remark, hsaid]
    simp [Remark.OfWorkflow]
  | failed hm _ ha ht =>
    obtain ⟨hsaid, hno, hask⟩ := hcalls ha ht
    refine ⟨by omega, ⟨_, _, List.mem_cons_of_mem _ List.mem_cons_self, ?_, Or.inr rfl,
      iff_of_false (by decide) ?_⟩, hparts (hparts hno)⟩
    · rw [Deed.said_remark, Deed.said_remark, hsaid]
      simp [Remark.OfWorkflow]
    · rintro (⟨v, hv⟩ | ⟨_, _, _, _, _, _, hd⟩)
      · cases hv
      · rw [List.mem_cons, List.mem_cons] at hd
        rcases hd with hd | hd | hd
        · cases hd
        · cases hd
        · exact hask (by simp) (by simp) hd
  | defeated hm _ ha _ ht _ =>
    obtain ⟨hsaid, hno, hask⟩ := hcalls ha ht
    refine ⟨by omega, ⟨_, _, List.mem_cons_of_mem _ List.mem_cons_self, ?_, Or.inr rfl,
      iff_of_false (by decide) ?_⟩, hparts (hparts hno)⟩
    · rw [Deed.said_remark, Deed.said_remark, hsaid]
      simp [Remark.OfWorkflow]
    · rintro (⟨v, hv⟩ | ⟨_, _, _, _, _, _, hd⟩)
      · cases hv
      · rw [List.mem_cons, List.mem_cons] at hd
        rcases hd with hd | hd | hd
        · cases hd
        · cases hd
        · exact hask (by simp) (by simp) hd

/-- **The lifecycle of a run.** A run that is over tells its start before anything else, and one last
time of itself: of its end, if it returns or a handler of its end fails, and else of its failure.
The visit of the entrypoint, with all that goes on inside of it, stands between the two, and every
visit in the run keeps to the grammar of visits. -/
theorem lifecycle {r : Ref .workflow} {input : Value} {metadata : Entries Value}
    (h : Account R σ.desk.call σ.plan N b n (.now (outline r input metadata)) ds (some (t, o)))
    (hc : Deed.Calm ds) (hs : Deed.Sound Use.IsHook ds)
    (hclock : ∀ i, ∃ moment, (R.store i).now = .ok moment)
    (hleft : ∀ i ≤ N, (R.moment i).detached = []) :
    ∃ (c : Ref .context) (m₀ m₁ : Nat) (last : HookName) (arg : Value),
      ds.head? = some (.remark m₀ (.emits .workflowStart [.workflow r, .context c])) ∧
      .remark m₁ (.emits last [.workflow r, .context c, arg]) ∈ ds ∧
      (Deed.said ds).filter Remark.OfWorkflow =
        [.emits .workflowStart [.workflow r, .context c],
          .emits last [.workflow r, .context c, arg]] ∧
      (∀ d ∈ ds, ∀ m l, Occurs (.remark m l) d.inner → l.OfWorkflow = false) ∧
      (last = .workflowEnd ∨ last = .workflowError) ∧
      (last = .workflowEnd ↔ (∃ v, o = .ok v) ∨
        ∃ m g args inner i f, .ask m .completed g args inner (some (i, .error f)) ∈ ds) ∧
      (∀ m b' p inner e, .part m b' p inner e ∈ ds →
        ∀ d, Occurs d inner → m₀ < d.moment ∧ d.moment < m₁) ∧
      ∀ {m b' id w c' inner e}, Occurs (.part m b' (.visit id w c') inner e) ds →
        ∃ k, m < k ∧ Visit.Grammar R σ.plan N b' (σ.scene w c') id k inner := by
  have hinside := fun d hd m l hocc => h.said_inside σ.says_plan (d := d) hd (m := m) (l := l) hocc
  cases h.execute σ.tame_plan hc hs hclock with
  | @mk m₀ i j k c asks inner close x _ hm ha hk hv hclose =>
    obtain ⟨hj, ⟨last, arg, hmem, hsaid, hname, hiff⟩, hno⟩ := hclose.last
    have hc' : Deed.Calm inner := hc.inner (List.mem_cons_of_mem _
      (List.mem_append_right _ List.mem_cons_self))
    refine ⟨c, m₀, j, last, arg, rfl, ?_, ?_, hinside, hname, ?_, ?_, fun hd =>
      Setup.visits_grammar h hc hs hleft hd⟩
    · exact List.mem_cons_of_mem _ (List.mem_append_right _ (List.mem_cons_of_mem _ hmem))
    · rw [Deed.said_remark, Deed.said_append, Deed.said_part, ha.said, List.nil_append]
      exact congrArg (List.cons _) hsaid
    · -- No handler of the end is called before the last hooks.
      have hbefore : ∀ {m g args inner' i' f}, .ask m .completed g args inner' (some (i', .error f)) ∈
          Deed.remark m₀ (.emits .workflowStart [.workflow r, .context c]) :: (asks ++
            .part k b (.visit ((R.store (n + 3)).get r).entrypoint r c) inner (some (i, x)) ::
              close) →
          Deed.ask m .completed g args inner' (some (i', .error f)) ∈ close := by
        intro m g args inner' i' f hd
        simp only [List.mem_cons, List.mem_append, reduceCtorEq, false_or] at hd
        rcases hd with hd | hd
        · obtain ⟨_, _, _, _, heq⟩ := ha.mem hd
          cases heq
        · exact hd
      rw [hiff]
      refine or_congr_right ⟨?_, ?_⟩
      · rintro ⟨m, g, args, inner', i', f, hd⟩
        exact ⟨m, g, args, inner', i', f, List.mem_cons_of_mem _ (List.mem_append_right _
          (List.mem_cons_of_mem _ hd))⟩
      · rintro ⟨m, g, args, inner', i', f, hd⟩
        exact ⟨m, g, args, inner', i', f, hbefore hd⟩
    · intro m' b' p inner' e hd d hocc
      simp only [List.mem_cons, List.mem_append, reduceCtorEq, false_or] at hd
      rcases hd with hd | hd | hd
      · obtain ⟨_, _, _, _, heq⟩ := ha.mem hd
        cases heq
      · cases hd
        have h₁ := (hv.occurs hocc).1
        have h₂ := hv.before σ.tame_plan hleft hc' hocc
        exact ⟨by omega, by omega⟩
      · exact absurd hd (hno _ _ _ _ _)

/-! ## Runs in which no goal is pursued -/

/-- Only visits may be called. -/
def visitsOnly : Conduct := .calling fun p => ∃ id w c, p = .visit id w c

theorem calls_visitsOnly (id : String) (w : Ref .workflow) (c : Ref .context) (s : Store) :
    visitsOnly.calls (.visit id w c) s := ⟨id, w, c, rfl⟩

/-- Only visits occur in what calls nothing else, if user code calls nothing else. -/
theorem visits_occur (hrun : σ.desk.call.Obey visitsOnly) {x : Outline α} {e : Ending α}
    (h : Account R σ.desk.call σ.plan N b n (.now x) ds e)
    (hx : (x.erase .unknown).Obeys visitsOnly (R.store n)) {m b' : Nat} {p : Procedure}
    {inner : List Deed} {e' : Ending Value} (hd : Occurs (.part m b' p inner e') ds) :
    ∃ id w c, p = .visit id w c := by
  refine h.occurring (C := visitsOnly) (fun _ _ _ => trivial) hrun ?_ hx hd
  rintro _ i j ⟨id, w, c, rfl⟩ -
  rw [Setup.plan, erase_visit_with]
  exact Scene.visit_obeys (Conduct.permits_calling _) (Handlers.obey_unknown _)
    calls_visitsOnly fun _ _ _ _ _ _ _ => trivial

theorem says_outline {P : Remark → Prop} (hP : ∀ l, l.OfWorkflow = true ∨ l.OfVisit = true → P l)
    (r : Ref .workflow) (input : Value) (metadata : Entries Value) :
    (outline r input metadata).Says P := by
  open Outline in
  refine Says.bind (says_plain _) fun x => Says.bind (says_emit (hP _ (Or.inl rfl))) fun _ =>
    Says.bind (says_plain _).attempt fun o => ?_
  cases o with
  | ok v =>
    exact Outline.Says.bind (Outline.says_plain _) fun _ =>
      Outline.Says.bind (Outline.says_emit (hP _ (Or.inl rfl))) fun _ =>
        Outline.Says.bind (Outline.says_each (fun _ => Outline.Says.bind (Outline.says_call _ _ _)
          fun _ => Outline.says_pure ()) _) fun _ => Outline.Says.bind (Outline.says_plain _)
            fun _ => Outline.says_pure _
  | error f =>
    exact Outline.Says.bind (Outline.says_plain _) fun _ =>
      Outline.Says.bind (Outline.says_say (hP _ (Or.inr rfl))) fun _ =>
        Outline.Says.bind (Outline.says_plain _) fun _ =>
          Outline.Says.bind (Outline.says_emit (hP _ (Or.inl rfl))) fun _ =>
            Outline.Says.bind (Outline.says_each (fun _ => Outline.Says.bind
              (Outline.says_call _ _ _) fun _ => Outline.says_pure ()) _) fun _ => trivial

/-- **No abort comes out of user code** that only calls visits, if none comes out of its own. -/
theorem calm_of_tame (hσ : σ.desk.call.Tame) (hrun : σ.desk.call.Obey visitsOnly) {x : Outline α}
    {e : Ending α} (h : Account R σ.desk.call σ.plan N b n (.now x) ds e) (hx : x.Tame)
    (hmild : x.Says Remark.Mild) (hobeys : ∀ s, (x.erase .unknown).Obeys visitsOnly s) :
    Deed.Calm ds := by
  refine h.calm hσ σ.tame_plan hx fun hd => ?_
  refine h.said_deep (P := Remark.Mild) (h.said_all (s := .now _) hmild) (fun hp => ?_) hd
  obtain ⟨id, w, c, rfl⟩ := visits_occur hrun h (hobeys _) hp
  exact Visit.Outlined.says_visit fun _ => Remark.OfVisit.mild

theorem obeys_outline (r : Ref .workflow) (input : Value) (metadata : Entries Value) :
    ∀ s, ((outline r input metadata).erase .unknown).Obeys visitsOnly s := by
  intro s
  rw [erase_outline]
  exact execute_obeys (Conduct.permits_calling _) .unknown (Handlers.obey_unknown _) r
    (fun id => calls_visitsOnly id r) input metadata

theorem mild_outline (r : Ref .workflow) (input : Value) (metadata : Entries Value) :
    (outline r input metadata).Says Remark.Mild := by
  refine says_outline ?_ _ _ _
  rintro l (hl | hl)
  · cases l <;> trivial
  · exact Remark.OfVisit.mild hl

/-- User code that returns nothing at once. -/
def promptSetup : Setup := ⟨default, fun _ _ => .done .null, default, none, [], [], none⟩

theorem prompt_promptSetup : promptSetup.desk.call.Prompt := fun _ _ => ⟨.null, rfl⟩

theorem tame_promptSetup : promptSetup.desk.call.Tame := fun _ _ => trivial

theorem obey_promptSetup : promptSetup.desk.call.Obey visitsOnly := fun _ _ _ => trivial

/-- A workflow that runs a task and then looks for one that is missing, with one retry. -/
def lostStore : Store :=
  let work : Step := ⟨"work", .task ⟨"t", none, none, none, 0, .int 0⟩, .one "lost"⟩
  let lost : Step := ⟨"lost", .task ⟨"missing", none, none, none, 1, .int 0⟩, .none⟩
  { Store.empty with
    workflows := #[⟨"w", "w", [("work", work), ("lost", lost)], "work", .null, .null, .null, [], [],
      []⟩]
    tasks := #[default]
    taskRegistry := [("t", ⟨0⟩)] }

def lostRun : Run promptSetup.body :=
  .launched _ lostStore (execute promptSetup.desk.call ⟨0⟩ .null [])

/-- The run has ended, and nothing was left behind. -/
theorem lostRun_over : (lostRun.moment 66).isOpen 0 = false ∧
    (∀ n ≤ 66, (lostRun.moment n).detached = []) ∧
    ∀ n, ∃ moment, (lostRun.store n).now = .ok moment := by
  refine ⟨by decide +kernel, fun n hn => ?_, Run.launched_store promptSetup.body lostStore
    (execute promptSetup.desk.call ⟨0⟩ .null []) (k := 65) (P := fun s => ∃ moment, s.now = .ok moment)
    ?_ fun n hn => ?_⟩
  · have h : ((List.range 67).all fun n => (lostRun.moment n).detached.isEmpty) = true := by
      decide +kernel
    simpa using List.all_eq_true.1 h n (List.mem_range.2 (Nat.lt_succ_of_le hn))
  · exact Option.isNone_iff_eq_none.1 (by decide +kernel)
  · have h : ((List.range 67).all fun n => (lostRun.store n).now.toOption.isSome) = true := by
      decide +kernel
    have hn := List.all_eq_true.1 h n (List.mem_range.2 (Nat.lt_succ_of_le hn))
    cases hnow : (lostRun.store n).now with
    | ok moment => exact ⟨moment, hnow⟩
    | error c =>
      rw [hnow] at hn
      cases hn

theorem lostRun_account : ∃ ds t o, Account lostRun promptSetup.desk.call promptSetup.plan 66 0 1
    (.now (outline ⟨0⟩ .null [])) ds (some (t, o)) ∧ Deed.Calm ds ∧ ∀ P, Deed.Sound P ds := by
  obtain ⟨ds, t, o, h⟩ := Run.launched_account promptSetup.desk.call (Setup.erase_plan promptSetup)
    (x := outline ⟨0⟩ .null []) (erase_outline _ _ _ _) (N := 66)
    (by decide) lostRun_over.1
  exact ⟨ds, t, o, h, calm_of_tame (σ := promptSetup) tame_promptSetup obey_promptSetup h
    (tame_outline _ _ _) (mild_outline _ _ _) (obeys_outline _ _ _),
    h.prompt_sound prompt_promptSetup⟩

theorem lifecycle_lost : ∃ ds t o, Account lostRun promptSetup.desk.call promptSetup.plan 66 0 1
      (.now (outline ⟨0⟩ .null [])) ds (some (t, o)) ∧ ∃ c last arg,
    (Deed.said ds).filter Remark.OfWorkflow =
      [.emits .workflowStart [.workflow ⟨0⟩, .context c],
        .emits last [.workflow ⟨0⟩, .context c, arg]] := by
  obtain ⟨-, hleft, hclock⟩ := lostRun_over
  obtain ⟨ds, t, o, h, hc, hs⟩ := lostRun_account
  obtain ⟨c, -, -, last, arg, -, -, hsaid, -⟩ :=
    lifecycle (σ := promptSetup) h hc (hs _) hclock hleft
  exact ⟨ds, t, o, h, c, last, arg, hsaid⟩

end Workflow

end Conductor
