import Conductor.Proofs.Store.Writing
import Conductor.Proofs.Workflow.Lifecycle

/-!
# How failures go through visits and runs

A failure of a step's own work is noted under the step, told, and then passed on as it is, unless the
step has a retry left and is visited again. A failure that comes from behind a step is no concern of
the step any more: the visit ends with it at the very moment at which the successor has failed.

A step's own work fails with what came out of a part that it waited for, or with a failure of its own
(`Visit.Passes`), so that a failure keeps its identity through any nesting, up to the end of the run,
where it is noted for the whole run and given to hooks and handlers.

**Theorem (`Workflow.failures_pass`).** All of this holds of every visit in a run of a workflow and of
the run itself.

One name can stand for two things: the failed tries of a retry step are noted under names that are
made from the name of its target, and nothing keeps the step itself from having such a name
(`Step.Apart`, `errors_of_returned`).
-/

namespace Conductor

open Outline (plain emit)
open Visit (Scene)
open Visit.Outlined

variable {body : Procedure → Routine Value} {R : Run body} {plan : Procedure → Outline Value}
  {N : Nat} {α β : Type} {b n t k : Nat} {ds ds' : List Deed}

/-- No failed try of the step is noted under its own id. -/
def Step.Apart (step : Step) (id : String) : Prop :=
  ∀ (r : RetryStep) (a : Nat), step.kind = .retry r → id ≠ s!"{r.target}_attempt_{a}"

namespace Visit

/-- What comes of the way on from a result. Nobody but the successors has a part in it, and a
failure leaves when it has come out of one of them. -/
inductive Follows (σ : Scene) (next : Successor) (v : Value) (b n : Nat) :
    List Deed → Ending Value → Prop where
  | early : Follows σ next v b n [] none
  | last (h : next = .none) : Follows σ next v b n [] (some (n, .ok v))
  | one {step : String} {inner : List Deed} {e : Ending Value} (h : next = .one step) :
    Follows σ next v b n [.part n b (.visit step σ.workflow σ.context) inner e] e
  | nobody {t : Nat} {w : Value} (h : next = .fan []) : Follows σ next v b n [] (some (t, .ok w))
  | fan {steps : List String} {inner : List Deed} {x : Ending (List Value)} {e : Ending Value}
    (h : next = .fan steps)
    (hparts : ∀ d ∈ inner, ∃ step ∈ steps, ∃ b' inner' e',
      d = .part n b' (.visit step σ.workflow σ.context) inner' e')
    (hfail : ∀ t f, e = some (t, .error f) ↔ x = some (t, .error f))
    (hsource : ∀ t f, x = some (t, .error f) → ∃ step ∈ steps,
      Deed.Ended [.fork n .all inner x] (.visit step σ.workflow σ.context) (.error f)) :
    Follows σ next v b n [.fork n .all inner x] e

/-- What comes of a failure of a step's own work once it has been told: without retries left it is
passed on as it is, else the step is visited again, unless the wait before that is impossible. -/
inductive Recovers (σ : Scene) (id : String) (step : Step) (f : Failure) (b : Nat) :
    List Deed → Ending Value → Prop where
  | early : Recovers σ id step f b [] none
  | passed {t : Nat} (h : step.retries ≤ 0) : Recovers σ id step f b [] (some (t, .error f))
  | stuck {t : Nat} {g : Failure} {s : TaskStep} (h : step.kind = .task s) (hpos : 0 < s.retries)
    (hlong : s.retryDelay.TooLong g.cause) : Recovers σ id step f b [] (some (t, .error g))
  | again {i : Nat} {w : Ref .workflow} {inner : List Deed} {e : Ending Value}
    (h : 0 < step.retries) :
    Recovers σ id step f b [.part i b (.visit id w σ.context) inner e] e

/-- What is said when a step's own work has ended. -/
def closing (σ : Scene) (id : String) : Except Failure Value → List Remark
  | .ok v => [.records σ.context id v, .emits .stepEnd (σ.stepArguments id ++ [v])]
  | .error f => [.notes σ.context id f, .emits .stepError (σ.stepArguments id ++ [.failure f])]

/-- How a visit deals with failures, at whichever stage it is. -/
inductive Handles (R : Run body) (plan : Procedure → Outline Value) (N b : Nat) (σ : Scene)
    (id : String) (n : Nat) : List Deed → Ending Value → Prop where
  /-- There is no such step. -/
  | unknown {cause : Cause} {t x : Nat}
    (h : ((R.store n).get σ.workflow).step id = .error cause) :
    Handles R plan N b σ id n [] (some (t, .error ⟨x, cause⟩))
  /-- The step's own work has not ended. -/
  | underway {ds : List Deed} (hnot : ∀ step, ((R.store n).get σ.workflow).step id = .ok step →
      step.Apart id → ∀ f, .notes σ.context id f ∉ Deed.said ds) :
    Handles R plan N b σ id n ds none
  /-- The end of the step's own work is being told. -/
  | closing {start own close : List Deed} {step : Step} {k m : Nat} {o : Except Failure Value}
    (hb : Begins R σ id n step k start)
    (hd : Account R σ.call plan N b k (.now (dispatch σ step)) own (some (m, o)))
    (hnot : step.Apart id → ∀ f, .notes σ.context id f ∉ Deed.said own)
    (hs : Deed.said close <+: Visit.closing σ id o) :
    Handles R plan N b σ id n (start ++ (own ++ close)) none
  /-- The step's own work has failed. -/
  | raised {start own close rest : List Deed} {step : Step} {k m j : Nat} {f : Failure}
    {e : Ending Value} (hb : Begins R σ id n step k start)
    (hd : Account R σ.call plan N b k (.now (dispatch σ step)) own (some (m, .error f)))
    (hpass : Passes R σ step k own f)
    (hnot : step.Apart id → ∀ g, .notes σ.context id g ∉ Deed.said own)
    (hclose : Ends R σ id (.error f) m j close) (hrest : Recovers σ id step f b rest e)
    (hsaid : Deed.said (close ++ rest) = Visit.closing σ id (.error f)) :
    Handles R plan N b σ id n (start ++ (own ++ (close ++ rest))) e
  /-- The step's own work has returned. -/
  | returned {start own close rest : List Deed} {step : Step} {k m j : Nat} {v : Value}
    {e : Ending Value} (hb : Begins R σ id n step k start)
    (hd : Account R σ.call plan N b k (.now (dispatch σ step)) own (some (m, .ok v)))
    (hclear : NeedsAll step → ∀ p f, ¬Deed.Ended own p (.error f))
    (hnot : step.Apart id → ∀ g, .notes σ.context id g ∉ Deed.said own)
    (hclose : Ends R σ id (.ok v) m j close) (hrest : Follows σ step.next v b j rest e)
    (hsaid : Deed.said (close ++ rest) = Visit.closing σ id (.ok v)) :
    Handles R plan N b σ id n (start ++ (own ++ (close ++ rest))) e

end Visit

namespace Account

variable {run : Handlers} {σ : Scene}

/-- The way on from a result. -/
theorem followed {next : Successor} {v : Value} {e : Ending Value}
    (h : Account R run plan N b n (.now (plain (σ.follow next v))) ds e) :
    Visit.Follows σ next v b n ds e := by
  cases next with
  | none =>
    obtain ⟨rfl, rfl⟩ := h.done_iff
    exact .last rfl
  | one step =>
    rcases h.ran with ⟨rfl, rfl, -⟩ | ⟨inner, -, -, rfl, -⟩
    · exact .early
    · exact .one rfl
  | fan steps =>
    -- Behind the fork only the list of the results is made.
    have hlist : ∀ {vs : List Value} {n : Nat} {ds : List Deed} {e : Ending Value},
        Account R run plan N b n (.now (plain (.modifyGet fun s => s.newList vs))) ds e →
        ds = [] ∧ (e = none ∨ ∃ t w, e = some (t, .ok w)) := by
      intro vs n ds e h
      obtain ⟨rfl, he | ⟨he, -⟩⟩ := h.straight (Routine.eval_modifyGet _ _)
      · exact ⟨rfl, Or.inl he⟩
      · exact ⟨rfl, Or.inr ⟨_, _, he⟩⟩
    have hparts : ∀ {first : Nat} {dss es}, ∀ d ∈ Deed.parts n first (σ.side steps) dss es,
        ∃ step ∈ steps, ∃ b' inner' e',
          d = .part n b' (.visit step σ.workflow σ.context) inner' e' := by
      intro first dss es d hd
      obtain ⟨i, rfl⟩ := Deed.mem_parts.1 hd
      obtain ⟨step, hstep, hp⟩ := List.mem_map.1 (List.get_mem (σ.side steps) i)
      exact ⟨step, hstep, _, _, _, by rw [← hp]⟩
    rw [Scene.follow, Scene.gather, Outline.plain_bind] at h
    rcases h.sides (w := .all (σ.side steps)) rfl with
      ⟨hnil, h'⟩ | ⟨dss, es, m, x, ds', rfl, -, hl, h'⟩ | ⟨rfl, rfl | ⟨dss, es, rfl⟩⟩
    · obtain rfl : steps = [] := List.map_eq_nil_iff.1 hnil
      obtain ⟨rfl, rfl | ⟨t, w, rfl⟩⟩ := hlist h'
      · exact .early
      · exact .nobody rfl
    · cases x with
      | ok vs =>
        obtain ⟨rfl, he⟩ := hlist h'
        refine .fan rfl hparts (fun t f => iff_of_false ?_ (by simp)) (by simp)
        rintro rfl
        rcases he with he | ⟨_, _, he⟩ <;> cases he
      | error g =>
        obtain ⟨rfl, rfl⟩ := h'.fail_iff
        refine .fan rfl hparts (fun t f => ?_) fun t f hx => ?_
        · simp
        · cases hx
          obtain ⟨i, s, -, hi⟩ := hl.error
          obtain ⟨step, hstep, hp⟩ := List.mem_map.1 (List.get_mem (σ.side steps) i)
          exact ⟨step, hstep, Deed.ended_fork.2 ⟨i, hp, s, hi⟩⟩
    · exact .early
    · exact .fan rfl hparts (fun t f => iff_of_false (by simp) (by simp)) (by simp)

end Account

namespace Visit

variable {σ : Scene} {id : String}

theorem Ends.said {o : Except Failure Value} (h : Ends R σ id o n k ds) :
    Deed.said ds = closing σ id o := by
  cases o with
  | ok v => exact Closes.said h
  | error f => exact Closes.said h

theorem Follows.said {next : Successor} {v : Value} {e : Ending Value}
    (h : Follows σ next v b n ds e) : Deed.said ds = [] := by
  cases h <;> rfl

theorem Recovers.said {step : Step} {f : Failure} {e : Ending Value}
    (h : Recovers σ id step f b ds e) : Deed.said ds = [] := by
  cases h <;> rfl

/-- A step's own work notes nothing under the step's own name. -/
theorem not_noted {step : Step} {e : Ending Value}
    (h : Account R σ.call plan N b n (.now (dispatch σ step)) ds e) (hid : step.Apart id)
    (f : Failure) : .notes σ.context id f ∉ Deed.said ds := by
  intro hl
  obtain ⟨r, a, hk, -, hname⟩ := h.said_all (P := Utters σ step) (says_dispatch step) _ hl
  exact hid r a hk hname

/-- **How a visit deals with failures**, by its stages. -/
theorem Stages.handles {e : Ending Value} (h : Stages R plan N b σ id n ds e)
    (hplan : ∀ p, (plan p).Tame) (hc : Deed.Calm ds) : Handles R plan N b σ id n ds e := by
  cases h with
  | unknown h => exact .unknown h
  | early => exact .underway fun _ _ _ _ => List.not_mem_nil
  | telling hk hs _ => exact .underway fun _ _ _ f => by rw [hs]; simp
  | running hb hd =>
    refine .underway fun step hk hid f => ?_
    cases hb.known.symm.trans hk
    rw [Deed.said_append, hb.said]
    simpa using not_noted hd hid f
  | @failed start own ds' step k m f _ hb hd hr =>
    have hpass := hd.dispatch_passes hplan hc.append.2.append.1
    -- Behind the end of the step's own work nothing is said any more.
    have hraised : ∀ {close rest : List Deed} {j : Nat}, Ends R σ id (.error f) m j close →
        Recovers σ id step f b rest e →
        Handles R plan N b σ id n (start ++ (own ++ (close ++ rest))) e :=
      fun hcl hr => .raised hb hd hpass (not_noted hd) hcl hr
        (by rw [Deed.said_append, hcl.said, hr.said, List.append_nil])
    cases hr with
    | telling hs _ => exact .closing hb hd (not_noted hd) hs
    | gaveUp hcl hno he =>
      rw [← List.append_nil ds']
      obtain rfl | ⟨i, -, rfl⟩ := he
      · exact hraised hcl .early
      · exact hraised hcl (.passed hno)
    | waiting hcl ht hpos he =>
      rw [← List.append_nil ds']
      obtain rfl | ⟨i, g, -, rfl, hlong⟩ := he
      · exact hraised hcl .early
      · exact hraised hcl (.stuck ht hpos hlong)
    | again hcl ht hpos hm hw hst hrun =>
      exact hraised hcl (.again (by rw [Step.retries, ht]; exact hpos))
  | returned hb hd hs =>
    cases hs with
    | telling hs _ => exact .closing hb hd (not_noted hd) hs
    | following hcl hf =>
      have hrest := hf.followed
      refine .returned hb hd (hd.dispatch_clears hplan hc.append.2.append.1) (not_noted hd) hcl hrest
        ?_
      rw [Deed.said_append, Ends.said (o := .ok _) hcl, hrest.said, List.append_nil]

end Visit

/-! ## Runs -/

namespace Store

/-- What is noted under a name in a context. -/
def noted (s : Store) (c : Ref .context) (name : String) : Option Value :=
  Entries.get? (s.get (s.get c).errors) name

theorem noted_noteError {s : Store} {c : Ref .context} (h : s.Has (.dict (s.get c).errors))
    (name : String) (f : Failure) : (s.noteError c name f).noted c name = some (.failure f) := by
  have hput : (s.noteError c name f).get (s.get c).errors =
      Entries.insert (s.get (s.get c).errors) name (.failure f) := getD_setIfInBounds_self h
  show Entries.get? ((s.noteError c name f).get (s.get c).errors) name = _
  rw [hput]
  exact Entries.get?_insert_self _ _ _

theorem errors_close (s : Store) (c : Ref .context) (moment : Int) :
    ((s.close c moment).get c).errors = (s.get c).errors :=
  congrArg (fun x => x.2.2.2.1) (s.parts_update_context c c (f := fun x =>
    { x with endTime := some moment }) fun _ => rfl)

end Store

namespace Workflow

/-- How a run deals with the failure with which the visit of its entrypoint has ended at a moment:
the failure is noted for the whole run, the hooks are told of it, and it is given to all handlers of
failures, which come last. -/
structure Reports (R : Run body) (r : Ref .workflow) (c : Ref .context) (i : Nat) (f : Failure)
    (ds : List Deed) : Prop where
  changed : ∃ moment, R.store (i + 3) = ((R.store i).close c moment).noteError c failureKey f
  noted : (R.store i).Has (.dict ((R.store i).get c).errors) →
    (R.store (i + 3)).noted c failureKey = some (.failure f)
  told : ∃ m > i, .remark m (.emits .workflowError [.workflow r, .context c, .failure f]) ∈ ds
  handled : ∃ asks, asks <:+ ds ∧
    Deed.Calls .failed [.failure f, .context c] ((R.store (i + 3)).get r).onError asks

theorem Reports.of_suffix {r : Ref .workflow} {c : Ref .context} {i : Nat} {f : Failure}
    (h : Reports R r c i f ds) (hs : ds <:+ ds') : Reports R r c i f ds' := by
  obtain ⟨m, hm, hmem⟩ := h.told
  obtain ⟨asks, hasks, hcalls⟩ := h.handled
  exact ⟨h.changed, h.noted, ⟨m, hm, hs.subset hmem⟩, asks, hasks.trans hs, hcalls⟩

theorem Closes.reports {r : Ref .workflow} {c : Ref .context} {f : Failure} {m : Nat}
    {o : Except Failure Value} (h : Closes R r c n (.error f) m ds o)
    (hs : Deed.Sound (· = .failed) ds) : o = .error f ∧ Reports R r c n f ds := by
  cases h with
  | @failed _ _ moment asks tail hm hnote ha ht =>
    refine ⟨rfl, ⟨moment, hnote⟩, fun hhas => ?_, ?_, ?_⟩
    · have hhas' : ((R.store n).close c moment).Has
          (.dict (((R.store n).close c moment).get c).errors) := by
        rw [Store.errors_close]
        exact hhas
      rw [hnote]
      exact Store.noted_noteError hhas' failureKey f
    · exact ⟨m, by omega, List.mem_cons_of_mem _ List.mem_cons_self⟩
    · exact ⟨tail, List.suffix_append_of_suffix (List.suffix_refl _) |>.trans
        ((List.suffix_cons _ _).trans (List.suffix_cons _ _)), ht⟩
  | defeated _ _ _ _ _ hg =>
    exact absurd (.here (List.mem_cons_of_mem _ (List.mem_cons_of_mem _
      (List.mem_append_right _ hg)))) (hs.asked rfl)

variable {σ : Setup} {R : Run σ.body}

/-- **How failures go through a run.** Every visit notes and tells the failure of its step's own work,
and that one only, and passes it on as it is when no retry is left; what comes from behind a step
leaves its visit as it is. A run whose handlers of its end do not fail ends with a failure if and only
if the visit of the entrypoint has, and it is the same; the failure has been noted for the whole run,
told, and given to all handlers of failures. -/
theorem failures_pass {r : Ref .workflow} {input : Value} {metadata : Entries Value}
    {e : Ending Value}
    (h : Account R σ.desk.call σ.plan N b n (.now (outline r input metadata)) ds e)
    (hc : Deed.Calm ds) (hs : Deed.Sound Use.IsHook ds)
    (hclock : ∀ i, ∃ moment, (R.store i).now = .ok moment)
    (hhandlers : Deed.Sound (fun u => u = .completed ∨ u = .failed) ds) :
    (∀ {m b' id w c inner e'}, Occurs (.part m b' (.visit id w c) inner e') ds →
      inner = [] ∧ e' = none ∨
        ∃ k, m < k ∧ Visit.Handles R σ.plan N b' (σ.scene w c) id k inner e') ∧
    ∀ t o, e = some (t, o) → ∃ c m inner i x,
      .part m b (.visit ((R.store (n + 3)).get r).entrypoint r c) inner (some (i, x)) ∈ ds ∧
      (∀ f, o = .error f ↔ x = .error f) ∧ ∀ f, x = .error f → Reports R r c i f ds := by
  refine ⟨fun hd => ?_, fun t o he => ?_⟩
  · rcases h.part hd with ⟨k, hk, hv⟩ | hnot
    · have hc' := hc.inside hd
      exact Or.inr ⟨k, hk, (Account.visit hv σ.tame_plan hc' (hs.inside hd)).handles σ.tame_plan hc'⟩
    · exact Or.inl hnot
  · subst he
    cases h.execute σ.tame_plan hc hs hclock with
    | @mk m₀ i j k c asks inner close x _ hm ha hk hv hclose =>
      have hpart : .part k b (.visit ((R.store (n + 3)).get r).entrypoint r c) inner (some (i, x)) ∈
          Deed.remark m₀ (.emits .workflowStart [.workflow r, .context c]) :: (asks ++
            .part k b (.visit ((R.store (n + 3)).get r).entrypoint r c) inner (some (i, x)) ::
              close) :=
        List.mem_cons_of_mem _ (List.mem_append_right _ List.mem_cons_self)
      have hhandlers' : Deed.Sound (fun u => u = .completed ∨ u = .failed) close :=
        hhandlers.tail.append.2.tail
      refine ⟨c, k, inner, i, x, hpart, ?_⟩
      cases x with
      | ok v =>
        refine ⟨fun f => iff_of_false ?_ nofun, nofun⟩
        rintro rfl
        cases hclose with
        | unfinished _ _ _ _ hg =>
          exact hhandlers'.asked (Or.inl rfl) (.here (List.mem_cons_of_mem _
            (List.mem_append_right _ hg)))
      | error f =>
        obtain ⟨rfl, hreports⟩ := hclose.reports (hhandlers'.mono fun _ => Or.inr)
        refine ⟨fun g => by simp, fun g hg => ?_⟩
        cases hg
        exact hreports.of_suffix ((List.suffix_cons _ _).trans ((List.suffix_append _ _).trans
          (List.suffix_cons _ _)))

theorem failures_pass_lost : ∃ ds t o, Account lostRun promptSetup.desk.call promptSetup.plan 66 0 1
      (.now (outline ⟨0⟩ .null [])) ds (some (t, o)) ∧ ∃ c m inner i x,
    .part m 0 (.visit ((lostRun.store (1 + 3)).get (⟨0⟩ : Ref .workflow)).entrypoint ⟨0⟩ c) inner
        (some (i, x)) ∈ ds ∧
      (∀ f, o = .error f ↔ x = .error f) ∧ ∀ f, x = .error f → Reports lostRun ⟨0⟩ c i f ds := by
  obtain ⟨-, -, hclock⟩ := lostRun_over
  obtain ⟨ds, t, o, h, hc, hs⟩ := lostRun_account
  exact ⟨ds, t, o, h,
    (failures_pass (σ := promptSetup) h hc (hs _) hclock (hs _)).2 t o rfl⟩

/-- User code that fails the first time it is called. -/
def flakySetup : Setup :=
  ⟨default, fun _ _ => .get fun s =>
    if s.nextFailure = 0 then .raise (.raised .custom "first") else .done .null,
    default, none, [], [], none⟩

/-- A workflow with a retry step whose id is the name of the first failed try of its target. -/
def namesakeStore : Store :=
  let retry : Step :=
    ⟨"work_attempt_0", .retry ⟨"work", 1, some (.int 0), some (.int 1), none⟩, .none⟩
  let work : Step := ⟨"work", .task ⟨"t", none, none, none, 0, .int 0⟩, .none⟩
  { Store.empty with
    workflows := #[⟨"w", "w", [("work_attempt_0", retry), ("work", work)], "work_attempt_0", .null,
      .null, .null, [], [], []⟩]
    tasks := #[default]
    taskRegistry := [("t", ⟨0⟩)] }

def namesakeRun : Run flakySetup.body :=
  .launched _ namesakeStore (execute flakySetup.desk.call ⟨0⟩ .null [])

/-- The own work of the retry step returns: the run returns, and the result of the step is recorded.
Yet a failure is noted under its id. -/
theorem errors_of_returned : ((namesakeRun.moment 74).outcome? 0).map Except.isOk = some true ∧
    (Entries.get? ((namesakeRun.store 74).get
      ((namesakeRun.store 74).get (⟨0⟩ : Ref .context)).steps) "work_attempt_0").isSome = true ∧
    ((namesakeRun.store 74).noted ⟨0⟩ "work_attempt_0").isSome = true := by
  decide +kernel

end Workflow

end Conductor
