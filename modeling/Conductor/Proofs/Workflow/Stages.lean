import Conductor.Proofs.Account.Asking

/-!
# The stages of a visit

An account of a visit goes through stages: the step is looked up, its start is told, the step does
what it does, and then either its failure is noted, told and recovered from, or its result is
recorded, told and followed. `Account.visit` says at which stage an account has arrived and what
each stage consists of, if no hook fails and no abort comes out of user code.
-/

namespace Conductor

open Outline (plain emit)
open Visit (Scene)
open Visit.Outlined

variable {body : Procedure → Routine Value} {R : Run body} {plan : Procedure → Outline Value}
  {N : Nat} {α β : Type} {b n t k : Nat} {ds : List Deed}

/-- Behind a handler the failure is none of the aborts, if none comes out of user code. -/
theorem Account.attempt_calm {run : Handlers} {x : Outline α} {g : Except Failure α → Outline β}
    {e : Ending β} (h : Account R run plan N b n (.now (x.attempt >>= g)) ds e)
    (hplan : ∀ p, (plan p).Tame) (hx : x.Tame) (hc : Deed.Calm ds) :
    (∃ ds₁ t o ds₂, Account R run plan N b n (.now x) ds₁ (some (t, o)) ∧ Tame o ∧
        Account R run plan N b t (.now (g o)) ds₂ e ∧ ds = ds₁ ++ ds₂) ∨
      (Account R run plan N b n (.now x) ds none ∧ e = none) := by
  rcases h.attempt with h' | ⟨t, f, h', hf, rfl⟩ | h'
  · exact Or.inl h'
  · have := (tame_error f).1 (h'.tame hplan hx hc rfl)
    rw [hf] at this
    cases this
  · exact Or.inr h'

/-! ## Pauses -/

/-- A delay cannot be waited for: it is too large for a floating-point number. -/
def Number.TooLong (d : Number) (c : Cause) : Prop := d.isPositive = true ∧ d.toBinary64 = .error c

/-- How a pause goes: it is over at some time, goes on, or is impossible. -/
theorem Account.pause {run : Handlers} {d : Number} {e : Ending Unit}
    (h : Account R run plan N b n (.now (plain (Scene.pause d))) ds e) :
    ds = [] ∧ ((e = none ∨ ∃ t, n ≤ t ∧ e = some (t, .ok ())) ∨
      ∃ t f, n ≤ t ∧ e = some (t, .error f) ∧ d.TooLong f.cause) := by
  unfold Scene.pause at h
  split at h
  · next hpos =>
    cases hd : d.toBinary64 with
    | ok x =>
      rw [hd] at h
      cases h with
      | stop => exact ⟨rfl, Or.inl (Or.inl rfl)⟩
      | sleep hn ht h =>
        cases h with
        | rest => exact ⟨rfl, Or.inl (Or.inl rfl)⟩
        | resume hn' _ _ _ h =>
          obtain ⟨rfl, rfl⟩ := h.done_iff
          exact ⟨rfl, Or.inl (Or.inr ⟨_, Nat.le_of_succ_le hn', rfl⟩)⟩
      | skip hw | fork hw | forking hw => cases hw
    | error c =>
      rw [hd] at h
      have hr : (Routine.ofExcept (.error c) >>= Routine.sleep).eval (R.store n) =
          some (2, .error ⟨(R.store n).nextFailure, c⟩,
            { R.store n with nextFailure := (R.store n).nextFailure + 1 }) :=
        Routine.eval_bind_error (Routine.eval_raise c _)
      obtain ⟨rfl, rfl | ⟨rfl, -⟩⟩ := h.straight hr
      · exact ⟨rfl, Or.inl (Or.inl rfl)⟩
      · exact ⟨rfl, Or.inr ⟨_, _, Nat.le_add_right n 2, rfl, hpos, hd⟩⟩
  · obtain ⟨rfl, rfl⟩ := h.done_iff
    exact ⟨rfl, Or.inl (Or.inr ⟨n, le_rfl, rfl⟩)⟩

/-! ## The beginning -/

namespace Visit

/-- The beginning of a visit at a moment: the step is found, and its start is told before the step
does anything. -/
structure Begins (R : Run body) (σ : Scene) (id : String) (n : Nat) (step : Step) (k : Nat)
    (ds : List Deed) : Prop where
  known : ((R.store n).get σ.workflow).step id = .ok step
  later : n + 3 < k
  told : ∃ asks, ds = .remark (n + 3) (.emits .stepStart (σ.stepArguments id)) :: asks ∧
    Deed.Calls (.hook .stepStart) (σ.stepArguments id) ((R.store (n + 3)).hooks.under .stepStart)
      asks

/-- The end of what a step does: a note is made, and then told before anything else. -/
structure Closes (R : Run body) (l : Remark) (change : Store → Store) (name : HookName)
    (args : List Value) (n k : Nat) (ds : List Deed) : Prop where
  changed : R.store (n + 2) = change (R.store n)
  later : n + 2 < k
  told : ∃ asks, ds = .remark n l :: .remark (n + 2) (.emits name args) :: asks ∧
    Deed.Calls (.hook name) args ((R.store (n + 2)).hooks.under name) asks

variable {σ : Scene} {id : String} {step : Step} {f : Failure} {v : Value}

theorem Begins.said (h : Begins R σ id n step k ds) :
    Deed.said ds = [.emits .stepStart (σ.stepArguments id)] := by
  obtain ⟨asks, rfl, ha⟩ := h.told
  rw [Deed.said_remark, ha.said]

theorem Closes.said {l : Remark} {change : Store → Store} {name : HookName} {args : List Value}
    (h : Closes R l change name args n k ds) : Deed.said ds = [l, .emits name args] := by
  obtain ⟨asks, rfl, ha⟩ := h.told
  rw [Deed.said_remark, Deed.said_remark, ha.said]

/-- How far the beginning of a visit has come. -/
inductive Arrived (R : Run body) (σ : Scene) (id : String) (n : Nat) :
    List Deed → Ending (String × Step) → Prop where
  | unknown {cause : Cause} {t x : Nat}
    (h : ((R.store n).get σ.workflow).step id = .error cause) :
    Arrived R σ id n [] (some (t, .error ⟨x, cause⟩))
  | early : Arrived R σ id n [] none
  | telling {ds : List Deed} {step : Step}
    (hk : ((R.store n).get σ.workflow).step id = .ok step)
    (hs : Deed.said ds = [.emits .stepStart (σ.stepArguments id)]) (hb : Deed.Bare ds) :
    Arrived R σ id n ds none
  | begun {ds : List Deed} {step : Step} {k : Nat} (h : Begins R σ id n step k ds) :
    Arrived R σ id n ds (some (k, .ok (((R.store n).get σ.workflow).id, step)))

end Visit

namespace Account

variable {σ : Scene} {id : String} {step : Step} {f : Failure} {v : Value}

theorem arrive {e : Ending (String × Step)}
    (h : Account R σ.call plan N b n (.now (Visit.Outlined.arrive σ id)) ds e)
    (hs : Deed.Sound (· = .hook .stepStart) ds) : Visit.Arrived R σ id n ds e := by
  cases hstep : ((R.store n).get σ.workflow).step id with
  | error cause =>
    have hr : (do
        let w ← Routine.read fun s => s.get σ.workflow
        let step ← .ofExcept (w.step id)
        .alter fun s => s.enter σ.context id
        pure (w.id, step) : Routine (String × Step)).eval (R.store n) =
        some (3, .error ⟨(R.store n).nextFailure, cause⟩,
          { R.store n with nextFailure := (R.store n).nextFailure + 1 }) := by
      refine (Routine.eval_bind (Routine.eval_read _ _)).trans ?_
      rw [hstep]
      exact congrArg (Option.map _) (Routine.eval_bind_error (Routine.eval_raise cause _))
    obtain ⟨rfl, rfl | ⟨rfl, -⟩⟩ := h.straight_bind_error hr
    · exact .early
    · exact .unknown hstep
  | ok step =>
    have hr : (do
        let w ← Routine.read fun s => s.get σ.workflow
        let step ← .ofExcept (w.step id)
        .alter fun s => s.enter σ.context id
        pure (w.id, step) : Routine (String × Step)).eval (R.store n) =
        some (3, .ok (((R.store n).get σ.workflow).id, step), (R.store n).enter σ.context id) := by
      refine (Routine.eval_bind (Routine.eval_read _ _)).trans ?_
      rw [hstep]
      rfl
    rcases h.straight_bind hr with ⟨rfl, rfl⟩ | ⟨-, h⟩
    · exact .early
    · rcases h.bind with ⟨ds₁, t, u, ds₂, h₁, h₂, rfl⟩ | ⟨t, f, h₁, rfl⟩ | ⟨h₁, rfl⟩
      · obtain ⟨asks, rfl, hsaid, he | ⟨t', ht, he, hc⟩⟩ := h₁.emission_sound hs.append.1
        · cases he
        · cases he
          rcases h₂.straight_bind (Routine.eval_alter _ _) with ⟨rfl, rfl⟩ | ⟨-, h₂⟩
          · exact .telling hstep (by simp [hsaid]) (h₁.emission_bare.append Deed.bare_nil)
          · obtain ⟨rfl, rfl⟩ := h₂.done_iff
            rw [List.append_nil]
            exact .begun ⟨hstep, by omega, asks, rfl, hc⟩
      · obtain ⟨asks, rfl, hsaid, he | ⟨t', ht, he, hc⟩⟩ := h₁.emission_sound hs
        · cases he
        · cases he
      · obtain ⟨asks, rfl, hsaid, -⟩ := h₁.emission_sound hs
        exact .telling hstep (by simp [hsaid]) h₁.emission_bare

/-- A note is made and told before the rest goes on. -/
theorem closing {run : Handlers} {l : Remark} {change : Store → Store} {name : HookName}
    {args : List Value} {x : Outline α} {e : Ending α}
    (h : Account R run plan N b n (.now (Outline.say l >>= fun _ => plain (.alter change) >>= fun _ =>
      emit name args >>= fun _ => x)) ds e) (hs : Deed.Sound (· = .hook name) ds) :
    (∃ pre k ds', Visit.Closes R l change name args n k pre ∧
        Account R run plan N b k (.now x) ds' e ∧ ds = pre ++ ds') ∨
      Deed.said ds <+: [l, .emits name args] ∧ Deed.Bare ds ∧ e = none := by
  obtain ⟨ds, h₀, rfl⟩ := h.say
  rcases h₀.straight_bind (Routine.eval_alter _ _) with ⟨rfl, rfl⟩ | ⟨hst, h₀⟩
  · exact Or.inr ⟨List.prefix_append [l] _, Deed.bare_nil.cons_remark, rfl⟩
  · rcases h₀.bind with ⟨ds₁, t, u, ds₂, h₁, h₂, rfl⟩ | ⟨t, f, h₁, rfl⟩ | ⟨h₁, rfl⟩
    · obtain ⟨asks, rfl, -, he | ⟨t', ht, he, hc⟩⟩ := h₁.emission_sound hs.tail.append.1
      · cases he
      · cases he
        exact Or.inl ⟨_ :: _ :: asks, t, ds₂, ⟨hst, ht, asks, rfl, hc⟩, h₂, rfl⟩
    · obtain ⟨asks, rfl, -, he | ⟨t', ht, he, -⟩⟩ := h₁.emission_sound hs.tail
      · cases he
      · cases he
    · obtain ⟨asks, rfl, hsaid, -⟩ := h₁.emission_sound hs.tail
      exact Or.inr ⟨by simp [hsaid], h₁.emission_bare.cons_remark, rfl⟩

end Account

/-! ## Recovery -/

/-- The inline retries that a step has. -/
def Step.retries (step : Step) : Int :=
  match step.kind with
  | .task t => t.retries
  | _ => 0

namespace Visit

variable {σ : Scene} {id : String} {step : Step} {f : Failure} {v : Value}

/-- How the recovery from a failure goes: the failure is passed on, or the step is run again in a
copy of the workflow in which it has one retry less. -/
inductive Recovered (R : Run body) (plan : Procedure → Outline Value) (N b : Nat) (σ : Scene)
    (id : String) (step : Step) (f : Failure) (n : Nat) : List Deed → Ending Value → Prop where
  | telling {ds : List Deed} (hs : Deed.said ds <+:
      [.notes σ.context id f, .emits .stepError (σ.stepArguments id ++ [.failure f])])
    (hb : Deed.Bare ds) : Recovered R plan N b σ id step f n ds none
  | gaveUp {pre : List Deed} {k : Nat} {e : Ending Value} (hc : Closes R (.notes σ.context id f)
        (fun s => s.noteError σ.context id f) .stepError (σ.stepArguments id ++ [.failure f]) n k pre)
      (hno : step.retries ≤ 0) (he : e = none ∨ ∃ t, k ≤ t ∧ e = some (t, .error f)) :
    Recovered R plan N b σ id step f n pre e
  | waiting {pre : List Deed} {k : Nat} {e : Ending Value} {t : TaskStep}
      (hc : Closes R (.notes σ.context id f) (fun s => s.noteError σ.context id f) .stepError
        (σ.stepArguments id ++ [.failure f]) n k pre) (ht : step.kind = .task t)
      (hpos : 0 < t.retries)
      (he : e = none ∨ ∃ m g, k ≤ m ∧ e = some (m, .error g) ∧ t.retryDelay.TooLong g.cause) :
    Recovered R plan N b σ id step f n pre e
  | again {pre inner : List Deed} {k m : Nat} {e : Ending Value} {t : TaskStep}
      {w : Ref .workflow} (hc : Closes R (.notes σ.context id f)
        (fun s => s.noteError σ.context id f) .stepError (σ.stepArguments id ++ [.failure f]) n k pre)
      (ht : step.kind = .task t) (hpos : 0 < t.retries) (hm : k ≤ m)
      (hw : (w, R.store (m + 2)) = (R.store m).alloc
        (((R.store m).get σ.workflow).withStep (Scene.fewer step t)))
      (hs : R.store (m + 3) = R.store (m + 2))
      (h : Account R σ.call plan N b (m + 3) (.now (plan (.visit id w σ.context))) inner e) :
    Recovered R plan N b σ id step f n
      (pre ++ [.part (m + 2) b (.visit id w σ.context) inner e]) e

/-- How the way on from a success goes: the result is recorded and told, and then the successors of
the step have the word. -/
inductive Settled (R : Run body) (plan : Procedure → Outline Value) (N b : Nat) (σ : Scene)
    (id : String) (step : Step) (v : Value) (n : Nat) : List Deed → Ending Value → Prop where
  | telling {ds : List Deed} (hs : Deed.said ds <+:
      [.records σ.context id v, .emits .stepEnd (σ.stepArguments id ++ [v])])
    (hb : Deed.Bare ds) : Settled R plan N b σ id step v n ds none
  | following {pre ds : List Deed} {k : Nat} {e : Ending Value}
      (hc : Closes R (.records σ.context id v) (fun s => s.record σ.context id v) .stepEnd
        (σ.stepArguments id ++ [v]) n k pre)
      (h : Account R σ.call plan N b k (.now (plain (σ.follow step.next v))) ds e) :
    Settled R plan N b σ id step v n (pre ++ ds) e

end Visit

namespace Account

variable {σ : Scene} {id : String} {step : Step} {f : Failure} {v : Value}

theorem recover {workflow : String} {e : Ending Value}
    (h : Account R σ.call plan N b n (.now (Visit.Outlined.recover σ workflow id step f)) ds e)
    (hs : Deed.Sound (· = .hook .stepError) ds) :
    Visit.Recovered R plan N b σ id step f n ds e := by
  simp only [Visit.Outlined.recover, regroup, bind_assoc] at h
  rcases h.closing hs with ⟨pre, k, ds', hc, hrest, rfl⟩ | ⟨hsaid, hb, rfl⟩
  · -- A failure that is passed on is passed on as it is.
    have hgive : ∀ {m : String}, Account R σ.call plan N b k (.now (plain (Routine.log .debug
        Visit.logger m (Scene.extras workflow id step) >>= fun _ => .fail f) >>= fun w =>
          plain (.call (.visit id w σ.context)))) ds' e → step.retries ≤ 0 →
        Visit.Recovered R plan N b σ id step f n (pre ++ ds') e := by
      intro m hrest hno
      obtain ⟨rfl, he⟩ := hrest.straight_bind_error (Routine.eval_bind (Routine.eval_alter _ _))
      rw [List.append_nil]
      exact .gaveUp hc hno (he.imp (fun he => he) fun he => ⟨_, Nat.le_add_right k _, he.1⟩)
    cases hkind : step.kind with
    | task t =>
      rw [hkind] at hrest
      dsimp only at hrest
      split at hrest
      · next hpos =>
        simp only [Outline.plain_bind, bind_assoc] at hrest
        rcases hrest.straight_bind (Routine.eval_alter _ _) with ⟨rfl, rfl⟩ | ⟨-, hrest⟩
        · rw [List.append_nil]
          exact .waiting hc hkind hpos (Or.inl rfl)
        · rcases hrest.bind with ⟨ds₁, m, u, ds₂, h₁, h₂, rfl⟩ | ⟨m, g, h₁, rfl⟩ | ⟨h₁, rfl⟩
          · obtain ⟨rfl, (he | ⟨m', hm, he⟩) | ⟨m', g, -, he, -⟩⟩ := h₁.pause
            · cases he
            · cases he
              rcases h₂.straight_bind (Routine.eval_modifyGet _ _) with ⟨rfl, rfl⟩ | ⟨hst, h₂⟩
              · exact .waiting (by simpa using hc) hkind hpos (Or.inl rfl)
              · rcases h₂.ran with ⟨rfl, rfl, -⟩ | ⟨inner, -, hst', rfl, h₃⟩
                · exact .waiting (by simpa using hc) hkind hpos (Or.inl rfl)
                · exact .again hc hkind hpos (by omega) (by rw [hst]) hst' h₃
            · cases he
          · obtain ⟨rfl, (he | ⟨m', hm, he⟩) | ⟨m', g', hm, he, hd⟩⟩ := h₁.pause
            · cases he
            · cases he
            · cases he
              exact .waiting (by simpa using hc) hkind hpos
                (Or.inr ⟨m, g, by omega, rfl, hd⟩)
          · obtain ⟨rfl, -⟩ := h₁.pause
            exact .waiting (by simpa using hc) hkind hpos (Or.inl rfl)
      · next hneg => exact hgive hrest (by rw [Step.retries, hkind]; exact not_lt.1 hneg)
    | parallel | condition | map | retry | unknown =>
      rw [hkind] at hrest
      exact hgive hrest (by rw [Step.retries, hkind])
  · exact .telling hsaid hb

theorem settle {e : Ending Value}
    (h : Account R σ.call plan N b n (.now (Visit.Outlined.settle σ id step v)) ds e)
    (hs : Deed.Sound (· = .hook .stepEnd) ds) :
    Visit.Settled R plan N b σ id step v n ds e := by
  rcases h.closing hs with ⟨pre, k, ds', hc, hrest, rfl⟩ | ⟨hsaid, hb, rfl⟩
  · exact .following hc hrest
  · exact .telling hsaid hb

end Account

/-! ## Visits -/

namespace Visit

/-- How far a visit has come. -/
inductive Stages (R : Run body) (plan : Procedure → Outline Value) (N b : Nat) (σ : Scene)
    (id : String) (n : Nat) : List Deed → Ending Value → Prop where
  | unknown {cause : Cause} {t x : Nat}
    (h : ((R.store n).get σ.workflow).step id = .error cause) :
    Stages R plan N b σ id n [] (some (t, .error ⟨x, cause⟩))
  | early : Stages R plan N b σ id n [] none
  | telling {ds : List Deed} {step : Step}
    (hk : ((R.store n).get σ.workflow).step id = .ok step)
    (hs : Deed.said ds = [.emits .stepStart (σ.stepArguments id)]) (hb : Deed.Bare ds) :
    Stages R plan N b σ id n ds none
  | running {pre ds : List Deed} {step : Step} {k : Nat} (hb : Begins R σ id n step k pre)
    (h : Account R σ.call plan N b k (.now (dispatch σ step)) ds none) :
    Stages R plan N b σ id n (pre ++ ds) none
  | failed {pre ds ds' : List Deed} {step : Step} {k t : Nat} {f : Failure} {e : Ending Value}
    (hb : Begins R σ id n step k pre)
    (h : Account R σ.call plan N b k (.now (dispatch σ step)) ds (some (t, .error f)))
    (hr : Recovered R plan N b σ id step f t ds' e) :
    Stages R plan N b σ id n (pre ++ (ds ++ ds')) e
  | returned {pre ds ds' : List Deed} {step : Step} {k t : Nat} {v : Value} {e : Ending Value}
    (hb : Begins R σ id n step k pre)
    (h : Account R σ.call plan N b k (.now (dispatch σ step)) ds (some (t, .ok v)))
    (hs : Settled R plan N b σ id step v t ds' e) :
    Stages R plan N b σ id n (pre ++ (ds ++ ds')) e

end Visit

/-- **The stages of a visit.** -/
theorem Account.visit {σ : Scene} {id : String} {e : Ending Value}
    (h : Account R σ.call plan N b n (.now (Visit.Outlined.visit σ id)) ds e)
    (hplan : ∀ p, (plan p).Tame) (hc : Deed.Calm ds) (hs : Deed.Sound Use.IsHook ds) :
    Visit.Stages R plan N b σ id n ds e := by
  rcases h.bind with ⟨pre, k, x, ds₂, h₁, h₂, rfl⟩ | ⟨t, f, h₁, rfl⟩ | ⟨h₁, rfl⟩
  · generalize he : some (k, Except.ok x) = e₁ at h₁
    cases h₁.arrive hs.append.1.hook with
    | unknown | early | telling => cases he
    | begun hb =>
      cases he
      rcases h₂.attempt_calm hplan (tame_dispatch σ _) hc.append.2 with
        ⟨ds, t, o, ds', hd, -, hrest, rfl⟩ | ⟨hd, rfl⟩
      · cases o with
        | ok v => exact .returned hb hd (hrest.settle hs.append.2.append.2.hook)
        | error f => exact .failed hb hd (hrest.recover hs.append.2.append.2.hook)
      · exact .running hb hd
  · generalize he : some (t, Except.error f) = e₁ at h₁
    cases h₁.arrive hs.hook with
    | unknown hk => cases he; exact .unknown hk
    | early | telling | begun => cases he
  · generalize he : none = e₁ at h₁
    cases h₁.arrive hs.hook with
    | early => exact .early
    | telling hk hsaid hb => exact .telling hk hsaid hb
    | unknown | begun => cases he

/-! ## Runs of workflows -/

namespace Workflow

/-- The last hooks of a run: of its end after a success, of its failure after a failure. -/
inductive Closes (R : Run body) (r : Ref .workflow) (c : Ref .context) (n : Nat) :
    Except Failure Value → Nat → List Deed → Except Failure Value → Prop where
  /-- All handlers of the end have been called. -/
  | completed {v output : Value} {m : Nat} {asks tail : List Deed} (hm : n < m)
    (ha : Deed.Calls (.hook .workflowEnd) [.workflow r, .context c, output]
      ((R.store m).hooks.under .workflowEnd) asks)
    (ht : Deed.Calls .completed [output, .context c] ((R.store (n + 7)).get r).onCompleted tail) :
    Closes R r c n (.ok v) m
      (.remark m (.emits .workflowEnd [.workflow r, .context c, output]) :: (asks ++ tail))
      (.ok (.context c))
  /-- A handler of the end has failed. -/
  | unfinished {v output : Value} {m m' t : Nat} {asks tail inner : List Deed}
    {hs : List (Ref .callable)} {h : Ref .callable} {g : Failure} (hm : n < m)
    (ha : Deed.Calls (.hook .workflowEnd) [.workflow r, .context c, output]
      ((R.store m).hooks.under .workflowEnd) asks)
    (hpre : hs <+: ((R.store (n + 7)).get r).onCompleted)
    (ht : Deed.Calls .completed [output, .context c] hs tail)
    (hg : .ask m' .completed h [output, .context c] inner (some (t, .error g)) ∈ tail) :
    Closes R r c n (.ok v) m
      (.remark m (.emits .workflowEnd [.workflow r, .context c, output]) :: (asks ++ tail)) (.error g)
  /-- All handlers of failures have been called. -/
  | failed {f : Failure} {m : Nat} {moment : Int} {asks tail : List Deed} (hm : n + 3 ≤ m)
    (hnote : R.store (n + 3) = ((R.store n).close c moment).noteError c failureKey f)
    (ha : Deed.Calls (.hook .workflowError) [.workflow r, .context c, .failure f]
      ((R.store m).hooks.under .workflowError) asks)
    (ht : Deed.Calls .failed [.failure f, .context c] ((R.store (n + 3)).get r).onError tail) :
    Closes R r c n (.error f) m (.remark (n + 1) (.notes c failureKey f) ::
      .remark m (.emits .workflowError [.workflow r, .context c, .failure f]) :: (asks ++ tail))
      (.error f)
  /-- A handler of failures has failed. -/
  | defeated {f : Failure} {m m' t : Nat} {moment : Int} {asks tail inner : List Deed}
    {hs : List (Ref .callable)} {h : Ref .callable} {g : Failure} (hm : n + 3 ≤ m)
    (hnote : R.store (n + 3) = ((R.store n).close c moment).noteError c failureKey f)
    (ha : Deed.Calls (.hook .workflowError) [.workflow r, .context c, .failure f]
      ((R.store m).hooks.under .workflowError) asks)
    (hpre : hs <+: ((R.store (n + 3)).get r).onError)
    (ht : Deed.Calls .failed [.failure f, .context c] hs tail)
    (hg : .ask m' .failed h [.failure f, .context c] inner (some (t, .error g)) ∈ tail) :
    Closes R r c n (.error f) m (.remark (n + 1) (.notes c failureKey f) ::
      .remark m (.emits .workflowError [.workflow r, .context c, .failure f]) :: (asks ++ tail))
      (.error g)

/-- A run that is over: its start is told first, then the entrypoint is visited in a fresh context,
and the last hooks follow. -/
inductive Over (R : Run body) (run : Handlers) (plan : Procedure → Outline Value) (N b : Nat)
    (r : Ref .workflow) (n : Nat) : List Deed → Except Failure Value → Prop where
  | mk {m i j k : Nat} {c : Ref .context} {asks inner close : List Deed}
    {x o : Except Failure Value} (hm : n < m)
    (ha : Deed.Calls (.hook .workflowStart) [.workflow r, .context c]
      ((R.store m).hooks.under .workflowStart) asks) (hk : m < k)
    (hv : Account R run plan N b (k + 1)
      (.now (plan (.visit ((R.store (n + 3)).get r).entrypoint r c))) inner (some (i, x)))
    (hclose : Closes R r c i x j close o) :
    Over R run plan N b r n (.remark m (.emits .workflowStart [.workflow r, .context c]) ::
      (asks ++ .part k b (.visit ((R.store (n + 3)).get r).entrypoint r c) inner (some (i, x)) ::
        close)) o

theorem Over.visited {run : Handlers} {r : Ref .workflow} {o : Except Failure Value}
    (h : Over R run plan N b r n ds o) : ∃ m c inner e,
      .part m b (.visit ((R.store (n + 3)).get r).entrypoint r c) inner e ∈ ds := by
  cases h with
  | mk => exact ⟨_, _, _, _, List.mem_cons_of_mem _ (List.mem_append_right _ List.mem_cons_self)⟩

end Workflow

namespace Account

variable {run : Handlers} {r : Ref .workflow} {c : Ref .context} {f : Failure} {v : Value}
  {o : Except Failure Value}

theorem closeFailed (h : Account R run plan N b n (.now (Workflow.Outlined.closeFailed r c f)) ds
      (some (t, o))) (hclock : ∃ moment, (R.store n).now = .ok moment)
    (hs : Deed.Sound Use.IsHook ds) : ∃ m, Workflow.Closes R r c n (.error f) m ds o := by
  obtain ⟨moment, hnow⟩ := hclock
  rcases h.straight_bind (Routine.eval_query_ok hnow) with ⟨-, he⟩ | ⟨hst, h₁⟩
  · cases he
  obtain ⟨ds₁, h₂, rfl⟩ := h₁.say
  rw [Outline.plain_bind, bind_assoc] at h₂
  rcases h₂.straight_bind (Routine.eval_alter _ _) with ⟨-, he⟩ | ⟨hnote, h₃⟩
  · cases he
  rcases h₃.straight_bind (i := 4) rfl with ⟨-, he⟩ | ⟨-, h₄⟩
  · cases he
  rw [hst] at hnote
  rcases h₄.bind with ⟨ds₂, m, u, ds₃, h₅, h₆, rfl⟩ | ⟨m, g, h₅, he⟩ | ⟨-, he⟩
  · obtain ⟨asks, rfl, -, he | ⟨m', -, he, ha⟩⟩ := h₅.emission_sound hs.tail.append.1.hook
    · cases he
    cases he
    rcases h₆.bind with ⟨ds₄, m', u, ds₅, h₇, h₈, rfl⟩ | ⟨m', g, h₇, he⟩ | ⟨-, he⟩
    · obtain ⟨rfl, he⟩ := h₈.fail_iff
      cases he
      rw [List.append_nil]
      cases h₇.rings with
      | complete _ ht => exact ⟨_, .failed (by omega) hnote ha ht⟩
    · cases he
      cases h₇.rings with
      | failed _ hpre ht hg => exact ⟨_, .defeated (by omega) hnote ha hpre ht hg⟩
    · cases he
  · obtain ⟨_, -, -, he' | ⟨_, -, he', -⟩⟩ := h₅.emission_sound hs.tail.hook <;> cases he'
  · cases he

theorem closeCompleted (h : Account R run plan N b n
      (.now (Workflow.Outlined.closeCompleted r c v)) ds (some (t, o)))
    (hclock : ∃ moment, (R.store (n + 2)).now = .ok moment) (hs : Deed.Sound Use.IsHook ds) :
    ∃ m, Workflow.Closes R r c n (.ok v) m ds o := by
  obtain ⟨moment, hnow⟩ := hclock
  rw [Workflow.Outlined.closeCompleted, Outline.plain_bind, bind_assoc] at h
  rcases h.straight_bind (Routine.eval_alter _ _) with ⟨-, he⟩ | ⟨-, h₁⟩
  · cases he
  rw [Outline.plain_bind, bind_assoc] at h₁
  rcases h₁.straight_bind (Routine.eval_query_ok hnow) with ⟨-, he⟩ | ⟨-, h₂⟩
  · cases he
  rcases h₂.straight_bind (i := 4) rfl with ⟨-, he⟩ | ⟨hst, h₃⟩
  · cases he
  have hw : (R.store (n + 7)).get r = ((R.store (n + 3)).close c moment).get r :=
    congrArg (fun s : Store => s.get r) hst
  rcases h₃.bind with ⟨ds₂, m, u, ds₃, h₅, h₆, rfl⟩ | ⟨m, g, h₅, he⟩ | ⟨-, he⟩
  · obtain ⟨asks, rfl, -, he | ⟨m', -, he, ha⟩⟩ := h₅.emission_sound hs.append.1.hook
    · cases he
    cases he
    rcases h₆.bind with ⟨ds₄, m', u, ds₅, h₇, h₈, rfl⟩ | ⟨m', g, h₇, he⟩ | ⟨-, he⟩
    · rcases h₈.straight_bind (i := 4) rfl with ⟨-, he⟩ | ⟨-, h₉⟩
      · cases he
      obtain ⟨rfl, he⟩ := h₉.done_iff
      cases he
      rw [List.append_nil]
      cases h₇.rings with
      | complete _ ht => exact ⟨_, .completed (by omega) ha (by rw [hw]; exact ht)⟩
    · cases he
      cases h₇.rings with
      | failed _ hpre ht hg => exact ⟨_, .unfinished (by omega) ha (by rw [hw]; exact hpre) ht hg⟩
    · cases he
  · obtain ⟨_, -, -, he' | ⟨_, -, he', -⟩⟩ := h₅.emission_sound hs.hook <;> cases he'
  · cases he

/-- **A run of a workflow that is over** has told its start first and its end or failure last. -/
theorem execute {input : Value} {metadata : Entries Value}
    (h : Account R run plan N b n (.now (Workflow.outline r input metadata)) ds (some (t, o)))
    (hplan : ∀ p, (plan p).Tame) (hc : Deed.Calm ds) (hs : Deed.Sound Use.IsHook ds)
    (hclock : ∀ i, ∃ moment, (R.store i).now = .ok moment) :
    Workflow.Over R run plan N b r n ds o := by
  obtain ⟨moment, hnow⟩ := hclock n
  rw [Workflow.outline, Workflow.openContext, bind_assoc, Outline.plain_bind, bind_assoc] at h
  rcases h.straight_bind (Routine.eval_query_ok hnow) with ⟨-, he⟩ | ⟨-, h₁⟩
  · cases he
  rw [Outline.plain_bind, bind_assoc] at h₁
  rcases h₁.bind with ⟨ds₁, m, c, ds₂, hopen, h₂, rfl⟩ | ⟨m, f, hopen, he⟩ | ⟨-, he⟩
  · -- Which context it is does not matter any more.
    obtain ⟨rfl, he | ⟨he, -⟩⟩ := hopen.straight (Routine.eval_modifyGet _ _)
    · cases he
    obtain rfl : m = n + 1 + 2 := congrArg Prod.fst (Option.some.inj he)
    clear he hopen
    rcases h₂.straight_bind (i := 3) rfl with ⟨-, he⟩ | ⟨-, h₃⟩
    · cases he
    rw [List.nil_append] at hc hs ⊢
    rcases h₃.bind with ⟨ds₁, m, u, ds₂, h₄, h₅, rfl⟩ | ⟨m, g, h₄, he⟩ | ⟨-, he⟩
    · obtain ⟨asks, rfl, -, he | ⟨m', hm', he, ha⟩⟩ := h₄.emission_sound hs.append.1.hook
      · cases he
      cases he
      rcases h₅.attempt_calm hplan (Outline.tame_part _) hc.append.2 with
        ⟨ds₃, i, x, ds₄, h₆, -, h₇, rfl⟩ | ⟨-, he⟩
      · have hs₇ := hs.append.2.append.2
        rcases h₆.ran with ⟨-, he, -⟩ | ⟨inner, -, -, rfl, h₈⟩
        · cases he
        have hclose : ∃ j, Workflow.Closes R r c i x j ds₄ o := by
          cases x with
          | ok v => exact h₇.closeCompleted (hclock _) hs₇
          | error f => exact h₇.closeFailed (hclock _) hs₇
        obtain ⟨j, hclose⟩ := hclose
        exact .mk (by omega) ha hm' h₈ hclose
      · cases he
    · obtain ⟨_, -, -, he' | ⟨_, -, he', -⟩⟩ := h₄.emission_sound hs.hook <;> cases he'
    · cases he
  · obtain ⟨-, he' | ⟨he', -⟩⟩ := hopen.straight (Routine.eval_modifyGet _ _) <;> cases he'
  · cases he

end Account

end Conductor
