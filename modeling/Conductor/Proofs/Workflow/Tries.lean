import Conductor.Proofs.Account.Turns
import Conductor.Proofs.Workflow.Attempts

/-!
# The tries of a retry step

A retry step runs its target, and after a failure notes it, asks whether to go on, pauses and tries
again, as long as there are tries left. `Visit.Try` is what one round of this consists of, and
`Visit.Rounds` says of a list of them that the step consists of these, one after another: each but the
last has failed and is followed by the next after a pause (`Visit.Try.Again`), and how the last one is
left decides what the step ends with (`Visit.Try.Ends`).

**Theorem (`retry_tries`).** This is what a retry step does. If it is not over at the horizon, then it is
doing something, is waiting for its target or for an answer, or sleeps in a pause.
-/

namespace Conductor

open Outline (plain)
open Visit (Scene)
open Visit.Outlined (dispatch tryTarget retryFrom wantsRetry)

/-! ## Rounds -/

namespace Visit

/-- One round of a retry step: a run of the target, and the question whether to go on if it is asked,
with the user code that is asked. -/
structure Try where
  start : Nat
  inner : List Deed
  ending : Ending Value
  asked : Option (Ref .callable × List Deed × Ending Value)

namespace Try

variable {body : Procedure → Routine Value}

/-- The question behind a failure that has been noted. -/
def question (i t : Nat) (f : Failure) (x : Try) : List Deed :=
  x.asked.toList.map fun (q, inner, e) => .ask (t + 2) .retrying q [.failure f, .int i] inner e

/-- What is done in a round, by its number. -/
def deeds (σ : Scene) (r : RetryStep) (b i : Nat) (x : Try) : List Deed :=
  .part x.start b (.visit r.target σ.workflow σ.context) x.inner x.ending ::
    match x.ending with
    | some (t, .error f) => .remark t (.notes σ.context s!"{r.target}_attempt_{i}" f) ::
      x.question i t f
    | _ => []

/-- The target has failed at a moment, and the failure is noted under the number of the try before
anybody else does anything. -/
structure Fails (R : Run body) (σ : Scene) (r : RetryStep) (b i : Nat) (x : Try) (t : Nat)
    (f : Failure) : Prop where
  ended : x.ending = some (t, .error f)
  awake : R.Awake b t (t + 2)
  noted : R.store (t + 2) = (R.store t).noteError σ.context s!"{r.target}_attempt_{i}" f

/-- Whether there is a question does not matter to the failure. -/
theorem Fails.asking {R : Run body} {σ : Scene} {r : RetryStep} {b i t : Nat} {x : Try} {f : Failure}
    (h : x.Fails R σ r b i t f) (asked : Option (Ref .callable × List Deed × Ending Value)) :
    ({ x with asked := asked } : Try).Fails R σ r b i t f := ⟨h.ended, h.awake, h.noted⟩

theorem deeds_asking {σ : Scene} {r : RetryStep} {b i t : Nat} {x : Try} {f : Failure}
    (h : x.ending = some (t, .error f)) (hx : x.asked = none)
    (asked : Option (Ref .callable × List Deed × Ending Value)) :
    ({ x with asked := asked } : Try).deeds σ r b i =
      x.deeds σ r b i ++ ({ x with asked := asked } : Try).question i t f := by
  simp only [deeds, h, question, hx, Option.toList_none, List.map_nil, List.cons_append,
    List.nil_append]

/-- The user code of the step has been asked, with this ending. -/
def Answered (r : RetryStep) (x : Try) (e : Ending Value) : Prop :=
  ∃ q inner, r.shouldRetry = some q ∧ x.asked = some (q, inner, e)

/-- At a moment nothing speaks against another try: nothing is to be asked, or the answer is truthy. -/
inductive Agreed (R : Run body) (r : RetryStep) (x : Try) (t : Nat) : Nat → Prop
  | unasked (h : r.shouldRetry = none) (hx : x.asked = none) : Agreed R r x t (t + 2)
  | answered {s : Nat} {v : Value} (h : x.Answered r (some (s, .ok v)))
    (hv : (R.store s).isTruthy v = true) : Agreed R r x t (s + 1)

/-- The try has failed, and the next one begins at a moment, behind a pause. -/
def Again (R : Run body) (σ : Scene) (r : RetryStep) (b i : Nat) (x : Try) (m : Nat) : Prop :=
  ∃ t f u d, x.Fails R σ r b i t f ∧ i < r.maxRetries.toNat ∧ x.Agreed R r t u ∧
    σ.wait r i = .ok d ∧ R.Awake b u (u + 3) ∧ R.Pauses b (u + 3) d m

/-- How the last try leaves the step. -/
inductive Settles (R : Run body) (σ : Scene) (step : String) (r : RetryStep) (b i : Nat) (x : Try) :
    Nat → Except Failure Value → Prop
  /-- The target has succeeded. -/
  | value {t : Nat} {v : Value} (h : x.ending = some (t, .ok v)) (hx : x.asked = none) :
    Settles R σ step r b i x t (.ok v)
  /-- No try is left. -/
  | spent {t : Nat} {f : Failure} (h : x.Fails R σ r b i t f) (hx : x.asked = none)
    (hi : i = r.maxRetries.toNat) : Settles R σ step r b i x (t + 2) (.error f)
  /-- The answer is falsy. -/
  | refused {t s : Nat} {f : Failure} {v : Value} (h : x.Fails R σ r b i t f)
    (hi : i < r.maxRetries.toNat) (ha : x.Answered r (some (s, .ok v)))
    (hv : (R.store s).isTruthy v = false) : Settles R σ step r b i x (s + 1) (.error f)
  /-- The question has failed. -/
  | raised {t s : Nat} {f g : Failure} (h : x.Fails R σ r b i t f) (hi : i < r.maxRetries.toNat)
    (ha : x.Answered r (some (s, .error g))) : Settles R σ step r b i x (s + 2)
      (.error ⟨(R.store s).nextFailure, .retryPredicateFailed step g.message⟩)

/-- The step fails because the wait behind the last try is impossible, though another try is left and
nothing speaks against it. -/
def Stuck (R : Run body) (σ : Scene) (r : RetryStep) (b i : Nat) (x : Try)
    (o : Except Failure Value) : Prop :=
  ∃ t u f g, x.Fails R σ r b i t f ∧ i < r.maxRetries.toNat ∧ x.Agreed R r t u ∧
    σ.WaitFails r i g.cause ∧ o = .error g

/-- The try goes on, in a run of the target or in the question behind it. -/
def Going (r : RetryStep) (x : Try) : Prop :=
  x.ending = none ∨ (∃ t f, x.ending = some (t, .error f)) ∧ x.Answered r none

end Try

/-- What a retry step does from a moment on, beginning with the try of a given number. -/
structure Rounds {body : Procedure → Routine Value} (R : Run body) (N : Nat) (σ : Scene) (step : String)
    (r : RetryStep) (b first n : Nat) (ds : List Deed) (e : Ending Value) (l : List Try) : Prop where
  deeds : ds = (l.zipIdx first).flatMap fun x => x.1.deeds σ r b x.2
  start : ∀ x, l.head? = some x → x.start = n
  again : ∀ i x y, l[i]? = some x → l[i + 1]? = some y → x.Again R σ r b (first + i) y.start
  ends : ∀ t o, e = some (t, o) → ∃ i x, l.length = i + 1 ∧ l[i]? = some x ∧
    (x.Settles R σ step r b (first + i) t o ∨ x.Stuck R σ r b (first + i) o)
  going : e = none → R.HasTurn b N ∨ (R.moment N).Resting b ∨
    ∃ i x, l.length = i + 1 ∧ l[i]? = some x ∧ x.Going r

namespace Rounds

variable {body : Procedure → Routine Value} {R : Run body} {N : Nat} {σ : Scene} {step : String}
  {r : RetryStep} {b i n m t : Nat} {ds : List Deed} {e : Ending Value} {x : Try} {l : List Try}

/-- Nothing has begun at the horizon. -/
theorem nil (h : R.HasTurn b N) : Rounds R N σ step r b i n [] none [] where
  deeds := rfl
  start := by simp
  again := by simp
  ends := by simp
  going _ := Or.inl h

/-- The last try. -/
theorem last (hn : x.start = n)
    (hends : ∀ t o, e = some (t, o) → x.Settles R σ step r b i t o ∨ x.Stuck R σ r b i o)
    (hgoing : e = none → R.HasTurn b N ∨ (R.moment N).Resting b ∨ x.Going r) :
    Rounds R N σ step r b i n (x.deeds σ r b i) e [x] where
  deeds := by simp
  start := by simpa using hn
  again := by simp
  ends t o he := ⟨0, x, rfl, rfl, hends t o he⟩
  going he := (hgoing he).imp id (Or.imp id fun h => ⟨0, x, rfl, rfl, h⟩)

/-- A try that is followed by others. -/
theorem cons (hn : x.start = n) (hx : x.Again R σ r b i m)
    (h : Rounds R N σ step r b (i + 1) m ds e l) :
    Rounds R N σ step r b i n (x.deeds σ r b i ++ ds) e (x :: l) where
  deeds := by rw [h.deeds, List.zipIdx_cons, List.flatMap_cons]
  start y hy := by
    cases hy
    exact hn
  again j y z hy hz := by
    cases j with
    | zero =>
      cases hy
      rw [h.start z (by rw [List.head?_eq_getElem?]; exact hz)]
      exact hx
    | succ j =>
      rw [← Nat.succ_add_eq_add_succ]
      exact h.again j y z hy hz
  ends t o he := by
    obtain ⟨j, y, hj, hy, hends⟩ := h.ends t o he
    refine ⟨j + 1, y, by rw [List.length_cons, hj], hy, ?_⟩
    rw [← Nat.succ_add_eq_add_succ]
    exact hends
  going he := by
    refine (h.going he).imp id (Or.imp id ?_)
    rintro ⟨j, y, hj, hy, hgoing⟩
    exact ⟨j + 1, y, by rw [List.length_cons, hj], hy, hgoing⟩

end Rounds

end Visit

/-! ## The pieces of a round -/

/-- A wait that can be computed is shown, announced in three moments, and waited for. -/
theorem Visit.Scene.awaitRetry_eq {σ : Scene} (step : String) {r : RetryStep} {i : Nat} {d : Number}
    (hd : σ.wait r i = .ok d) : ∃ announce : String → Routine Unit,
      σ.awaitRetry step r i =
        (.ofExcept (d.fixed 3) >>= fun shown => announce shown >>= fun _ => Scene.pause d) ∧
      ∀ shown s, ∃ s', (announce shown).eval s = some (3, .ok (), s') := by
  rw [Scene.awaitRetry, hd]
  exact ⟨fun shown => do
    let workflow ← .read fun s => (s.get σ.workflow).id
    let target := r.target
    let count := i + 1
    let limit := r.maxRetries
    .log .info Visit.logger
      s!"Retrying step {target} in {shown}s (attempt {count}/{limit})"
      [("workflow_id", .text workflow), ("step_id", .text step)], rfl, fun shown s => ⟨_, rfl⟩⟩

/-- A wait that can be shown is possible. -/
theorem Visit.Scene.not_waitFails {σ : Scene} {r : RetryStep} {i : Nat} {d : Number} {shown : String}
    {cause : Cause} (hd : σ.wait r i = .ok d) (hshown : d.fixed 3 = .ok shown) :
    ¬σ.WaitFails r i cause := by
  have hbinary : ∀ cause', d.toBinary64 ≠ .error cause' := by
    intro cause' hx
    rw [Number.fixed, hx] at hshown
    cases hshown
  rintro (h | ⟨d', h, h'⟩)
  · rw [hd] at h
    cases h
  · rw [hd] at h
    cases h
    rcases h' with h' | h'
    · rw [hshown] at h'
      cases h'
    · exact hbinary cause h'.2

namespace Account

variable {body : Procedure → Routine Value} {R : Run body} {plan : Procedure → Outline Value}
  {σ : Scene} {N b n : Nat} {α : Type} {ds : List Deed} {e : Ending α} {step : String} {r : RetryStep}
  {i : Nat} {g : Except Failure α → Routine Value}

/-- **A try**: the target is run, and if it fails, its failure is noted before anything else. -/
theorem tryTarget_runs (hplan : ∀ p, (plan p).erase σ.call = body p) (htame : ∀ p, (plan p).Tame)
    {k : Except Failure Value → Outline α}
    (h : Account R σ.call plan N b n (.now (Visit.Outlined.tryTarget σ r i >>= k)) ds e) (hN : n ≤ N)
    (hr : (Stretch.now (Visit.Outlined.tryTarget σ r i >>= k)).Runs R σ.call b n g) (hc : Deed.Calm ds) :
    (ds = [] ∧ e = none ∧ R.HasTurn b N) ∨
      ∃ x : Visit.Try, x.start = n ∧ x.asked = none ∧
        ((ds = x.deeds σ r b i ∧ x.ending = none ∧ e = none) ∨
          (∃ t v ds', x.ending = some (t, .ok v) ∧ t ≤ N ∧ ds = x.deeds σ r b i ++ ds' ∧
            Account R σ.call plan N b t (.now (k (.ok v))) ds' e ∧
            (Stretch.now (k (.ok v))).Runs R σ.call b t g) ∨
          (∃ t f, ds = x.deeds σ r b i ∧ x.ending = some (t, .error f) ∧ e = none ∧
            R.HasTurn b N) ∨
          ∃ t f ds', x.Fails R σ r b i t f ∧ t + 2 ≤ N ∧ ds = x.deeds σ r b i ++ ds' ∧
            Account R σ.call plan N b (t + 2) (.now (k (.error f))) ds' e ∧
            (Stretch.now (k (.error f))).Runs R σ.call b (t + 2) g) := by
  rw [Visit.Outlined.tryTarget, bind_assoc] at h hr
  have hgo : (plain (σ.go r.target)).Tame := Outline.tame_plain (σ.go_tame r.target)
  rcases h.attempt_runs hplan htame hN hr hgo hc with
    ⟨ds₁, t, o, ds₂, h₁, ht, h₂, hr₂, rfl⟩ | ⟨h₁, rfl⟩
  · rcases h₁.ran with ⟨-, he, -⟩ | ⟨inner, -, -, rfl, -⟩
    · cases he
    refine Or.inr ⟨⟨n, inner, some (t, o), none⟩, rfl, rfl, Or.inr ?_⟩
    cases o with
    | ok v => exact Or.inl ⟨t, v, ds₂, rfl, ht, rfl, h₂, hr₂⟩
    | error f =>
      obtain ⟨ds₃, h₃, rfl⟩ := h₂.said
      replace hr₂ : (Stretch.now (plain (.alter fun s =>
          s.noteError σ.context s!"{r.target}_attempt_{i}" f) >>= fun _ => k (.error f))).Runs
          R σ.call b t g := hr₂
      rcases h₃.straight_runs hplan ht hr₂ (Routine.eval_alter _ _) with
        ⟨rfl, rfl, hturn⟩ | ⟨hawake, hs, htN, h₄, hr₄⟩
      · exact Or.inr (Or.inl ⟨t, f, rfl, rfl, rfl, hturn⟩)
      · exact Or.inr (Or.inr ⟨t, f, ds₃, ⟨rfl, hawake, hs⟩, htN, rfl, h₄, hr₄⟩)
  · rcases h₁.ran with ⟨rfl, -, rfl⟩ | ⟨inner, -, -, rfl, -⟩
    · exact Or.inl ⟨rfl, rfl, hr.hasTurn⟩
    · exact Or.inr ⟨⟨n, inner, none, none⟩, rfl, rfl, Or.inl ⟨rfl, rfl, rfl⟩⟩

/-- **The question** whether to go on: how it is answered, if it is asked. -/
theorem wantsRetry_runs (hplan : ∀ p, (plan p).erase σ.call = body p) (htame : ∀ p, (plan p).Tame)
    {k : Bool → Outline α} {t : Nat} {f : Failure}
    (h : Account R σ.call plan N b (t + 2) (.now (Visit.Outlined.wantsRetry step r f i >>= k)) ds e)
    (hN : t + 2 ≤ N)
    (hr : (Stretch.now (Visit.Outlined.wantsRetry step r f i >>= k)).Runs R σ.call b (t + 2) g)
    (hc : Deed.Calm ds) (x : Visit.Try) :
    ∃ asked ds', ds = ({ x with asked := asked } : Visit.Try).question i t f ++ ds' ∧
      ((∃ u, ({ x with asked := asked } : Visit.Try).Agreed R r t u ∧ u ≤ N ∧
          Account R σ.call plan N b u (.now (k true)) ds' e ∧
          (Stretch.now (k true)).Runs R σ.call b u g) ∨
        (∃ s v, ({ x with asked := asked } : Visit.Try).Answered r (some (s, .ok v)) ∧
          (R.store s).isTruthy v = false ∧
          Account R σ.call plan N b (s + 1) (.now (k false)) ds' e) ∨
        (∃ s f', ds' = [] ∧
          ({ x with asked := asked } : Visit.Try).Answered r (some (s, .error f')) ∧
          e = some (s + 2,
            .error ⟨(R.store s).nextFailure, .retryPredicateFailed step f'.message⟩)) ∨
        (ds' = [] ∧ e = none ∧
          (R.HasTurn b N ∨ ({ x with asked := asked } : Visit.Try).Answered r none))) := by
  unfold Visit.Outlined.wantsRetry at h hr
  cases hq : r.shouldRetry with
  | none =>
    simp only [hq] at h hr
    exact ⟨none, ds, rfl, Or.inl ⟨t + 2, .unasked hq rfl, hN, h, hr⟩⟩
  | some q =>
    simp only [hq] at h hr
    rw [bind_assoc] at h hr
    have hcall : (Outline.call .retrying q [.failure f, .int i]).Tame := Outline.tame_call _ _ _
    rcases h.attempt_runs hplan htame hN hr hcall hc with
      ⟨ds₁, s, o, ds₂, h₁, hs, h₂, hr₂, rfl⟩ | ⟨h₁, rfl⟩
    · obtain ⟨inner, rfl, -⟩ := h₁.called
      refine ⟨some (q, inner, some (s, o)), ds₂, rfl, ?_⟩
      cases o with
      | ok v =>
        rcases h₂.straight_runs hplan hs hr₂ (Routine.eval_read _ _) with
          ⟨rfl, rfl, hturn⟩ | ⟨-, -, hsN, h₃, hr₃⟩
        · exact Or.inr (Or.inr (Or.inr ⟨rfl, rfl, Or.inl hturn⟩))
        · cases hv : (R.store s).isTruthy v with
          | true =>
            rw [hv] at h₃ hr₃
            exact Or.inl ⟨s + 1, .answered ⟨q, inner, hq, rfl⟩ hv, hsN, h₃, hr₃⟩
          | false =>
            rw [hv] at h₃
            exact Or.inr (Or.inl ⟨s, v, ⟨q, inner, hq, rfl⟩, hv, h₃⟩)
      | error f' =>
        obtain ⟨rfl, ⟨rfl, hturn⟩ | rfl⟩ :=
          h₂.straight_runs_error hplan hs hr₂ (Routine.eval_raise _ _)
        · exact Or.inr (Or.inr (Or.inr ⟨rfl, rfl, Or.inl hturn⟩))
        · exact Or.inr (Or.inr (Or.inl ⟨s, f', rfl, ⟨q, inner, hq, rfl⟩, rfl⟩))
    · obtain ⟨inner, rfl, -⟩ := h₁.called
      exact ⟨some (q, inner, none), [], (List.append_nil _).symm,
        Or.inr (Or.inr (Or.inr ⟨rfl, rfl, Or.inr ⟨q, inner, hq, rfl⟩⟩))⟩

/-- **The wait** before the next try, if it is possible. -/
theorem awaitRetry_runs (hplan : ∀ p, (plan p).erase σ.call = body p) {e : Ending Unit}
    {g : Except Failure Unit → Routine Value}
    (h : Account R σ.call plan N b n (.now (plain (σ.awaitRetry step r i))) ds e) (hN : n ≤ N)
    (hr : (Stretch.now (plain (σ.awaitRetry step r i))).Runs R σ.call b n g) :
    (e = none → ds = [] ∧ (R.HasTurn b N ∨ (R.moment N).Resting b)) ∧
      ∀ m, e = some (m, .ok ()) → ∃ d, σ.wait r i = .ok d ∧ R.Awake b n (n + 3) ∧
        R.Pauses b (n + 3) d m := by
  -- A part of the wait that fails does so at once.
  have hraise : ∀ {γ : Type} {c : Cause} {k : γ → Outline Unit},
      Account R σ.call plan N b n (.now (plain (.raise c) >>= k)) ds e →
      (Stretch.now (plain (.raise c) >>= k)).Runs R σ.call b n g →
      (e = none → ds = [] ∧ (R.HasTurn b N ∨ (R.moment N).Resting b)) ∧
        ∀ m, e ≠ some (m, .ok ()) := by
    intro γ c k h hr
    obtain ⟨rfl, ⟨rfl, hturn⟩ | rfl⟩ := h.straight_runs_error hplan hN hr (Routine.eval_raise c _)
    · exact ⟨fun _ => ⟨rfl, Or.inl hturn⟩, nofun⟩
    · exact ⟨nofun, fun m he => by cases he⟩
  cases hwait : σ.wait r i with
  | error c =>
    rw [Scene.awaitRetry, hwait, Outline.plain_bind] at h hr
    obtain ⟨hnone, hsome⟩ := hraise h hr
    exact ⟨hnone, fun m he => absurd he (hsome m)⟩
  | ok d =>
    obtain ⟨announce, heq, heval⟩ := Scene.awaitRetry_eq step hwait
    rw [heq, Outline.plain_bind] at h hr
    cases hshown : d.fixed 3 with
    | error c =>
      rw [hshown] at h hr
      obtain ⟨hnone, hsome⟩ := hraise h hr
      exact ⟨hnone, fun m he => absurd he (hsome m)⟩
    | ok shown =>
      rw [hshown] at h hr
      replace h : Account R σ.call plan N b n (.now (plain (announce shown >>= fun _ =>
        Scene.pause d))) ds e := h
      replace hr : (Stretch.now (plain (announce shown >>= fun _ => Scene.pause d))).Runs
        R σ.call b n g := hr
      rw [Outline.plain_bind] at h hr
      obtain ⟨s, hs⟩ := heval shown (R.store n)
      rcases h.straight_runs hplan hN hr hs with ⟨rfl, rfl, hturn⟩ | ⟨hawake, -, hnN, h₂, hr₂⟩
      · exact ⟨fun _ => ⟨rfl, Or.inl hturn⟩, nofun⟩
      · obtain ⟨hnone, hsome⟩ := h₂.pause_runs hplan hnN hr₂
        exact ⟨hnone, fun m he => ⟨d, rfl, hawake, hsome m he⟩⟩

/-! ## All rounds -/

/-- **A retry step** consists of tries, from any of its rounds on. -/
theorem tries (hplan : ∀ p, (plan p).erase σ.call = body p) (htame : ∀ p, (plan p).Tame)
    {g : Except Failure Value → Routine Value} {remaining i n : Nat} {ds : List Deed}
    {e : Ending Value} (hi : i + remaining = r.maxRetries.toNat)
    (h : Account R σ.call plan N b n (.now (retryFrom σ step r i remaining)) ds e) (hN : n ≤ N)
    (hr : (Stretch.now (retryFrom σ step r i remaining)).Runs R σ.call b n g) (hc : Deed.Calm ds) :
    ∃ l, Visit.Rounds R N σ step r b i n ds e l := by
  -- Induction on the tries that remain.
  induction remaining generalizing i n ds with
  | zero =>
    rcases h.tryTarget_runs hplan htame hN hr hc with ⟨rfl, rfl, hturn⟩ | ⟨x, hn, hasked, hcases⟩
    · exact ⟨[], .nil hturn⟩
    refine ⟨[x], ?_⟩
    rcases hcases with ⟨rfl, hx, rfl⟩ | ⟨t, v, ds', hx, -, rfl, h₂, -⟩ |
      ⟨t, f, rfl, hx, rfl, hturn⟩ | ⟨t, f, ds', hf, -, rfl, h₂, -⟩
    · exact .last hn nofun fun _ => Or.inr (Or.inr (Or.inl hx))
    · obtain ⟨rfl, rfl⟩ := h₂.done_iff
      rw [List.append_nil]
      refine .last hn (fun s o he => ?_) nofun
      cases he
      exact .inl (.value hx hasked)
    · exact .last hn nofun fun _ => Or.inl hturn
    · obtain ⟨rfl, rfl⟩ := h₂.fail_iff
      rw [List.append_nil]
      refine .last hn (fun s o he => ?_) nofun
      cases he
      exact .inl (.spent hf hasked hi)
  | succ remaining ih =>
    rcases h.tryTarget_runs hplan htame hN hr hc with ⟨rfl, rfl, hturn⟩ | ⟨x, hn, hasked, hcases⟩
    · exact ⟨[], .nil hturn⟩
    rcases hcases with ⟨rfl, hx, rfl⟩ | ⟨t, v, ds', hx, -, rfl, h₂, -⟩ |
      ⟨t, f, rfl, hx, rfl, hturn⟩ | ⟨t, f, ds', hf, htN, rfl, h₂, hr₂⟩
    · exact ⟨[x], .last hn nofun fun _ => Or.inr (Or.inr (Or.inl hx))⟩
    · obtain ⟨rfl, rfl⟩ := h₂.done_iff
      rw [List.append_nil]
      refine ⟨[x], .last hn (fun s o he => ?_) nofun⟩
      cases he
      exact .inl (.value hx hasked)
    · exact ⟨[x], .last hn nofun fun _ => Or.inl hturn⟩
    have hlt : i < r.maxRetries.toNat := by omega
    obtain ⟨asked, ds', rfl, hcases⟩ := h₂.wantsRetry_runs hplan htame htN hr₂ hc.append.2 x
    have hf' := hf.asking asked
    rw [← List.append_assoc, ← Visit.Try.deeds_asking hf.ended hasked asked]
    rcases hcases with ⟨u, hagreed, huN, h₃, hr₃⟩ | ⟨s, v, hanswer, hv, h₃⟩ |
      ⟨s, f', rfl, hanswer, rfl⟩ | ⟨rfl, rfl, hgoing⟩
    · obtain ⟨g', hr₄, hcases⟩ := h₃.bind_runs hplan huN hr₃
      rcases hcases with ⟨ds₁, m, a, ds₂, h₄, hmN, h₅, hr₅, rfl⟩ | ⟨m, g'', h₄, rfl⟩ | ⟨h₄, rfl⟩
      · obtain ⟨rfl, -⟩ := h₄.awaitRetry_passes
        obtain ⟨d, hd, hawake, hpause⟩ := (h₄.awaitRetry_runs hplan huN hr₄).2 m rfl
        obtain ⟨l, hl⟩ := ih (by omega) h₅ hmN hr₅ hc.append.2.append.2
        exact ⟨_ :: l, .cons hn ⟨t, f, u, d, hf', hlt, hagreed, hd, hawake, hpause⟩ hl⟩
      · obtain ⟨rfl, hfails⟩ := h₄.awaitRetry_passes
        rw [List.append_nil]
        refine ⟨[_], .last hn (fun s o he => ?_) nofun⟩
        cases he
        exact .inr ⟨t, u, f, g'', hf', hlt, hagreed, hfails g'' rfl, rfl⟩
      · obtain ⟨rfl, hgoing⟩ := (h₄.awaitRetry_runs hplan huN hr₄).1 rfl
        rw [List.append_nil]
        exact ⟨[_], .last hn nofun fun _ => hgoing.imp id Or.inl⟩
    · obtain ⟨rfl, rfl⟩ := h₃.fail_iff
      rw [List.append_nil]
      refine ⟨[_], .last hn (fun m o he => ?_) nofun⟩
      cases he
      exact .inl (.refused hf' hlt hanswer hv)
    · rw [List.append_nil]
      refine ⟨[_], .last hn (fun m o he => ?_) nofun⟩
      cases he
      exact .inl (.raised hf' hlt hanswer)
    · rw [List.append_nil]
      refine ⟨[_], .last hn nofun fun _ => ?_⟩
      rcases hgoing with hturn | hanswer
      · exact Or.inl hturn
      · exact Or.inr (Or.inr (Or.inr ⟨⟨t, f, hf.ended⟩, hanswer⟩))

end Account

namespace Workflow

variable {σ : Setup} {R : Run σ.body} {N b n : Nat} {ds : List Deed} {e : Ending Value}
  {w : Ref .workflow} {c : Ref .context} {step : Step} {r : RetryStep}
  {g : Except Failure Value → Routine Value}

/-- A retry step consists of tries, of which the first one has the number 0. -/
theorem exists_tries (hk : step.kind = .retry r) (hn : n ≤ N)
    (h : Account R σ.desk.call σ.plan N b n (.now (dispatch (σ.scene w c) step)) ds e)
    (hr : (R.moment n).active = some (b, ((σ.scene w c).dispatch step).thenOn g))
    (hc : Deed.Calm ds) : ∃ l, Visit.Rounds R N (σ.scene w c) step.id r b 0 n ds e l := by
  have hruns : (Stretch.now (dispatch (σ.scene w c) step)).Runs R σ.desk.call b n g := by
    show _ = some (b, _)
    rw [show σ.desk.call = (σ.scene w c).call from rfl, Visit.Outlined.erase_dispatch]
    exact hr
  rw [dispatch, hk] at h hruns
  exact Account.tries (σ := σ.scene w c) σ.erase_plan σ.tame_plan (Nat.zero_add _) h hn hruns hc

/-- User code of a task that fails, and of an answer that is always yes. -/
def stubbornCode : Handlers := fun r _ =>
  if r.index = 0 then .raise (.raised .custom "down") else pure (.bool true)

theorem tame_stubbornCode : stubbornCode.Tame := by
  intro r _
  unfold stubbornCode
  split
  · exact Routine.tame_raise rfl
  · trivial

theorem obey_stubbornCode {C : Conduct}
    (hC : ∀ s, C.writes s { s with nextFailure := s.nextFailure + 1 }) : stubbornCode.Obey C := by
  intro r _ s
  unfold stubbornCode
  split
  · exact ⟨hC s, trivial⟩
  · trivial

def stubbornSetup : Setup := ⟨default, stubbornCode, default, none, [], [], none⟩

def stubbornStore : Store :=
  let work : Step := ⟨"work", .task ⟨"work", none, none, none, 0, .int 0⟩, .none⟩
  let s : Store := { Store.empty with
    workflows := #[⟨"w", "w", [("work", work)], "work", .null, .null, .null, [], [], []⟩]
    tasks := #[⟨"work", ⟨0⟩, .null, .null, .null⟩]
    taskRegistry := [("work", ⟨0⟩)] }
  (s.newContext .null [] [] [] [] none 0).2

/-- A retry step that may try four times. -/
def stubbornTries (delay backoff : Number) : RetryStep := ⟨"work", 3, some delay, some backoff, some ⟨1⟩⟩

def stubbornStep (delay backoff : Number) : Step :=
  ⟨"again", .retry (stubbornTries delay backoff), .none⟩

def stubbornRun (delay backoff : Number) : Run stubbornSetup.body :=
  .launched _ stubbornStore ((stubbornSetup.scene ⟨0⟩ ⟨0⟩).dispatch (stubbornStep delay backoff))

theorem stubborn_turn (delay backoff : Number) : ((stubbornRun delay backoff).moment 1).active =
    some (0, ((stubbornSetup.scene ⟨0⟩ ⟨0⟩).dispatch (stubbornStep delay backoff)).thenOn
      Routine.ofOutcome) :=
  congrArg some (congrArg (Prod.mk 0) (Routine.thenOn_ofOutcome _).symm)

/-- A stubborn step whose branch has ended has an account that ends so. -/
theorem launched_stubborn (delay backoff : Number) {N : Nat} (hN : 1 ≤ N) {o : Except Failure Value}
    (ho : ((stubbornRun delay backoff).moment N).outcome? 0 = some o) :
    ∃ ds t, Account (stubbornRun delay backoff) stubbornSetup.desk.call stubbornSetup.plan N 0 1
      (.now (dispatch (stubbornSetup.scene ⟨0⟩ ⟨0⟩) (stubbornStep delay backoff))) ds (some (t, o)) ∧
      Deed.Calm ds :=
  launched_dispatch tame_stubbornCode (obey_stubbornCode fun _ => trivial) stubbornStore ⟨0⟩ ⟨0⟩
    (stubbornStep delay backoff) hN ho

/-- The waits of a stubborn step are possible if they can be computed and shown. -/
theorem waits_stubborn {delay backoff : Number}
    (h : ∀ i < 3, (((stubbornSetup.scene ⟨0⟩ ⟨0⟩).wait (stubbornTries delay backoff) i).bind
      (Number.fixed 3)).isOk = true) (i : Nat) (hi : i < 3) :
    ∃ d shown, (stubbornSetup.scene ⟨0⟩ ⟨0⟩).wait (stubbornTries delay backoff) i = .ok d ∧
      d.fixed 3 = .ok shown := by
  have hok := h i hi
  cases hd : (stubbornSetup.scene ⟨0⟩ ⟨0⟩).wait (stubbornTries delay backoff) i with
  | error c =>
    rw [hd] at hok
    cases hok
  | ok d =>
    cases hs : d.fixed 3 with
    | error c =>
      rw [hd, Except.bind, hs] at hok
      cases hok
    | ok shown => exact ⟨d, shown, rfl, hs⟩

end Workflow

end Conductor
