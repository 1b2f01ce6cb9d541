import Conductor.Proofs.Workflow.Branches
import Conductor.Proofs.Workflow.Recorded

/-!
# Attempts of a retry step

A retry step visits its target again after a failure, in the same context. What belongs to an attempt
that has failed is over by then, up to branches that were left behind: these go on beside the next
attempts, and record results under the same ids (`Visit.RecordsAt`).

**Theorem (`attempts_record`).** What the successful attempt has recorded last stays, unless something
is recorded under the same id later; and an attempt that has failed only records later from inside a
branch that it has left behind.

Such branches do exist: in `overtakenRun` one of them comes to its end after the retry step has returned
and replaces what the successful attempt has recorded.
-/

namespace Conductor

open Outline (plain)
open Visit (Scene)
open Visit.Outlined (dispatch tryTarget retryFrom wantsRetry)

variable {σ : Setup} {R : Run σ.body} {N b n m t : Nat} {ds : List Deed}

/-! ## The attempts -/

namespace Visit

/-- What comes before an attempt that begins at a moment: attempts that have failed, what is noted of
them, and questions whether to go on. -/
inductive Failed (b m : Nat) (p : Procedure) : Deed → Prop
  | tried {m' t : Nat} {inner : List Deed} {f : Failure} (h : t ≤ m) :
    Failed b m p (.part m' b p inner (some (t, .error f)))
  | noted {m' : Nat} {l : Remark} : Failed b m p (.remark m' l)
  | asked {m' : Nat} {u : Use} {c : Ref .callable} {args : List Value} {inner : List Deed}
    {e : Ending Value} : Failed b m p (.ask m' u c args inner e)

theorem Failed.mono {p : Procedure} {d : Deed} (h : Failed b m p d) (hm : m ≤ n) : Failed b n p d := by
  cases h with
  | tried h => exact .tried (h.trans hm)
  | noted => exact .noted
  | asked => exact .asked

/-- A visit among deeds has its step do its own work, and the value that this returns at a moment is to
be recorded for the step. -/
def RecordsAt (R : Run σ.body) (N : Nat) (ds : List Deed) (c : Ref .context) (id : String) (i : Nat)
    (v : Value) : Prop :=
  ∃ m d w inner e k, Occurs (.part m d (.visit id w c) inner e) ds ∧ m < k ∧
    Account R σ.desk.call σ.plan N d k (.now (Visit.Outlined.visit (σ.scene w c) id)) inner e ∧
    Returns R σ.plan N d (σ.scene w c) id k i v

end Visit

namespace Account

variable {body : Procedure → Routine Value} {R : Run body} {plan : Procedure → Outline Value}
  {σ : Scene}

/-- A try is a visit of the target, with a note behind it if it has failed. -/
theorem tryTarget {r : RetryStep} {attempt : Nat} {o : Except Failure (Except Failure Value)}
    (h : Account R σ.call plan N b n (.now (tryTarget σ r attempt)) ds (some (t, o)))
    (hplan : ∀ p, (plan p).Tame) (hc : Deed.Calm ds) :
    ∃ x inner s rest, o = .ok x ∧ n ≤ s ∧ s ≤ t ∧
      ds = .part n b (.visit r.target σ.workflow σ.context) inner (some (s, x)) :: rest ∧
      (∀ v, x = .ok v → s = t ∧ rest = []) ∧ ∀ d ∈ rest, ∃ i l, d = .remark i l := by
  rcases h.attempt_calm hplan (Outline.tame_plain (σ.go_tame r.target)) hc with
    ⟨ds₁, s, x, ds₂, h₁, -, h₂, rfl⟩ | ⟨-, he⟩
  · rcases h₁.ran with ⟨-, he, -⟩ | ⟨inner, -, -, rfl, -⟩
    · cases he
    have hns : n ≤ s := h₁.ending_ge rfl
    have hst : s ≤ t := h₂.ending_ge rfl
    cases x with
    | ok v =>
      obtain ⟨rfl, he⟩ := h₂.done_iff
      cases he
      exact ⟨_, inner, _, [], rfl, hns, hst, rfl, fun _ _ => ⟨rfl, rfl⟩, by simp⟩
    | error f =>
      obtain ⟨ds₃, h₃, rfl⟩ := h₂.say
      rcases h₃.straight_bind (Routine.eval_alter _ _) with ⟨-, he⟩ | ⟨-, h₄⟩
      · cases he
      · obtain ⟨rfl, he⟩ := h₄.done_iff
        cases he
        exact ⟨_, inner, s, _, rfl, hns, hst, rfl, by simp, by simp⟩
  · cases he

/-- Whether to go on is asked at most once. -/
theorem wantsRetry {step : String} {r : RetryStep} {f : Failure} {attempt : Nat} {o : Except Failure Bool}
    (h : Account R σ.call plan N b n (.now (wantsRetry step r f attempt)) ds (some (t, o)))
    (hplan : ∀ p, (plan p).Tame) (hc : Deed.Calm ds) :
    ∀ d ∈ ds, ∃ i u c args inner e, d = .ask i u c args inner e := by
  unfold Visit.Outlined.wantsRetry at h
  split at h
  · obtain ⟨rfl, -⟩ := h.done_iff
    simp
  · rcases h.attempt_calm hplan (Outline.tame_call _ _ _) hc with
      ⟨ds₁, m, x, ds₂, h₁, -, h₂, rfl⟩ | ⟨-, he⟩
    · obtain ⟨inner, rfl, -⟩ := h₁.called
      have hnil : ds₂ = [] := by
        cases x with
        | ok v => exact (h₂.straight (Routine.eval_read _ _)).1
        | error f => exact (h₂.straight (Routine.eval_raise _ _)).1
      subst hnil
      simp
    · cases he

/-- **A retry step that succeeds** does so with its last attempt; all others have failed before. -/
theorem attempts {step : String} {r : RetryStep} (hplan : ∀ p, (plan p).Tame) {v : Value}
    {remaining attempt : Nat}
    (h : Account R σ.call plan N b n (.now (retryFrom σ step r attempt remaining)) ds
      (some (t, .ok v))) (hc : Deed.Calm ds) :
    ∃ failed m inner, n ≤ m ∧ ds = failed ++
        [.part m b (.visit r.target σ.workflow σ.context) inner (some (t, .ok v))] ∧
      ∀ d ∈ failed, Visit.Failed b m (.visit r.target σ.workflow σ.context) d := by
  -- Induction on the attempts that remain.
  induction remaining generalizing attempt n ds with
  | zero =>
    rcases h.bind with ⟨ds₁, m, x, ds₂, h₁, h₂, rfl⟩ | ⟨m, g, h₁, he⟩ | ⟨-, he⟩
    · obtain ⟨y, inner, s, rest, hy, -, -, rfl, hok, -⟩ := h₁.tryTarget hplan hc.append.1
      cases hy
      cases x with
      | ok w =>
        obtain ⟨rfl, he⟩ := h₂.done_iff
        cases he
        obtain ⟨rfl, rfl⟩ := hok v rfl
        exact ⟨[], n, inner, le_rfl, rfl, by simp⟩
      | error f => cases h₂.fail_iff.2
    · cases he
    · cases he
  | succ remaining ih =>
    rcases h.bind with ⟨ds₁, m, x, ds₂, h₁, h₂, rfl⟩ | ⟨m, g, h₁, he⟩ | ⟨-, he⟩
    · obtain ⟨y, inner, s, rest, hy, hns, hsm, rfl, hok, hrest⟩ := h₁.tryTarget hplan hc.append.1
      cases hy
      cases x with
      | ok w =>
        obtain ⟨rfl, he⟩ := h₂.done_iff
        cases he
        obtain ⟨rfl, rfl⟩ := hok v rfl
        exact ⟨[], n, inner, le_rfl, rfl, by simp⟩
      | error f =>
        rcases h₂.bind with ⟨ds₃, m', again, ds₄, h₃, h₄, rfl⟩ | ⟨m', g', h₃, he⟩ | ⟨-, he⟩
        · have hm' : m ≤ m' := h₃.ending_ge rfl
          have hasked := h₃.wantsRetry hplan hc.append.2.append.1
          cases again with
          | false => cases h₄.fail_iff.2
          | true =>
            rcases h₄.bind with ⟨ds₅, m'', u, ds₆, h₅, h₆, rfl⟩ | ⟨m'', g'', h₅, he⟩ | ⟨-, he⟩
            · obtain ⟨rfl, -⟩ := h₅.awaitRetry_passes
              have hm'' : m' ≤ m'' := h₅.ending_ge rfl
              obtain ⟨failed, i, inner', hi, rfl, hfailed⟩ :=
                ih h₆ hc.append.2.append.2.append.2
              refine ⟨.part n b (.visit r.target σ.workflow σ.context) inner
                (some (s, .error f)) :: rest ++ ds₃ ++ failed, i, inner', by omega, by simp,
                fun d hd => ?_⟩
              rcases List.mem_append.1 hd with hd | hd
              · rcases List.mem_append.1 hd with hd | hd
                · rcases List.mem_cons.1 hd with rfl | hd
                  · exact .tried (by omega)
                  · obtain ⟨i', l, rfl⟩ := hrest d hd
                    exact .noted
                · obtain ⟨i', u', c, args, inner'', e, rfl⟩ := hasked d hd
                  exact .asked
              · exact hfailed d hd
            · cases he
            · cases he
        · cases he
        · cases he
    · cases he
    · cases he

end Account

/-! ## What attempts record -/

namespace Visit.RecordsAt

variable {c : Ref .context} {id : String} {i : Nat} {v : Value} {ds' : List Deed}

theorem mono (h : RecordsAt R N ds c id i v) (hs : ∀ {d}, Occurs d ds → Occurs d ds') :
    RecordsAt R N ds' c id i v := by
  obtain ⟨m, d, w, inner, e, k, hd, hvisit⟩ := h
  exact ⟨m, d, w, inner, e, k, hs hd, hvisit⟩

theorem begun (h : RecordsAt R N ds c id i v) {s : Stretch Value} {e : Ending Value}
    (hacc : Account R σ.desk.call σ.plan N b n s ds e) : n ≤ i := by
  obtain ⟨m, d, w, inner, e', k, hd, hk, -, pre, k', workflow, step, work, harrive, hwork⟩ := h
  have hm : n ≤ m := (hacc.occurs hd).1
  have hkk : k ≤ k' := harrive.ending_ge rfl
  have hki : k' ≤ i := hwork.ending_ge rfl
  omega

/-- By the time nobody is left behind, what has been returned has been recorded. -/
theorem recorded (h : RecordsAt R N ds c id i v) (hds : Visit.Recorded R N ds) :
    i + 2 ≤ N ∧ R.store (i + 2) = (R.store i).record c id v := by
  obtain ⟨m, d, w, inner, e, k, hd, -, hacc, hret⟩ := h
  obtain ⟨-, t, o, -, ht, rfl, -, -⟩ := hds hd
  obtain ⟨hs, hit⟩ := hacc.records hret
  exact ⟨hit.trans ht, hs⟩

/-- **What belongs to something that is over is recorded later** only from inside a branch that was left
behind. -/
theorem behind (h : RecordsAt R N ds c id i v) {s : Stretch Value} {o : Except Failure Value}
    (hacc : Account R σ.desk.call σ.plan N b n s ds (some (t, o))) (hc : Deed.Calm ds)
    (ht : t < i + 2) : ∃ x, Deed.Behind R ds x ∧ RecordsAt R N [x] c id i v := by
  obtain ⟨m, d, w, inner, e, k, hd, hk, hvisit, hret⟩ := h
  rcases hacc.ended_or_behind σ.tame_plan hc hd with ⟨j, hj, hjt⟩ | ⟨x, hx, hin⟩
  · obtain ⟨⟨t', o'⟩, rfl, rfl⟩ := Option.map_eq_some_iff.1 hj
    have hit := (hvisit.records hret).2
    omega
  · refine ⟨x, hx, m, d, w, inner, e, k, ?_, hk, hvisit, hret⟩
    rcases hin with rfl | hin
    · exact .here List.mem_cons_self
    · exact .inside List.mem_cons_self hin

end Visit.RecordsAt

/-- **A recorded value stays in its place** unless another one is recorded. -/
theorem Run.records_since (hσ : σ.desk.call.Obey .sparing) (hR : R.Minds .changing)
    {c : Ref .context} {id : String} {v : Value} (h : (R.store n).Records c id v) (hn : n ≤ m) :
    (R.store m).Records c id v ∨ ∃ j, n ≤ j ∧ j < m ∧
      (R.store j).Rerecords (R.store (j + 1)) ((R.store j).get c).steps id v := by
  induction m, hn using Nat.le_induction with
  | base => exact Or.inl h
  | succ m hnm ih =>
    rcases ih with ih | ⟨j, hj, hjm, hre⟩
    · by_cases hre : (R.store m).Rerecords (R.store (m + 1)) ((R.store m).get c).steps id v
      · exact Or.inr ⟨m, hnm, Nat.lt_succ_self m, hre⟩
      · exact Or.inl (ih.change (Run.guaranteed (Conduct.changing_lawful hσ)
          Conduct.changing_permits.same hR m) hre)
    · exact Or.inr ⟨j, hj, hjm.trans (Nat.lt_succ_self m), hre⟩

/-- A context that is there stays, with its results. -/
theorem Run.context_since (hσ : σ.desk.call.Obey .sparing) (hR : R.Minds .changing)
    {c : Ref .context} (hc : c.index < (R.store n).contexts.size)
    (hresults : (R.store n).Has (.results ((R.store n).get c).steps)) (hn : n ≤ m) :
    c.index < (R.store m).contexts.size ∧
      (R.store m).Has (.results ((R.store m).get c).steps) := by
  induction m, hn using Nat.le_induction with
  | base => exact ⟨hc, hresults⟩
  | succ m _ ih =>
    have hchange := Run.guaranteed (Conduct.changing_lawful hσ) Conduct.changing_permits.same hR m
    obtain ⟨hsize, hparts⟩ := Store.Changes.contexts hchange ih.1
    have hsteps : ((R.store (m + 1)).get c).steps = ((R.store m).get c).steps :=
      congrArg (fun p => p.2.1) hparts
    exact ⟨hsize, hsteps ▸ Store.Changes.has hchange ih.2⟩

namespace Workflow

/-- **What attempts record.** A retry step succeeds with its last attempt, before which all others have
failed. By the time nobody is left behind, what the last attempt has recorded in the context of the step
is there, unless another value has been recorded under the same id since then. What an attempt that has
failed records behind its failure, it records from inside a branch that it has left behind. -/
theorem attempts_record {w : Ref .workflow} {c : Ref .context} {step : Step} {r : RetryStep}
    {v : Value} {g : Except Failure Value → Routine Value} (hσ : σ.desk.call.Obey .sparing)
    (hR : R.Minds .changing) (hk : step.kind = .retry r) (hn : n ≤ N)
    (h : Account R σ.desk.call σ.plan N b n (.now (dispatch (σ.scene w c) step)) ds
      (some (t, .ok v)))
    (hr : (R.moment n).active = some (b, ((σ.scene w c).dispatch step).thenOn g))
    (hc : Deed.Calm ds) (hleft : (R.moment N).detached = [])
    (hcontext : c.index < (R.store n).contexts.size)
    (hresults : (R.store n).Has (.results ((R.store n).get c).steps)) :
    ∃ failed m inner, ds = failed ++ [.part m b (.visit r.target w c) inner (some (t, .ok v))] ∧
      (∀ d ∈ failed, Visit.Failed b m (.visit r.target w c) d) ∧
      (∀ {id i x}, Visit.RecordsAt R N inner c id i x → i + 2 ≤ N ∧
        R.store (i + 2) = (R.store i).record c id x ∧
        ((R.store N).Records c id x ∨ ∃ j, i + 2 ≤ j ∧ j < N ∧
          (R.store j).Rerecords (R.store (j + 1)) ((R.store j).get c).steps id x)) ∧
      ∀ {m' inner' t' f id i y},
        Deed.part m' b (.visit r.target w c) inner' (some (t', .error f)) ∈ failed →
        Visit.RecordsAt R N inner' c id i y → t' < i + 2 →
          ∃ x, Deed.Behind R inner' x ∧ Visit.RecordsAt R N [x] c id i y := by
  have houtline : dispatch (σ.scene w c) step =
      retryFrom (σ.scene w c) step.id r 0 r.maxRetries.toNat := by
    rw [dispatch, hk]
  rw [houtline] at h
  obtain ⟨failed, m, inner, -, rfl, hfailed⟩ :=
    Account.attempts (σ := σ.scene w c) σ.tame_plan h hc
  have hruns : (Stretch.now (dispatch (σ.scene w c) step)).Runs R σ.desk.call b n g := by
    show _ = some (b, _)
    rw [show σ.desk.call = (σ.scene w c).call from rfl, Visit.Outlined.erase_dispatch]
    exact hr
  rw [houtline] at hruns
  obtain ⟨⟨-, htN, -⟩, hj⟩ := h.runs σ.erase_plan hn hruns
  have hrec : Visit.Recorded R N
      (failed ++ [.part m b (.visit r.target w c) inner (some (t, .ok v))]) := by
    refine Deed.recorded hleft (fun d hd => ?_) hj hc
    obtain ⟨-, hacc, hend⟩ := h.mem d hd
    obtain ⟨i, hi, hit⟩ := hend t _ rfl
    exact ⟨hacc, i, hi, hit.trans htN⟩
  refine ⟨failed, m, inner, rfl, hfailed, fun {id i x} hx => ?_,
    fun {m' inner' t' f id i y} hmem hy ht' => ?_⟩
  · have hlast : Deed.part m b (.visit r.target w c) inner (some (t, .ok v)) ∈
        failed ++ [.part m b (.visit r.target w c) inner (some (t, .ok v))] :=
      List.mem_append_right failed List.mem_cons_self
    have hin := hx.mono fun hd => Occurs.inside hlast hd
    obtain ⟨hiN, hs⟩ := hin.recorded hrec
    obtain ⟨hsize, hhas⟩ := Run.context_since hσ hR hcontext hresults (hin.begun h)
    have hrecords := Store.records_record hsize hhas id x
    rw [← hs] at hrecords
    exact ⟨hiN, hs, Run.records_since hσ hR hrecords hiN⟩
  · have hd := List.mem_append_left [Deed.part m b (.visit r.target w c) inner (some (t, .ok v))] hmem
    rcases (h.mem _ hd).2.1.part_cases with ⟨k, -, hacc⟩ | ⟨-, he⟩
    · exact hy.behind hacc (hc.inner hd) ht'
    · cases he

/-- User code of two tasks: the first one fails when it is called for the first time, and the second one
then takes its time. Calls are counted in the store. -/
def overtakenCode : Handlers := fun r _ => do
  let calls ← .modifyGet fun s : Store =>
    (s.nextFailure, { s with nextFailure := s.nextFailure + 1 })
  if r.index = 0 then
    if calls = 0 then .raise (.raised .custom "early") else pure .null
  else if calls < 3 then
    .sleep .one
    pure (.text "first")
  else pure (.text "second")

theorem tame_overtakenCode : overtakenCode.Tame := by
  intro r _
  unfold overtakenCode
  refine (Routine.tame_modifyGet _).bind fun calls => ?_
  split
  · split
    · exact Routine.tame_raise rfl
    · trivial
  · split
    · exact (Routine.tame_sleep _).bind fun _ => trivial
    · trivial

/-- The user code only counts. -/
theorem obey_overtakenCode {C : Conduct}
    (hC : ∀ s, C.writes s { s with nextFailure := s.nextFailure + 1 }) : overtakenCode.Obey C := by
  intro r _ s
  unfold overtakenCode
  refine Routine.Obeys.bind (Routine.obeys_modifyGet ?_) fun calls t _ => ?_
  · exact hC s
  split
  · split
    · exact ⟨hC t, trivial⟩
    · trivial
  · split
    · exact (Routine.obeys_sleep _).bind fun _ _ _ => trivial
    · trivial

def overtakenSetup : Setup := ⟨default, overtakenCode, default, none, [], [], none⟩

/-- A retry step whose target runs both tasks side by side. -/
def overtakenStore : Store :=
  let fast : Step := ⟨"fast", .task ⟨"fast", none, none, none, 0, .int 0⟩, .none⟩
  let slow : Step := ⟨"slow", .task ⟨"slow", none, none, none, 0, .int 0⟩, .none⟩
  let both : Step := ⟨"both", .parallel ["fast", "slow"] true, .none⟩
  let s : Store := { Store.empty with
    workflows := #[⟨"w", "w", [("fast", fast), ("slow", slow), ("both", both)], "both", .null, .null,
      .null, [], [], []⟩]
    tasks := #[⟨"fast", ⟨0⟩, .null, .null, .null⟩, ⟨"slow", ⟨1⟩, .null, .null, .null⟩]
    taskRegistry := [("fast", ⟨0⟩), ("slow", ⟨1⟩)] }
  (s.newContext .null [] [] [] [] none 0).2

def overtakenStep : Step := ⟨"again", .retry ⟨"both", 1, some (.int 0), some (.int 1), none⟩, .none⟩

def overtakenRun : Run overtakenSetup.body :=
  .launched _ overtakenStore ((overtakenSetup.scene ⟨0⟩ ⟨0⟩).dispatch overtakenStep)

/-- The second attempt succeeds, and the branch that the first one has left behind is followed to its
end. -/
theorem attempts_record_overtaken : ∃ ds t v,
    Account overtakenRun overtakenSetup.desk.call overtakenSetup.plan 140 0 1
      (.now (dispatch (overtakenSetup.scene ⟨0⟩ ⟨0⟩) overtakenStep)) ds (some (t, .ok v)) ∧
    ∃ failed m inner, ds = failed ++ [.part m 0 (.visit "both" ⟨0⟩ ⟨0⟩) inner (some (t, .ok v))] ∧
      ∀ d ∈ failed, Visit.Failed 0 m (.visit "both" ⟨0⟩ ⟨0⟩) d := by
  have hok : ((overtakenRun.moment 140).outcome? 0).map Except.isOk = some true := by
    decide +kernel
  obtain ⟨o, ho, hisOk⟩ := Option.map_eq_some_iff.1 hok
  obtain ⟨v, rfl⟩ : ∃ v, o = .ok v := by
    cases o with
    | ok v => exact ⟨v, rfl⟩
    | error f => cases hisOk
  have hobey : ∀ {C : Conduct}, (∀ s, C.writes s { s with nextFailure := s.nextFailure + 1 }) →
      overtakenSetup.desk.call.Obey C := obey_overtakenCode
  have hsparing : overtakenSetup.desk.call.Obey .sparing :=
    hobey fun _ => Store.keeps_of_tables rfl rfl rfl rfl
  obtain ⟨ds, t, h, hc⟩ := launched_dispatch (σ := overtakenSetup) tame_overtakenCode
    (hobey fun _ => trivial) overtakenStore ⟨0⟩ ⟨0⟩ overtakenStep (N := 140) (by decide) ho
  have hdispatch : ∀ s, ((overtakenSetup.scene ⟨0⟩ ⟨0⟩).dispatch overtakenStep).Obeys .changing s :=
    fun _ => Scene.dispatch_obeys (fun _ _ _ => trivial) Conduct.changing_permits
      (Conduct.obey_changing hsparing) _
  obtain ⟨failed, m, inner, hds, hfailed, -⟩ := attempts_record (R := overtakenRun) hsparing
    (Run.minds_launched hdispatch) rfl (by decide) h
    (congrArg some (congrArg (Prod.mk 0) (Routine.thenOn_ofOutcome _).symm)) hc
    (by decide +kernel) (by decide +kernel) (by decide +kernel)
  exact ⟨ds, t, v, h, failed, m, inner, hds, hfailed⟩

/-- The value that is recorded for a step in the only context. -/
def overtakenResult (n : Nat) : Option Value :=
  Entries.get? ((overtakenRun.store n).get ((overtakenRun.store n).get (⟨0⟩ : Ref .context)).steps)
    "slow"

/-- The first attempt leaves a branch behind. A branch of the second attempt records its result, and the
retry step returns. When everything has come to its end, the result is another one, which the branch of
the first attempt has recorded. -/
theorem overtaken_by_failed : (overtakenRun.moment 47).detached = [2] ∧
    (overtakenRun.moment 102).active.map Prod.fst = some 4 ∧
    overtakenResult 103 = some (.text "second") ∧
    ((overtakenRun.moment 114).outcome? 0).map Except.isOk = some true ∧
    (overtakenRun.moment 121).active.map Prod.fst = some 2 ∧
    (overtakenRun.moment 140).detached = [] ∧
    ((overtakenRun.moment 140).step overtakenSetup.body).isNone = true ∧
    overtakenResult 140 = some (.text "first") := by
  decide +kernel

end Workflow

end Conductor
