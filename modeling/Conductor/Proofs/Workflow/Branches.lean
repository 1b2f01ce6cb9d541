import Conductor.Proofs.Account.Joined
import Conductor.Proofs.Workflow.Lifecycle

/-!
# Branches of a step

A visit starts other visits side by side for a parallel step, for several successors and for the items
of a map step. Either it waits for all of them, or it goes on with the first that ends. What is common
is told by `Visit.Branches`: each branch does what its visit does, whatever becomes of the others; the
visit goes on as soon as there is enough, and leaves the others behind; and by the time nobody is left
behind, all of them have ended and whatever a step in them has returned has been recorded
(`Visit.Recorded`).

**Theorem (`branches_join`).** Who waits for all goes on with the results in the order in which the
branches are declared, or with the failure that came first.

**Theorem (`branches_race`).** A race is decided by a branch that ends no later than any other, the first
declared of those that have ended by then.
-/

namespace Conductor

open Outline (plain)
open Visit (Scene)
open Visit.Outlined (arrive dispatch)

/-! ## Results that are recorded -/

section Returns

variable {body : Procedure → Routine Value} {R : Run body} {plan : Procedure → Outline Value}
  {N b n m t : Nat} {ds : List Deed} {σ : Scene} {id : String} {v : Value}

/-- The own work of the step of a visit, begun at a moment, returns a value at another one. -/
def Visit.Returns (R : Run body) (plan : Procedure → Outline Value) (N b : Nat) (σ : Scene)
    (id : String) (n m : Nat) (v : Value) : Prop :=
  ∃ pre k workflow step ds,
    Account R σ.call plan N b n (.now (arrive σ id)) pre (some (k, .ok (workflow, step))) ∧
      Account R σ.call plan N b k (.now (dispatch σ step)) ds (some (m, .ok v))

/-- What the step of a visit returns is recorded at once, if the visit is over. -/
theorem Account.records {o : Except Failure Value}
    (h : Account R σ.call plan N b n (.now (Visit.Outlined.visit σ id)) ds (some (t, o)))
    (hr : Visit.Returns R plan N b σ id n m v) :
    R.store (m + 2) = (R.store m).record σ.context id v ∧ m + 2 ≤ t := by
  obtain ⟨pre, k, workflow, step, work, harrive, hwork⟩ := hr
  rcases h.bind with ⟨ds₁, k', x, ds₂, h₁, h₂, rfl⟩ | ⟨k', f, h₁, -⟩ | ⟨-, he⟩
  · obtain ⟨rfl, rfl⟩ : k' = k ∧ x = (workflow, step) := by
      rcases harrive.unique rfl h₁ with heq | ⟨heq, -⟩ <;> cases heq
      exact ⟨rfl, rfl⟩
    rcases h₂.attempt with ⟨ds₃, m', y, ds₄, h₃, -, h₄, rfl⟩ | ⟨m', f, h₃, -, -⟩ | ⟨-, he⟩
    · obtain ⟨rfl, rfl⟩ : m' = m ∧ y = .ok v := by
        rcases hwork.unique rfl h₃ with heq | ⟨heq, -⟩ <;> cases heq
        exact ⟨rfl, rfl⟩
      obtain ⟨ds₅, h₅, -⟩ := Account.say h₄
      rcases h₅.straight_bind (Routine.eval_alter _ _) with ⟨-, he⟩ | ⟨hs, h₆⟩
      · cases he
      · exact ⟨hs, h₆.ending_ge rfl⟩
    · rcases hwork.unique rfl h₃ with heq | ⟨heq, -⟩ <;> cases heq
    · cases he
  · rcases harrive.unique rfl h₁ with heq | ⟨heq, -⟩ <;> cases heq
  · cases he

end Returns

variable {σ : Setup} {R : Run σ.body} {N b n t : Nat} {ds : List Deed}

namespace Visit

/-- All visits among deeds have ended, and what their steps have returned has been recorded in the
contexts in which they run. -/
def Recorded (R : Run σ.body) (N : Nat) (ds : List Deed) : Prop :=
  ∀ {m d id w c inner e}, Occurs (.part m d (.visit id w c) inner e) ds →
    ∃ k t o, m < k ∧ t ≤ N ∧ e = some (t, o) ∧
      Account R σ.desk.call σ.plan N d k (.now (Visit.Outlined.visit (σ.scene w c) id)) inner e ∧
      ∀ i v, Returns R σ.plan N d (σ.scene w c) id k i v →
        i + 2 ≤ t ∧ R.store (i + 2) = (R.store i).record c id v

/-- How parts go that are started side by side at a moment, each in a branch of its own, and how the
one goes on who has started them. -/
structure Branches (R : Run σ.body) (N n : Nat) (kind : JoinKind) (ps : List Procedure)
    (es : Fin ps.length → Ending Value) (ds : List Deed) (e : Ending (List Value)) : Prop where
  /-- Each branch does what it has been started for. -/
  run : ∃ dss, ds = [.fork n kind (Deed.parts n (R.newBranch n) ps dss es) e] ∧
    ∀ i : Fin ps.length, Account R σ.desk.call σ.plan N (R.newBranch n + i) (n + 1)
      (.later (σ.plan (ps.get i))) (dss i) (es i)
  /-- Once there is enough, nobody waits until time passes. -/
  prompt : ∀ u, n < u → u ≤ N → (R.moment u).ready = [] → Run.Joins.Enough kind es u →
    ∃ t ≤ u, ∃ o, e = some (t, o)
  /-- Who has not ended by then is left behind. -/
  behind : ∀ t o, e = some (t, o) → ∀ i : Fin ps.length,
    (∃ s < t, ∃ x, es i = some (s, x)) ∨ R.newBranch n + i ∈ (R.moment t).detached
  /-- By the time nobody is left behind, all of them have come to their own ends. -/
  landed : (R.moment N).detached = [] → e ≠ none →
    (∀ i, ∃ s ≤ N, ∃ x, es i = some (s, x)) ∧ Recorded R N ds

end Visit

/-- What is recorded by the time nobody is left behind. -/
theorem Deed.recorded (hleft : (R.moment N).detached = [])
    (h : ∀ d ∈ ds, d.Accounted R σ.desk.call σ.plan N ∧ ∃ i, d.end? = some i ∧ i ≤ N)
    (hj : Deed.AllJoined R σ.desk.call σ.plan N ds) (hc : Deed.Calm ds) : Visit.Recorded R N ds := by
  intro m d id w c inner e hd
  obtain ⟨hacc, i, hi, hiN⟩ := Deed.landed σ.tame_plan hleft h hj hc hd
  obtain ⟨⟨t, o⟩, rfl, rfl⟩ := Option.map_eq_some_iff.1 hi
  rcases hacc.part_cases with ⟨k, hk, hv⟩ | ⟨-, he⟩
  · exact ⟨k, t, o, hk, hiN, rfl, hv, fun i v hr => (Account.records hv hr).symm⟩
  · cases he

/-- How the parts of a join go. -/
theorem Run.Joins.branches {kind : JoinKind} {ps : List Procedure} {k : Outcome → Routine Value}
    {dss : Fin ps.length → List Deed} {es : Fin ps.length → Ending Value} {e : Ending (List Value)}
    (h : R.Joins σ.desk.call σ.plan N n b kind ps k dss es e)
    (hj : Deed.AllJoined R σ.desk.call σ.plan N
      [.fork n kind (Deed.parts n (R.newBranch n) ps dss es) e])
    (hc : Deed.Calm [.fork n kind (Deed.parts n (R.newBranch n) ps dss es) e]) :
    Visit.Branches R N n kind ps es
      [.fork n kind (Deed.parts n (R.newBranch n) ps dss es) e] e := by
  have htame : ∀ t o, e = some (t, o) → Tame o := fun t o he =>
    h.tame σ.tame_plan (hc.inner List.mem_cons_self) he
  refine ⟨⟨dss, rfl, h.parts⟩, fun u hu huN => h.prompt hu huN, fun t o he i => ?_,
    fun hleft hne => ?_⟩
  · rcases (h.leaves t o he).behind i with hend | hd | ⟨f, rfl, hf⟩
    · exact Or.inl hend
    · exact Or.inr hd
    · rw [(tame_error f).1 (htame t _ he)] at hf
      cases hf
  · obtain ⟨⟨t, o⟩, rfl⟩ := Option.ne_none_iff_exists'.1 hne
    refine ⟨h.landed rfl (htame t o rfl) hleft, Deed.recorded hleft ?_ hj hc⟩
    exact List.forall_mem_singleton.2 ⟨h.accounted, t, rfl, (h.leaves t o rfl).horizon⟩

/-- Parts that are started side by side by somebody who is really about to do so. -/
theorem Account.branches {α : Type} {w : Wait} {kind : JoinKind} {ps : List Procedure}
    {k : Outcome → Outline α} {e : Ending α}
    (h : Account R σ.desk.call σ.plan N b n (.now (.await w k)) ds e) (hn : n < N)
    {g : Except Failure α → Routine Value} (hr : (Stretch.now (.await w k)).Runs R σ.desk.call b n g)
    (hw : Schedule.sides w = some (kind, ps)) (hps : ps ≠ []) (hc : Deed.Calm ds) :
    ∃ (k' : Outcome → Routine Value) (dss : Fin ps.length → List Deed)
      (es : Fin ps.length → Ending Value) (ds' : List Deed) (e' : Ending (List Value)),
      ds = .fork n kind (Deed.parts n (R.newBranch n) ps dss es) e' :: ds' ∧
        R.Joins σ.desk.call σ.plan N n b kind ps k' dss es e' ∧
        Visit.Branches R N n kind ps es
          [.fork n kind (Deed.parts n (R.newBranch n) ps dss es) e'] e' ∧
        (∀ t o, e' = some (t, o) → Account R σ.desk.call σ.plan N b t (.now (k o)) ds' e) ∧
        (e' = none → e = none ∧ ds' = []) := by
  obtain ⟨-, hj⟩ := h.runs σ.erase_plan hn.le hr
  -- Whatever the account of the fork, it has happened.
  have hjoins : ∀ {dss : Fin ps.length → List Deed} {es : Fin ps.length → Ending Value}
      {e' : Ending (List Value)} {ds' : List Deed},
      ds = .fork n kind (Deed.parts n (R.newBranch n) ps dss es) e' :: ds' →
        ∃ k', R.Joins σ.desk.call σ.plan N n b kind ps k' dss es e' ∧
          Visit.Branches R N n kind ps es
            [.fork n kind (Deed.parts n (R.newBranch n) ps dss es) e'] e' := by
    rintro dss es e' ds' rfl
    obtain ⟨b', ps', k', dss', es', heq, hjoin⟩ := hj.joined (.here List.mem_cons_self)
    obtain ⟨rfl, hdss, hes⟩ := Deed.parts_inj heq
    obtain rfl := eq_of_heq hdss
    obtain rfl := eq_of_heq hes
    obtain ⟨w', -, ha⟩ := hjoin.forks.waits
    have hactive : (R.moment n).active = some (b, _) := hr
    cases hactive.symm.trans ha
    have hmem : ∀ x ∈ [Deed.fork n kind (Deed.parts n (R.newBranch n) ps dss es) e'],
        x ∈ .fork n kind (Deed.parts n (R.newBranch n) ps dss es) e' :: ds' := fun x hx =>
      List.mem_cons.2 (Or.inl (List.mem_singleton.1 hx))
    exact ⟨_, hjoin, hjoin.branches (hj.of_occurs fun hd => hd.mono hmem)
      (hc.of_occurs fun hd => hd.mono hmem)⟩
  cases h with
  | stop => exact absurd hn (Nat.lt_irrefl _)
  | call | calling | sleep | drain | drained => cases hw
  | skip hw' =>
    rw [hw] at hw'
    cases hw'
    exact absurd rfl hps
  | fork hw' _ _ _ _ _ _ _ _ _ _ hk =>
    rw [hw] at hw'
    cases hw'
    obtain ⟨k', hjoin, hb⟩ := hjoins rfl
    refine ⟨k', _, _, _, _, rfl, hjoin, hb, fun t o he => ?_, nofun⟩
    cases he
    exact hk
  | forking hw' =>
    rw [hw] at hw'
    cases hw'
    obtain ⟨k', hjoin, hb⟩ := hjoins rfl
    exact ⟨k', _, _, _, _, rfl, hjoin, hb, nofun, fun _ => ⟨rfl, rfl⟩⟩

/-! ## Waiting for all -/

namespace Visit

/-- How waiting for all of several parts goes. Without parts there are no results. Otherwise the results
are those of all parts, in their order, and a failure is that of the part that failed first. -/
structure Gathers (R : Run σ.body) (N n : Nat) (ps : List Procedure) (ds : List Deed)
    (e : Ending (List Value)) : Prop where
  empty : ps = [] → ds = [] ∧ e = some (n + 1, .ok [])
  branches : ps ≠ [] → ∃ es : Fin ps.length → Ending Value, Branches R N n .all ps es ds e ∧
    (∀ t vs, e = some (t, .ok vs) → vs.length = ps.length ∧
      ∀ i : Fin ps.length, ∃ v, vs[(i : Nat)]? = some v ∧ ∃ s < t, es i = some (s, .ok v)) ∧
    ∀ t f, e = some (t, .error f) → ∃ (i : Fin ps.length) (s : Nat), s < t ∧
      es i = some (s, .error f) ∧
      ∀ (i' : Fin ps.length) (s' : Nat) (g : Failure), es i' = some (s', .error g) → s ≤ s'

/-- Results become those of a new list, in the time that it takes; a failure is passed on. -/
structure Lists (R : Run σ.body) (N : Nat) (e : Ending (List Value)) (e' : Ending Value) : Prop where
  error : ∀ t f, e' = some (t, .error f) ↔ e = some (t, .error f)
  of_ok : ∀ t v, e' = some (t, .ok v) → ∃ t' vs, t = t' + 2 ∧ e = some (t', .ok vs) ∧
    (v, R.store t) = (R.store t').newList vs
  ok : ∀ t vs, e = some (t, .ok vs) → t + 2 ≤ N → ∃ v, e' = some (t + 2, .ok v)

theorem lists_none : Lists R N none none where
  error _ _ := by simp
  of_ok _ _ h := by cases h
  ok _ _ h := by cases h

theorem lists_error {f : Failure} : Lists R N (some (t, .error f)) (some (t, .error f)) where
  error _ _ := by simp
  of_ok _ _ h := by cases h
  ok _ _ h := by cases h

end Visit

namespace Account

/-- The list of results is made at once. -/
theorem lists {vs : List Value} {e : Ending Value}
    (h : Account R σ.desk.call σ.plan N b t
      (.now (plain (.modifyGet fun s => s.newList vs))) ds e) :
    Visit.Lists R N (some (t, .ok vs)) e := by
  have hlist := Routine.eval_modifyGet (fun s : Store => s.newList vs) (R.store t)
  obtain ⟨-, he⟩ := h.straight hlist
  refine ⟨fun t' f => ?_, fun t' v he' => ?_, fun t' vs' heq hN => ?_⟩
  · rcases he with rfl | ⟨rfl, -⟩ <;> simp
  · rcases he with rfl | ⟨rfl, hs⟩
    · cases he'
    · cases he'
      exact ⟨t, vs, rfl, rfl, by rw [hs]⟩
  · cases heq
    exact ⟨_, h.straight_over hlist hN⟩

theorem gathers {ps : List Procedure} {e : Ending (List Value)}
    (h : Account R σ.desk.call σ.plan N b n (.now (plain (.all ps))) ds e) (hn : n < N)
    {g : Except Failure (List Value) → Routine Value}
    (hr : (Stretch.now (plain (.all ps))).Runs R σ.desk.call b n g) (hc : Deed.Calm ds) :
    Visit.Gathers R N n ps ds e := by
  refine ⟨?_, fun hps => ?_⟩
  · rintro rfl
    cases h with
    | stop => exact absurd hn (Nat.lt_irrefl _)
    | skip hw _ _ _ h =>
      cases hw
      exact h.done_iff
    | fork hw hps | forking hw hps =>
      cases hw
      exact absurd rfl hps
  · obtain ⟨k', dss, es, ds', e', rfl, hjoin, hb, hsome, hnone⟩ := h.branches hn hr rfl hps hc
    -- Behind the join there is nothing but its outcome.
    obtain ⟨rfl, rfl⟩ : ds' = [] ∧ e' = e := by
      cases e' with
      | none => exact ⟨(hnone rfl).2, (hnone rfl).1.symm⟩
      | some y =>
        obtain ⟨t, o⟩ := y
        have hk := hsome t o rfl
        cases o with
        | ok vs =>
          obtain ⟨rfl, rfl⟩ := hk.done_iff
          exact ⟨rfl, rfl⟩
        | error f =>
          obtain ⟨rfl, rfl⟩ := hk.fail_iff
          exact ⟨rfl, rfl⟩
    exact ⟨es, hb, fun t vs he => hjoin.all_ok he, fun t f he => hjoin.all_error he⟩

theorem gathers_list {w : Ref .workflow} {c : Ref .context} {steps : List String} {e : Ending Value}
    (h : Account R σ.desk.call σ.plan N b n (.now (plain ((σ.scene w c).gather steps))) ds e)
    (hn : n < N) {g : Except Failure Value → Routine Value}
    (hr : (R.moment n).active = some (b, ((σ.scene w c).gather steps).thenOn g))
    (hc : Deed.Calm ds) :
    ∃ e', Visit.Gathers R N n ((σ.scene w c).side steps) ds e' ∧ Visit.Lists R N e' e := by
  have hruns := (Stretch.runs_plain σ.desk.call).2 hr
  rw [Scene.gather, Outline.plain_bind] at h hruns
  obtain ⟨g', hr', ⟨ds₁, t, vs, ds₂, h₁, ht, h₂, -, rfl⟩ | ⟨t, f, h₁, rfl⟩ | ⟨h₁, rfl⟩⟩ :=
    h.bind_runs σ.erase_plan hn.le hruns
  · rw [(h₂.straight (Routine.eval_modifyGet _ _)).1, List.append_nil] at hc ⊢
    exact ⟨_, h₁.gathers hn hr' hc, h₂.lists⟩
  · exact ⟨_, h₁.gathers hn hr' hc, Visit.lists_error⟩
  · exact ⟨_, h₁.gathers hn hr' hc, Visit.lists_none⟩

/-- The items of a batch get contexts of their own at its beginning, and then they are run side by
side. -/
theorem gathers_batch {w : Ref .workflow} {c : Ref .context} {iterator : String}
    {items : List Value} {e : Ending (List Value)}
    (h : Account R σ.desk.call σ.plan N b n (.now (plain ((σ.scene w c).runBatch iterator items)))
      ds e) (hn : n + 2 < N) {g : Except Failure (List Value) → Routine Value}
    (hr : (R.moment n).active = some (b, ((σ.scene w c).runBatch iterator items).thenOn g))
    (hc : Deed.Calm ds) :
    ∃ cs, (cs, R.store (n + 2)) = (R.store n).forkAll c items ∧
      Visit.Gathers R N (n + 2) (cs.map fun c' => .visit iterator w c') ds e := by
  have hruns := (Stretch.runs_plain σ.desk.call).2 hr
  rw [Scene.runBatch, Outline.plain_bind] at h hruns
  have hfork := Routine.eval_modifyGet (fun s : Store => s.forkAll c items) (R.store n)
  obtain ⟨g', -, ⟨ds₁, t, cs, ds₂, h₁, -, h₂, hr₂, rfl⟩ | ⟨t, f, h₁, rfl⟩ | ⟨h₁, rfl⟩⟩ :=
    h.bind_runs σ.erase_plan (by omega) hruns
  · obtain ⟨rfl, he | ⟨he, hs⟩⟩ := h₁.straight hfork
    · cases he
    · cases he
      exact ⟨_, by rw [hs], h₂.gathers hn hr₂ hc⟩
  · cases h₁.straight_over hfork hn.le
  · cases h₁.straight_over hfork hn.le

end Account

namespace Workflow

/-- **Branches that are all waited for.** A parallel step that waits for all of its branches, several
successors of a step and the items of a batch are run side by side. Whoever waits for them goes on when
the last of them has succeeded, with the results in the order in which they are declared, or else with
the failure of the one that failed first, without waiting for others. Nobody is stopped: by the time
nobody is left behind, all of them have come to their own ends, and everything that a step in them has
returned has been recorded. -/
theorem branches_join {w : Ref .workflow} {c : Ref .context} (hn : n + 2 < N) (hc : Deed.Calm ds) :
    (∀ {step : Step} {branches : List String} {e : Ending Value} {g},
      step.kind = .parallel branches true →
      Account R σ.desk.call σ.plan N b n (.now (dispatch (σ.scene w c) step)) ds e →
      (R.moment n).active = some (b, ((σ.scene w c).dispatch step).thenOn g) →
      ∃ e', Visit.Gathers R N n ((σ.scene w c).side branches) ds e' ∧ Visit.Lists R N e' e) ∧
    (∀ {steps : List String} {v : Value} {e : Ending Value} {g},
      Account R σ.desk.call σ.plan N b n (.now (plain ((σ.scene w c).follow (.fan steps) v))) ds e →
      (R.moment n).active = some (b, ((σ.scene w c).follow (.fan steps) v).thenOn g) →
      ∃ e', Visit.Gathers R N n ((σ.scene w c).side steps) ds e' ∧ Visit.Lists R N e' e) ∧
    ∀ {iterator : String} {items : List Value} {e : Ending (List Value)} {g},
      Account R σ.desk.call σ.plan N b n (.now (plain ((σ.scene w c).runBatch iterator items))) ds
        e →
      (R.moment n).active = some (b, ((σ.scene w c).runBatch iterator items).thenOn g) →
      ∃ cs, (cs, R.store (n + 2)) = (R.store n).forkAll c items ∧
        Visit.Gathers R N (n + 2) (cs.map fun c' => .visit iterator w c') ds e := by
  refine ⟨fun {step branches e g} hk h hr => ?_, fun {steps v e g} h hr =>
    h.gathers_list (by omega) hr hc, fun {iterator items e g} h hr => h.gathers_batch hn hr hc⟩
  have hdispatch : (σ.scene w c).dispatch step = (σ.scene w c).gather branches := by
    rw [Scene.dispatch, hk]
    rfl
  rw [hdispatch] at hr
  have houtline : dispatch (σ.scene w c) step = plain ((σ.scene w c).gather branches) := by
    rw [dispatch, hk]
    rfl
  rw [houtline] at h
  exact h.gathers_list (by omega) hr hc

/-- A step that is dispatched alone has an account in which no abort occurs and that ends with the
outcome of its branch. -/
theorem launched_dispatch (hσ : σ.desk.call.Tame) (hrun : σ.desk.call.Obey visitsOnly) (s : Store)
    (w : Ref .workflow) (c : Ref .context) (step : Step) {N : Nat} (hN : 1 ≤ N)
    {o : Except Failure Value}
    (hend : ((Run.launched σ.body s ((σ.scene w c).dispatch step)).moment N).outcome? 0 = some o) :
    ∃ ds t, Account (Run.launched σ.body s ((σ.scene w c).dispatch step)) σ.desk.call σ.plan N 0 1
      (.now (dispatch (σ.scene w c) step)) ds (some (t, o)) ∧ Deed.Calm ds := by
  have herase : (dispatch (σ.scene w c) step).erase σ.desk.call = (σ.scene w c).dispatch step :=
    Visit.Outlined.erase_dispatch (σ.scene w c) step
  obtain ⟨ds, t, o', h⟩ := Run.launched_account σ.desk.call σ.erase_plan herase hN
    (Schedule.isOpen_eq_false_iff.2 ⟨o, hend⟩)
  have hruns : (Stretch.now (dispatch (σ.scene w c) step)).Runs
      (Run.launched σ.body s ((σ.scene w c).dispatch step)) σ.desk.call 0 1 Routine.ofOutcome := by
    show _ = some (0, _)
    rw [herase, Routine.thenOn_ofOutcome]
    rfl
  obtain ⟨⟨-, htN, hactive⟩, -⟩ := h.runs σ.erase_plan hN hruns
  have hended : Run.Ended _ 0 t o' := hactive
  -- The branch ends with what the account ends with, and nothing else.
  have ho : o' = o := by
    rcases Nat.lt_or_ge t N with hlt | hge
    · have := Run.outcome?_of_le _ hlt hended.outcome?
      rw [hend] at this
      exact (Option.some_inj.1 this).symm
    · obtain rfl : t = N := le_antisymm htN hge
      have hopen := Run.isOpen_of_hasTurn _ hended.hasTurn
      rw [Schedule.isOpen, hend] at hopen
      cases hopen
  subst ho
  refine ⟨ds, t, h, calm_of_tame hσ hrun h (Visit.Outlined.tame_dispatch _ _) ?_ fun s => ?_⟩
  · refine (Visit.Outlined.says_dispatch _).mono fun l hl => ?_
    cases l <;> trivial
  · rw [Visit.Outlined.erase_dispatch_with]
    exact Scene.dispatch_obeys (fun id => calls_visitsOnly id _) (Conduct.permits_calling _)
      (Handlers.obey_unknown _) _

/-- User code that sleeps for a second and returns nothing. -/
def slowSetup : Setup :=
  ⟨default, ⟨fun _ _ => (Routine.sleep Binary64.one).bind fun _ => .done .null, default, none, [], [],
    none⟩⟩

theorem tame_slowSetup : slowSetup.desk.call.Tame := fun _ _ =>
  (Routine.tame_sleep _).bind fun _ => trivial

theorem obey_slowSetup : slowSetup.desk.call.Obey visitsOnly := fun _ _ _ =>
  (Routine.obeys_sleep _).bind fun _ _ _ => trivial

/-- A workflow with a step whose task takes its time and another one whose task is missing. -/
def sideStore : Store :=
  let work : Step := ⟨"work", .task ⟨"t", none, none, none, 0, .int 0⟩, .none⟩
  let lost : Step := ⟨"lost", .task ⟨"missing", none, none, none, 0, .int 0⟩, .none⟩
  let s := { Store.empty with
    workflows := #[⟨"w", "w", [("work", work), ("lost", lost)], "work", .null, .null, .null, [], [],
      []⟩]
    tasks := #[default]
    taskRegistry := [("t", ⟨0⟩)] }
  (s.newContext .null [] [] [] [] none 0).2

/-- Both steps side by side. -/
def sideStep (waitForAll : Bool) : Step := ⟨"both", .parallel ["work", "lost"] waitForAll, .none⟩

/-- What a step itself does, from an empty loop. -/
def sideRun (step : Step) : Run slowSetup.body :=
  .launched _ sideStore ((slowSetup.scene ⟨0⟩ ⟨0⟩).dispatch step)

theorem sideRun_account (step : Step) {N : Nat} (hN : 1 ≤ N)
    (hend : ((sideRun step).moment N).isOpen 0 = false) :
    ∃ ds t o, Account (sideRun step) slowSetup.desk.call slowSetup.plan N 0 1
      (.now (dispatch (slowSetup.scene ⟨0⟩ ⟨0⟩) step)) ds (some (t, o)) ∧ Deed.Calm ds := by
  obtain ⟨o, ho⟩ := Schedule.isOpen_eq_false_iff.1 hend
  obtain ⟨ds, t, h⟩ := launched_dispatch tame_slowSetup obey_slowSetup sideStore ⟨0⟩ ⟨0⟩ step hN ho
  exact ⟨ds, t, o, h⟩

/-- The step whose task is missing fails at once; the other one is left behind and comes to its end. -/
theorem branches_join_side : ((sideRun (sideStep true)).moment 80).detached = [] ∧
    ∃ ds t o, Account (sideRun (sideStep true)) slowSetup.desk.call slowSetup.plan 80 0 1
      (.now (dispatch (slowSetup.scene ⟨0⟩ ⟨0⟩) (sideStep true))) ds (some (t, o)) ∧
      ∃ e, Visit.Gathers (sideRun (sideStep true)) 80 1
        ((slowSetup.scene ⟨0⟩ ⟨0⟩).side ["work", "lost"]) ds e ∧
        Visit.Lists (sideRun (sideStep true)) 80 e (some (t, o)) := by
  obtain ⟨ds, t, o, h, hc⟩ := sideRun_account (sideStep true) (N := 80) (by decide)
    (by decide +kernel)
  exact ⟨by decide +kernel, ds, t, o, h,
    (branches_join (σ := slowSetup) (R := sideRun (sideStep true)) (by decide) hc).1 rfl h
      (congrArg some (congrArg (Prod.mk 0) (Routine.thenOn_ofOutcome _).symm))⟩

end Workflow

/-! ## Races -/

namespace Visit

/-- How a race of several parts goes. Without parts there is no result. Otherwise it has the outcome of
a part that ends at the time at which the first of them end, and that is the first declared of those
that have ended when the race goes on. -/
structure Races (R : Run σ.body) (N n : Nat) (ps : List Procedure) (ds : List Deed)
    (e : Ending Value) : Prop where
  empty : ps = [] → ds = [] ∧ e = some (n, .ok .null)
  branches : ps ≠ [] → ∃ (es : Fin ps.length → Ending Value) (e' : Ending (List Value)),
    Branches R N n .first ps es ds e' ∧ e'.map Prod.fst = e.map Prod.fst ∧
    ∀ t x, e = some (t, x) → ∃ (i : Fin ps.length) (s : Nat), s < t ∧ es i = some (s, x) ∧
      (∀ (i' : Fin ps.length) (s' : Nat) (x' : Except Failure Value), es i' = some (s', x') →
        (R.store s).clock.Precedes (R.store s').clock) ∧
      ∀ i' < i, ∀ s' x', es i' = some (s', x') → t ≤ s'

end Visit

namespace Workflow

/-- **Branches of which the first decides.** -/
theorem branches_race {w : Ref .workflow} {c : Ref .context} {step : Step} {branches : List String}
    {e : Ending Value} {g : Except Failure Value → Routine Value} (hn : n < N)
    (hk : step.kind = .parallel branches false)
    (h : Account R σ.desk.call σ.plan N b n (.now (dispatch (σ.scene w c) step)) ds e)
    (hr : (R.moment n).active = some (b, ((σ.scene w c).dispatch step).thenOn g))
    (hc : Deed.Calm ds) (ht : R.KeepsTime) :
    Visit.Races R N n ((σ.scene w c).side branches) ds e := by
  have houtline : dispatch (σ.scene w c) step =
      plain (if branches.isEmpty then pure .null else .first ((σ.scene w c).side branches)) := by
    rw [dispatch, hk]
    rfl
  have hruns : (Stretch.now (dispatch (σ.scene w c) step)).Runs R σ.desk.call b n g := by
    show _ = some (b, _)
    rw [show σ.desk.call = (σ.scene w c).call from rfl, Visit.Outlined.erase_dispatch]
    exact hr
  rw [houtline] at h hruns
  refine ⟨fun hnil => ?_, fun hps => ?_⟩
  · rw [if_pos (by simpa [Scene.side] using hnil)] at h
    exact h.done_iff
  · rw [if_neg (by simpa [Scene.side] using hps)] at h hruns
    obtain ⟨k', dss, es, ds', e', rfl, hjoin, hb, hsome, hnone⟩ := h.branches hn hruns rfl hps hc
    cases e' with
    | none =>
      obtain ⟨rfl, rfl⟩ := hnone rfl
      exact ⟨es, none, hb, rfl, by simp⟩
    | some y =>
      obtain ⟨t, o⟩ := y
      have hrest := hsome t o rfl
      obtain ⟨i, s, x, hs, hi, rfl, hfirst⟩ := hjoin.first_won rfl
      -- Behind the join there is nothing but the outcome of the winner.
      obtain ⟨rfl, rfl⟩ : ds' = [] ∧ e = some (t, x) := by
        cases x with
        | ok v => exact hrest.done_iff
        | error f => exact hrest.fail_iff
      refine ⟨es, _, hb, rfl, fun t' x' he => ?_⟩
      cases he
      exact ⟨i, s, hs, hi, fun i' s' x' hi' => hjoin.first_time ht rfl hi hs hi', hfirst⟩

/-- The step whose task is missing decides the race. -/
theorem branches_race_side : ((sideRun (sideStep false)).moment 80).detached = [] ∧
    ∃ ds t o, Account (sideRun (sideStep false)) slowSetup.desk.call slowSetup.plan 80 0 1
      (.now (dispatch (slowSetup.scene ⟨0⟩ ⟨0⟩) (sideStep false))) ds (some (t, o)) ∧
      Visit.Races (sideRun (sideStep false)) 80 1 ((slowSetup.scene ⟨0⟩ ⟨0⟩).side ["work", "lost"]) ds
        (some (t, o)) := by
  obtain ⟨ds, t, o, h, hc⟩ := sideRun_account (sideStep false) (N := 80) (by decide)
    (by decide +kernel)
  have htime : (sideRun (sideStep false)).KeepsTime := by
    refine Run.keepsTime_launched slowSetup.body sideStore
      ((slowSetup.scene ⟨0⟩ ⟨0⟩).dispatch (sideStep false)) (k := 79)
      (Option.isNone_iff_eq_none.1 (by decide +kernel)) fun n hn ha => ?_
    have hall : ((List.range 80).all fun n => ((sideRun (sideStep false)).moment n).active.isNone ||
        ((sideRun (sideStep false)).store (n + 1)).clock ==
          ((sideRun (sideStep false)).store n).clock) = true := by
      decide +kernel
    have hn := List.all_eq_true.1 hall n (List.mem_range.2 (Nat.lt_succ_of_le hn))
    rcases Bool.or_eq_true_iff.1 hn with hn | hn
    · exact absurd (Option.isNone_iff_eq_none.1 hn) ha
    · exact eq_of_beq hn
  exact ⟨by decide +kernel, ds, t, o, h,
    branches_race (σ := slowSetup) (R := sideRun (sideStep false)) (by decide) rfl h
      (congrArg some (congrArg (Prod.mk 0) (Routine.thenOn_ofOutcome _).symm)) hc htime⟩

end Workflow

end Conductor
