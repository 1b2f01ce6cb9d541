import Conductor.Proofs.Workflow.Frozen
import Conductor.Proofs.Workflow.Propagation
import Conductor.Workflow.Draft

/-!
# The retries that a task step has

A task step whose own work has failed is run again in a copy of the workflow in which it has one
retry less, and whatever comes behind it goes on in that copy. So what a visit of a step can spend is
what the workflow leaves to it through which the visit was reached (`Workflow.Carries`): the retries
of the definition, less one for every re-run of the same step inside of which the visit lies
(`Lies.carries`).

**Theorem (`Workflow.arrivals_retry`).** A visit of a task step makes tries until the first one
succeeds or these retries are used up.

A visit that is reached behind a re-run of the same step, through a cycle of successors or choices,
therefore does not find all retries of the definition (`spent_on_return`).
-/

namespace Conductor

open Visit (Scene)
open Visit.Outlined

variable {body : Procedure → Routine Value} {R : Run body} {plan : Procedure → Outline Value}
  {N : Nat} {b n : Nat} {ds : List Deed}

/-! ## Steps under their own ids -/

namespace Workflow

/-- Every step stands under its own id. -/
def Keyed (steps : Entries Step) : Prop :=
  ∀ id step, Entries.get? steps id = some step → step.id = id

variable {w : Workflow} {id : String} {step : Step} {steps : Entries Step}

theorem step_ok_iff : w.step id = .ok step ↔ Entries.get? w.steps id = some step := by
  unfold Workflow.step
  cases Entries.get? w.steps id <;> simp

theorem keyed_insert (h : Keyed steps) (step : Step) :
    Keyed (Entries.insert steps step.id step) := by
  intro id s hs
  by_cases hid : id = step.id
  · subst hid
    rw [Entries.get?_insert_self] at hs
    cases hs
    rfl
  · rw [Entries.get?_insert_of_ne _ _ hid] at hs
    exact h id s hs

end Workflow

namespace Draft

variable {d d' : Draft} {id : String} {ids : List String}

theorem keyed_add {s : Step} (hd : Workflow.Keyed d.steps) (h : d.add s = .ok d') :
    Workflow.Keyed d'.steps := by
  unfold add at h
  split at h
  · cases h
  · cases h
    exact Workflow.keyed_insert hd s

theorem keyed_follow {next : Successor} (hd : Workflow.Keyed d.steps)
    (h : d.follow id next = .ok d') : Workflow.Keyed d'.steps := by
  unfold follow at h
  cases hs : d.step id with
  | error c =>
    rw [hs] at h
    cases h
  | ok s =>
    rw [hs] at h
    cases h
    have hget : Entries.get? d.steps id = some s := by
      unfold Draft.step at hs
      cases hget : Entries.get? d.steps id with
      | none =>
        rw [hget] at hs
        cases hs
      | some s' =>
        rw [hget] at hs
        cases hs
        rfl
    obtain rfl := hd id s hget
    exact Workflow.keyed_insert hd (s.withNext next)

theorem keyed_link : ∀ {ids : List String} {d d' : Draft}, Workflow.Keyed d.steps →
    d.link ids = .ok d' → Workflow.Keyed d'.steps
  | [], d, d', hd, h => by
    cases h
    exact hd
  | [_], d, d', hd, h => by
    cases h
    exact hd
  | a :: a' :: rest, d, d', hd, h => by
    rw [link] at h
    cases hf : d.follow a (.one a') with
    | error c =>
      rw [hf] at h
      cases h
    | ok d₁ =>
      rw [hf] at h
      exact keyed_link (keyed_follow hd hf) h

/-- A workflow has the steps that have been collected. -/
theorem keyed_build {w : Workflow} (hd : Workflow.Keyed d.steps) (h : d.build = .ok w) :
    Workflow.Keyed w.steps := by
  unfold build at h
  split at h
  · cases h
  · cases h
    exact hd

end Draft

/-! ## Workflows with fewer retries -/

namespace Step

/-- The step with some retries less. -/
def lowered (step : Step) (k : Nat) : Step :=
  match step.kind with
  | .task t => { step with kind := .task { t with retries := t.retries - k } }
  | _ => step

theorem lowered_zero (step : Step) : step.lowered 0 = step := by
  obtain ⟨id, kind, next⟩ := step
  cases kind <;> simp [lowered]

@[simp] theorem lowered_id (step : Step) (k : Nat) : (step.lowered k).id = step.id := by
  unfold lowered
  split <;> rfl

theorem lowered_kind {step : Step} {t : TaskStep} (h : step.kind = .task t) (k : Nat) :
    (step.lowered k).kind = .task { t with retries := t.retries - k } := by
  rw [lowered, h]

/-- The copy that is put into the workflow for a re-run has one retry less. -/
theorem fewer_lowered {step : Step} {k : Nat} {t : TaskStep}
    (h : (step.lowered k).kind = .task t) : Scene.fewer (step.lowered k) t = step.lowered (k + 1) := by
  obtain ⟨id, kind, next⟩ := step
  cases kind with
  | task s =>
    cases h
    simp [lowered, Scene.fewer, sub_sub]
  | _ => cases h

end Step

namespace Workflow

/-- A workflow leaves a step as it is, but for some retries less. -/
structure Carries (w : Workflow) (step : Step) (k : Nat) : Prop where
  keyed : Keyed w.steps
  found : w.step step.id = .ok (step.lowered k)

/-- A re-run of a step takes one retry from it, and from no other step. -/
theorem Carries.fewer {w : Workflow} {step step' : Step} {k : Nat} {id : String} {t : TaskStep}
    (h : w.Carries step k) (hs : w.step id = .ok step') (ht : step'.kind = .task t) :
    (w.withStep (Scene.fewer step' t)).Carries step (k + if id = step.id then 1 else 0) := by
  refine ⟨keyed_insert h.keyed (Scene.fewer step' t), step_ok_iff.2 ?_⟩
  obtain rfl : step'.id = id := h.keyed id step' (step_ok_iff.1 hs)
  show Entries.get? (Entries.insert w.steps step'.id (Scene.fewer step' t)) step.id = _
  by_cases hid : step'.id = step.id
  · rw [hid, h.found] at hs
    cases hs
    rw [if_pos hid, ← hid, Entries.get?_insert_self, Step.fewer_lowered ht]
  · rw [if_neg hid, Entries.get?_insert_of_ne _ _ (Ne.symm hid), Nat.add_zero]
    exact step_ok_iff.1 h.found

end Workflow

/-! ## What a visit leads to -/

theorem Deed.Bare.not_starts {p : Procedure} {m : Nat} (h : Deed.Bare ds) :
    ¬Deed.Starts ds p m := by
  rintro ⟨b, inner, e, hd | ⟨kind, parts, e', hd, -⟩⟩
  · obtain ⟨_, _, heq⟩ | ⟨_, _, _, _, _, _, heq⟩ := h _ hd <;> cases heq
  · obtain ⟨_, _, heq⟩ | ⟨_, _, _, _, _, _, heq⟩ := h _ hd <;> cases heq

/-- What a step does stays in its workflow. -/
theorem Account.dispatch_starts {σ : Scene} {step : Step} {e : Ending Value}
    (h : Account R σ.call plan N b n (.now (dispatch σ step)) ds e) {p : Procedure} {m : Nat}
    (hp : Deed.Starts ds p m) : ∃ id c, p = .visit id σ.workflow c := by
  let C : Conduct := .calling fun p => ∃ id c, p = .visit id σ.workflow c
  refine (h.obeys (C := C) (fun _ _ _ => trivial) (Stretch.obeys_of ?_)).1 p m hp
  rw [erase_dispatch_with]
  exact Scene.dispatch_obeys (C := C) (σ := { σ with call := .unknown }) (fun id c _ => ⟨id, c, rfl⟩)
    (Conduct.permits_calling _) (Handlers.obey_unknown _) step

namespace Visit

variable {σ : Scene} {id : String}

theorem Begins.bare {step : Step} {k : Nat} (h : Begins R σ id n step k ds) : Deed.Bare ds := by
  obtain ⟨asks, rfl, ha⟩ := h.told
  exact ha.bare.cons_remark

theorem Closes.bare {l : Remark} {change : Store → Store} {name : HookName} {args : List Value}
    {k : Nat} (h : Closes R l change name args n k ds) : Deed.Bare ds := by
  obtain ⟨asks, rfl, ha⟩ := h.told
  exact ha.bare.cons_remark.cons_remark

/-- What a visit leads to: another visit in the same workflow, or the re-run of its step in a copy in
which the step has one retry less. -/
inductive Leads (R : Run body) (σ : Scene) (id : String) (n : Nat) : Procedure → Nat → Prop where
  | go {id' : String} {c : Ref .context} {m : Nat} : Leads R σ id n (.visit id' σ.workflow c) m
  | again {step : Step} {t : TaskStep} {v : Ref .workflow} {m : Nat} (hn : n ≤ m)
    (hk : ((R.store n).get σ.workflow).step id = .ok step) (ht : step.kind = .task t)
    (hv : (v, R.store (m + 2)) =
      (R.store m).alloc (((R.store m).get σ.workflow).withStep (Scene.fewer step t))) :
    Leads R σ id n (.visit id v σ.context) (m + 2)

theorem Follows.leads {next : Successor} {v : Value} {e : Ending Value} {p : Procedure} {m : Nat}
    (h : Follows σ next v b n ds e) (hp : Deed.Starts ds p m) :
    ∃ id c, p = .visit id σ.workflow c := by
  cases h with
  | early | last | nobody => exact absurd hp Deed.not_starts_nil
  | one => exact ⟨_, _, (Deed.starts_part hp).2⟩
  | fan _ hparts =>
    obtain ⟨b', inner', e', h | ⟨kind, parts, x, h, hp⟩⟩ := hp
    · cases List.mem_singleton.1 h
    · cases List.mem_singleton.1 h
      obtain ⟨step, -, _, _, _, heq⟩ := hparts _ hp
      cases heq
      exact ⟨_, _, rfl⟩

/-- **Whatever a visit starts** is a visit in the same workflow or its re-run. -/
theorem Stages.leads {e : Ending Value} (h : Stages R plan N b σ id n ds e) {p : Procedure} {m : Nat}
    (hp : Deed.Starts ds p m) : Leads R σ id n p m := by
  have hgo : (∃ id c, p = .visit id σ.workflow c) → Leads R σ id n p m := by
    rintro ⟨id, c, rfl⟩
    exact .go
  cases h with
  | unknown | early => exact absurd hp Deed.not_starts_nil
  | telling _ _ hbare => exact absurd hp hbare.not_starts
  | running hb hd =>
    exact (Deed.starts_append hp).elim (fun h => absurd h hb.bare.not_starts) fun h =>
      hgo (hd.dispatch_starts h)
  | failed hb hd hr =>
    rcases Deed.starts_append hp with h | h
    · exact absurd h hb.bare.not_starts
    rcases Deed.starts_append h with h | h
    · exact hgo (hd.dispatch_starts h)
    cases hr with
    | telling _ hbare => exact absurd h hbare.not_starts
    | gaveUp hcl => exact absurd h hcl.bare.not_starts
    | waiting hcl => exact absurd h hcl.bare.not_starts
    | again hcl ht _ hm hw =>
      rcases Deed.starts_append h with h | h
      · exact absurd h hcl.bare.not_starts
      obtain ⟨rfl, rfl⟩ := Deed.starts_part h
      have hlater := hb.later
      have hend := hd.ending_ge rfl
      have hlater' := hcl.later
      exact .again (by omega) hb.known ht hw
  | returned hb hd hs =>
    rcases Deed.starts_append hp with h | h
    · exact absurd h hb.bare.not_starts
    rcases Deed.starts_append h with h | h
    · exact hgo (hd.dispatch_starts h)
    cases hs with
    | telling _ hbare => exact absurd h hbare.not_starts
    | following hcl hf =>
      exact (Deed.starts_append h).elim (fun h => absurd h hcl.bare.not_starts) fun h =>
        hgo (hf.followed.leads h)

end Visit

/-! ## The way to a visit -/

/-- Where a deed lies among deeds that go on in a workflow: not inside of user code, but inside of
visits, of which some number are re-runs of the step of the given id, each in a workflow of its own.
The deed is then one of those that go on in the last of these workflows. -/
inductive Lies (id : String) : Ref .workflow → List Deed → Nat → Ref .workflow → Deed → Prop where
  | here {w : Ref .workflow} {ds : List Deed} {d : Deed} (h : d ∈ ds) : Lies id w ds 0 w d
  | side {w v : Ref .workflow} {ds inner : List Deed} {m k : Nat} {kind : JoinKind}
    {e : Ending (List Value)} {d : Deed} (h : .fork m kind inner e ∈ ds)
    (hd : Lies id w inner k v d) : Lies id w ds k v d
  | inside {w v : Ref .workflow} {ds inner : List Deed} {m b k : Nat} {id' : String}
    {c : Ref .context} {e : Ending Value} {d : Deed} (h : .part m b (.visit id' w c) inner e ∈ ds)
    (hd : Lies id w inner k v d) : Lies id w ds k v d
  | rerun {w u v : Ref .workflow} {ds inner : List Deed} {m b k : Nat} {id' : String}
    {c : Ref .context} {e : Ending Value} {d : Deed} (h : .part m b (.visit id' u c) inner e ∈ ds)
    (hu : u ≠ w) (hd : Lies id u inner k v d) :
    Lies id w ds (k + if id' = id then 1 else 0) v d

theorem Lies.occurs {id : String} {w v : Ref .workflow} {k : Nat} {d : Deed}
    (h : Lies id w ds k v d) : Occurs d ds := by
  induction h with
  | here h => exact .here h
  | side h _ ih => exact .inside h ih
  | inside h _ ih => exact .inside h ih
  | rerun h _ _ ih => exact .inside h ih

/-- A workflow that is there at a moment and leaves a step as it is, but for some retries less. -/
structure Run.Carries (R : Run body) (w : Ref .workflow) (step : Step) (k i : Nat) : Prop where
  there : w.index < (R.store i).workflows.size
  carries : ((R.store i).get w).Carries step k

section Way

variable {σ : Setup} {R : Run σ.body} {step : Step} {w : Ref .workflow}

theorem Run.Carries.mono {i j k : Nat} (h : R.Carries w step k i)
    (hf : (R.store i).Freezes (R.store j)) : R.Carries w step k j :=
  ⟨h.there.trans_le hf.size, by rw [hf.same w h.there]; exact h.carries⟩

/-- What a visit in a workflow leads to is again a visit in that workflow or in one that leaves the
step as it is, but for one retry less if it is the step that is run again. -/
theorem Visit.Leads.carries {c : Ref .context} {id : String} {n k m : Nat} {p : Procedure}
    (h : Visit.Leads R (σ.scene w c) id n p m) (hw : R.Carries w step k n)
    (hfreeze : ∀ {i j}, i ≤ j → (R.store i).Freezes (R.store j)) : ∃ id' u c', p = .visit id' u c' ∧
      (u = w ∨ R.Carries u step (k + if id' = step.id then 1 else 0) m) := by
  cases h with
  | go => exact ⟨_, _, _, rfl, Or.inl rfl⟩
  | @again step' t v i hn hk ht hv =>
    have hv₁ := congrArg Prod.fst hv
    have hv₂ := congrArg Prod.snd hv
    dsimp only at hv₁ hv₂
    refine ⟨id, v, c, rfl, Or.inr ⟨?_, ?_⟩⟩
    · rw [hv₁, hv₂]
      exact (Nat.lt_succ_self _).trans_eq (Array.size_push _).symm
    · rw [hv₁, hv₂, Store.get_alloc, (hfreeze hn).same w hw.there]
      exact hw.carries.fewer hk ht

/-- **What is left of a step's retries** where a deed lies. -/
theorem Lies.carries (hfreeze : ∀ {i j}, i ≤ j → (R.store i).Freezes (R.store j)) {v : Ref .workflow}
    {d : Deed} {k : Nat} (h : Lies step.id w ds k v d) : ∀ {i K N : Nat}, R.Carries w step K i →
      (∀ x ∈ ds, i ≤ x.moment ∧ x.Accounted R σ.desk.call σ.plan N) → Deed.Calm ds →
      Deed.Sound Use.IsHook ds →
      (∀ p m, Deed.Starts ds p m → ∃ id u c, p = .visit id u c ∧
        (u = w ∨ R.Carries u step (K + if id = step.id then 1 else 0) m)) →
      R.Carries v step (K + k) d.moment ∧ d.Accounted R σ.desk.call σ.plan N := by
  -- What goes on inside of a visit is what a visit leads to.
  have hvisit : ∀ {u : Ref .workflow} {id : String} {c : Ref .context} {m b i K N : Nat}
      {inner : List Deed} {e : Ending Value}, R.Carries u step K i → i ≤ m →
      (Deed.part m b (.visit id u c) inner e).Accounted R σ.desk.call σ.plan N → Deed.Calm inner →
      Deed.Sound Use.IsHook inner → ∀ p j, Deed.Starts inner p j → ∃ id u' c, p = .visit id u' c ∧
        (u' = u ∨ R.Carries u' step (K + if id = step.id then 1 else 0) j) := by
    intro u id c m b i K N inner e hu hi hacc hc hs p j hp
    rcases hacc.part_cases with ⟨t, ht, h⟩ | ⟨rfl, -⟩
    · have hlead := (Account.visit (σ := σ.scene u c) h σ.tame_plan hc hs).leads hp
      exact hlead.carries (hu.mono (hfreeze (by omega))) hfreeze
    · exact absurd hp Deed.not_starts_nil
  induction h with
  | here hd =>
    intro i K N hw hacc _ _ _
    obtain ⟨hi, hd⟩ := hacc _ hd
    exact ⟨hw.mono (hfreeze hi), hd⟩
  | @side w v ds inner m k kind e d hd hlies ih =>
    intro i K N hw hacc hc hs hstarts
    obtain ⟨hi, hfork⟩ := hacc _ hd
    refine ih hw (fun x hx => ?_) (hc.inner hd) (hs.inside (.here hd)) fun p j hp => ?_
    · exact ⟨hi.trans (Account.inside hfork hx).1, (Account.inside hfork hx).2⟩
    · cases hfork with
      | fork _ _ _ =>
        refine hstarts p j ?_
        obtain ⟨b, inner', e', h | ⟨_, _, _, h, -⟩⟩ := hp
        · obtain ⟨x, hx⟩ := Deed.mem_parts.1 h
          injection hx with hj
          subst hj
          exact ⟨b, inner', e', Or.inr ⟨_, _, _, hd, h⟩⟩
        · obtain ⟨x, hx⟩ := Deed.mem_parts.1 h
          cases hx
  | @inside w v ds inner m b k id' c e d hd hlies ih =>
    intro i K N hw hacc hc hs _
    obtain ⟨hi, hpart⟩ := hacc _ hd
    have hc' := hc.inner hd
    have hs' := hs.inside (.here hd)
    refine ih hw (fun x hx => ?_) hc' hs' (hvisit hw hi hpart hc' hs')
    exact ⟨hi.trans (Account.inside hpart hx).1, (Account.inside hpart hx).2⟩
  | @rerun w u v ds inner m b k id' c e d hd hne hlies ih =>
    intro i K N hw hacc hc hs hstarts
    obtain ⟨hi, hpart⟩ := hacc _ hd
    have hc' := hc.inner hd
    have hs' := hs.inside (.here hd)
    obtain ⟨_, _, _, heq, hu⟩ := hstarts _ _ ⟨b, inner, e, Or.inl hd⟩
    cases heq
    have hu := hu.resolve_left hne
    rw [Nat.add_comm k, ← Nat.add_assoc]
    refine ih hu (fun x hx => ?_) hc' hs' (hvisit hu le_rfl hpart hc' hs')
    exact Account.inside hpart hx

end Way

/-! ## Tries -/

namespace Visit

/-- Whether a try has succeeded. -/
def Succeeds : Option (Except Failure Value) → Bool
  | some (.ok _) => true
  | some (.error _) | none => false

/-- The tries that a visit makes with its re-runs, in order: how the step's own work has ended each
time it was begun, if it has. -/
inductive Tries (R : Run body) (plan : Procedure → Outline Value) (N b : Nat) (id : String) :
    Scene → Nat → List Deed → Ending Value → List (Option (Except Failure Value)) → Prop where
  | early {σ : Scene} {n : Nat} {ds : List Deed} (h : Deed.Bare ds) : Tries R plan N b id σ n ds none []
  | going {σ : Scene} {n k : Nat} {pre own : List Deed} {step : Step}
    (hb : Begins R σ id n step k pre)
    (h : Account R σ.call plan N b k (.now (dispatch σ step)) own none) :
    Tries R plan N b id σ n (pre ++ own) none [none]
  | succeeded {σ : Scene} {n k t : Nat} {pre own rest : List Deed} {step : Step} {v : Value}
    {e : Ending Value} (hb : Begins R σ id n step k pre)
    (h : Account R σ.call plan N b k (.now (dispatch σ step)) own (some (t, .ok v)))
    (hs : Settled R plan N b σ id step v t rest e) :
    Tries R plan N b id σ n (pre ++ (own ++ rest)) e [some (.ok v)]
  | failed {σ : Scene} {n k t : Nat} {pre own rest : List Deed} {step : Step} {f : Failure}
    {e : Ending Value} (hb : Begins R σ id n step k pre)
    (h : Account R σ.call plan N b k (.now (dispatch σ step)) own (some (t, .error f)))
    (hrest : Deed.Bare rest) : Tries R plan N b id σ n (pre ++ (own ++ rest)) e [some (.error f)]
  | again {σ : Scene} {n k t m : Nat} {pre own close inner : List Deed} {step : Step} {f : Failure}
    {v : Ref .workflow} {e : Ending Value} {os : List (Option (Except Failure Value))}
    (hb : Begins R σ id n step k pre)
    (h : Account R σ.call plan N b k (.now (dispatch σ step)) own (some (t, .error f)))
    (hclose : Deed.Bare close) (hv : v ≠ σ.workflow)
    (hrun : Tries R plan N b id { σ with workflow := v } (m + 1) inner e os) :
    Tries R plan N b id σ n (pre ++ (own ++ (close ++ [.part m b (.visit id v σ.context) inner e]))) e
      (some (.error f) :: os)

/-- There are tries until the first one succeeds or a budget is used up, and no fewer if the visit
is over. -/
def Spends (budget : Nat) (os : List (Option (Except Failure Value))) (e : Ending Value) : Prop :=
  os.length ≤ min (os.findIdx Succeeds + 1) budget ∧
    (e ≠ none → os.length = min (os.findIdx Succeeds + 1) budget)

theorem spends_single {budget : Nat} {o : Option (Except Failure Value)} {e : Ending Value}
    (h : e = none ∨ Succeeds o = true ∨ budget = 0) : Spends (budget + 1) [o] e := by
  have hidx : [o].findIdx Succeeds = if Succeeds o = true then 0 else 1 := by
    cases ho : Succeeds o <;> simp [List.findIdx_cons, ho]
  rw [Spends, hidx, List.length_singleton]
  refine ⟨by omega, fun he => ?_⟩
  obtain h | h := h.resolve_left he
  · rw [if_pos h]
    omega
  · omega

theorem Spends.cons {budget : Nat} {os : List (Option (Except Failure Value))} {e : Ending Value}
    {f : Failure} (h : Spends budget os e) : Spends (budget + 1) (some (.error f) :: os) e := by
  have hidx : (some (.error f) :: os).findIdx Succeeds = os.findIdx Succeeds + 1 := by
    simp [List.findIdx_cons, Succeeds]
  obtain ⟨h₁, h₂⟩ := h
  refine ⟨?_, fun he => ?_⟩
  · rw [hidx, List.length_cons]
    omega
  · have := h₂ he
    rw [hidx, List.length_cons]
    omega

end Visit

section Budget

variable {σ : Setup} {R : Run σ.body}

/-- **A visit spends the retries that its step has left**: it makes tries until the first one succeeds
or the retries are used up. -/
theorem Visit.Stages.spends (hfreeze : ∀ {i j}, i ≤ j → (R.store i).Freezes (R.store j))
    {step : Step} {t : TaskStep} (ht : step.kind = .task t) (hdelay : ∀ c, ¬t.retryDelay.TooLong c)
    {c : Ref .context} : ∀ {left : Nat} {w : Ref .workflow} {k n : Nat} {ds : List Deed}
      {e : Ending Value}, left = (t.retries - k).toNat → R.Carries w step k n →
      Visit.Stages R σ.plan N b (σ.scene w c) step.id n ds e → Deed.Calm ds →
      Deed.Sound Use.IsHook ds → ∃ os,
        Visit.Tries R σ.plan N b step.id (σ.scene w c) n ds e os ∧ Visit.Spends (left + 1) os e := by
  intro left
  induction left using Nat.strong_induction_on with
  | _ left ih =>
    intro w k n ds e hleft hw h hc hs
    have hkind : ∀ {step'}, ((R.store n).get w).step step.id = .ok step' →
        step'.kind = .task { t with retries := t.retries - k } := by
      intro step' hk
      cases hw.carries.found.symm.trans hk
      exact Step.lowered_kind ht k
    cases h with
    | unknown h => cases hw.carries.found.symm.trans h
    | early => exact ⟨[], .early Deed.bare_nil, Nat.zero_le _, nofun⟩
    | telling _ _ hb => exact ⟨[], .early hb, Nat.zero_le _, nofun⟩
    | running hb hd =>
      exact ⟨_, .going hb hd, Visit.spends_single (Or.inl rfl)⟩
    | returned hb hd hsettle =>
      exact ⟨_, .succeeded hb hd hsettle, Visit.spends_single (Or.inr (Or.inl rfl))⟩
    | failed hb hd hr =>
      have hkind := hkind hb.known
      cases hr with
      | telling _ hb' => exact ⟨_, .failed hb hd hb', Visit.spends_single (Or.inl rfl)⟩
      | gaveUp hcl hno =>
        rw [Step.retries, hkind] at hno
        dsimp only at hno
        exact ⟨_, .failed hb hd hcl.bare, Visit.spends_single (Or.inr (Or.inr (by omega)))⟩
      | waiting hcl ht' _ he =>
        obtain rfl | ⟨_, g, -, -, hlong⟩ := he
        · exact ⟨_, .failed hb hd hcl.bare, Visit.spends_single (Or.inl rfl)⟩
        · cases hkind.symm.trans ht'
          exact absurd hlong (hdelay _)
      | @again close inner _ m _ t' v hcl ht' hpos hm hv hst hrun =>
        cases hkind.symm.trans ht'
        dsimp only at hpos
        obtain ⟨left, rfl⟩ : ∃ l, left = l + 1 := ⟨left - 1, by omega⟩
        have hlater := hb.later
        have hend := hd.ending_ge rfl
        have hlater' := hcl.later
        have hnm : n ≤ m := by omega
        have hlead : Visit.Leads R (σ.scene w c) step.id n (.visit step.id v c) (m + 2) :=
          .again hnm hb.known ht' hv
        obtain ⟨_, _, _, heq, hv'⟩ := hlead.carries hw hfreeze
        cases heq
        have hne : v ≠ w := by
          rintro rfl
          have hfresh : v.index = (R.store m).workflows.size := congrArg (fun x => x.1.index) hv
          exact (hw.mono (hfreeze hnm)).there.ne hfresh
        rw [if_pos rfl] at hv'
        have hv' := (hv'.resolve_left hne).mono (hfreeze (Nat.le_succ (m + 2)))
        have hc' := (hc.append.2.append.2.append.2.inner List.mem_cons_self)
        have hs' := (hs.append.2.append.2.append.2.inside (.here List.mem_cons_self))
        obtain ⟨os, htries, hspends⟩ := ih left (Nat.lt_succ_self left) (by push_cast; omega) hv'
          (Account.visit (σ := σ.scene v c) hrun σ.tame_plan hc' hs') hc' hs'
        exact ⟨_, .again hb hd hcl.bare hne htries, hspends.cons⟩

end Budget

/-! ## Runs -/

namespace Workflow

variable {σ : Setup} {R : Run σ.body}

/-- **An arrival at a task step spends the retries that are left to it.** Wherever a run of a workflow
comes to a task step, other than to run it again, tries are made until the first one succeeds or the
retries of the step are used up, less one for every re-run of the step inside of which the visit
lies. -/
theorem arrivals_retry (hσ : σ.desk.call.Obey .frozen) (hR : R.Minds .frozen) {r : Ref .workflow}
    {input : Value} {metadata : Entries Value} {e : Ending Value}
    (h : Account R σ.desk.call σ.plan N b n (.now (outline r input metadata)) ds e)
    (hc : Deed.Calm ds) (hs : Deed.Sound Use.IsHook ds)
    (hr : r.index < (R.store n).workflows.size) (hkeyed : Keyed ((R.store n).get r).steps)
    {step : Step} {t : TaskStep} (hstep : ((R.store n).get r).step step.id = .ok step)
    (ht : step.kind = .task t) (hdelay : ∀ cause, ¬t.retryDelay.TooLong cause)
    {w : Ref .workflow} {c : Ref .context} {k m b' : Nat} {inner : List Deed} {e' : Ending Value}
    (hlies : Lies step.id r ds k w (.part m b' (.visit step.id w c) inner e')) :
    inner = [] ∧ e' = none ∨ ∃ i, m < i ∧ ∃ os,
      Visit.Tries R σ.plan N b' step.id (σ.scene w c) i inner e' os ∧
        Visit.Spends ((t.retries - k).toNat + 1) os e' := by
  have hfreeze : ∀ {i j}, i ≤ j → (R.store i).Freezes (R.store j) := fun hij =>
    Run.freezes hσ hR hij
  -- The run itself only visits steps of its workflow.
  have hstarts : ∀ p j, Deed.Starts ds p j → ∃ id c, p = .visit id r c := by
    let C : Conduct := .calling fun p => ∃ id c, p = .visit id r c
    refine (h.obeys (C := C) (fun _ _ _ => trivial) (Stretch.obeys_of ?_)).1
    rw [erase_outline]
    exact execute_obeys (C := C) (Conduct.permits_calling _) .unknown (Handlers.obey_unknown _) r
      (fun id c _ => ⟨id, c, rfl⟩) input metadata
  have hbegin : R.Carries r step 0 n := ⟨hr, hkeyed, by rw [Step.lowered_zero]; exact hstep⟩
  obtain ⟨hcarries, hacc⟩ := hlies.carries hfreeze hbegin
    (fun x hx => ⟨(h.mem x hx).1, (h.mem x hx).2.1⟩) hc hs fun p j hp => by
      obtain ⟨id, c, rfl⟩ := hstarts p j hp
      exact ⟨id, r, c, rfl, Or.inl rfl⟩
  have hocc := hlies.occurs
  rcases hacc.part_cases with ⟨i, hi, hv⟩ | hnot
  · have hc' := hc.inside hocc
    have hs' := hs.inside hocc
    rw [Nat.zero_add] at hcarries
    exact Or.inr ⟨i, hi, Visit.Stages.spends hfreeze ht hdelay rfl
      (hcarries.mono (hfreeze (Nat.le_of_lt hi)))
      (Account.visit (σ := σ.scene w c) hv σ.tame_plan hc' hs') hc' hs'⟩
  · exact Or.inl hnot

/-- The entrypoint of the run of a lost task, at which the run arrives in the beginning. -/
theorem arrivals_retry_lost : ∃ ds t o, Account lostRun promptSetup.desk.call promptSetup.plan 66 0 1
      (.now (outline ⟨0⟩ .null [])) ds (some (t, o)) ∧ ∃ m c inner e',
    Lies "work" ⟨0⟩ ds 0 ⟨0⟩ (.part m 0 (.visit "work" ⟨0⟩ c) inner e') ∧
      (inner = [] ∧ e' = none ∨ ∃ i, m < i ∧ ∃ os,
        Visit.Tries lostRun promptSetup.plan 66 0 "work" (promptSetup.scene ⟨0⟩ c) i inner e' os ∧
          Visit.Spends 1 os e') := by
  have hobey : promptSetup.desk.call.Obey .frozen := fun _ _ _ => trivial
  have hexecute : ∀ s, (execute promptSetup.desk.call ⟨0⟩ .null []).Obeys .frozen s := fun _ =>
    execute_obeys Conduct.permits_frozen promptSetup.desk.call hobey ⟨0⟩
      (fun id => Conduct.calls_frozen id ⟨0⟩) .null []
  have hminds : lostRun.Minds .frozen := Run.minds_launched hexecute
  obtain ⟨-, -, hclock⟩ := lostRun_over
  obtain ⟨ds, t, o, h, hc, hs⟩ := lostRun_account
  have hkeyed : Keyed ((lostRun.store 1).get (⟨0⟩ : Ref .workflow)).steps := by
    intro id step hstep
    change Entries.get? [("work", _), ("lost", _)] id = some step at hstep
    simp only [Entries.get?] at hstep
    split at hstep
    · next hid => cases hstep; exact hid
    · split at hstep
      · next hid => cases hstep; exact hid
      · cases hstep
  let t : TaskStep := ⟨"t", none, none, none, 0, .int 0⟩
  let step : Step := ⟨"work", .task t, .one "lost"⟩
  have hstep : ((lostRun.store 1).get (⟨0⟩ : Ref .workflow)).step step.id = .ok step := rfl
  have hkind : step.kind = .task t := rfl
  have hdelay : ∀ cause, ¬t.retryDelay.TooLong cause := by
    simp [t, Number.TooLong, Number.isPositive]
  obtain ⟨m, c, inner, e', hd⟩ := (h.execute promptSetup.tame_plan hc (hs _) hclock).visited
  have hentry : ((lostRun.store (1 + 3)).get (⟨0⟩ : Ref .workflow)).entrypoint = "work" := by
    decide +kernel
  rw [hentry] at hd
  exact ⟨ds, _, o, h, m, c, inner, e', .here hd, arrivals_retry (σ := promptSetup) hobey hminds h hc
    (hs _) (by decide +kernel) hkeyed hstep hkind hdelay (.here hd)⟩

/-- User code that fails and returns by turns when it is called for a task, and finds every condition
to hold. Failures are counted in the store, and what returns counts along. -/
def turnsSetup : Setup :=
  ⟨default, fun _ args => .get fun s =>
    if args.length = 1 then .done (.bool true)
    else if s.nextFailure % 2 = 0 then .raise (.raised .custom "even")
    else .modifyGet fun s => (.null, { s with nextFailure := s.nextFailure + 1 }),
    default, none, [], [], none⟩

/-- A task step with one retry, to which a choice always leads back. -/
def returnStore : Store :=
  let work : Step := ⟨"work", .task ⟨"t", none, none, none, 1, .int 0⟩, .one "again"⟩
  let again : Step := ⟨"again", .condition ⟨0⟩ "work" "work", .none⟩
  { Store.empty with
    workflows := #[⟨"w", "w", [("work", work), ("again", again)], "work", .null, .null, .null, [], [],
      []⟩]
    tasks := #[default]
    taskRegistry := [("t", ⟨0⟩)] }

def returnRun : Run turnsSetup.body :=
  .launched _ returnStore (execute turnsSetup.desk.call ⟨0⟩ .null [])

/-- The first arrival fails once and then returns, and the second arrival fails for good with its
first try: the run has ended with a failure after three tries, though the fourth would have
returned. -/
theorem spent_on_return : ((returnRun.moment 95).outcome? 0).map Except.isOk = some false ∧
    (returnRun.store 95).nextFailure = 3 := by
  decide +kernel

end Workflow

end Conductor
