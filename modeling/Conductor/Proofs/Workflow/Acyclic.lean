import Conductor.Proofs.Schedule.Descent
import Conductor.Proofs.Workflow.Retrying

/-!
# Acyclic workflows settle

A visit waits for visits of the steps that its own step refers to, and for a re-run of its own step
with one retry less. If no step leads back to itself, then nothing in a run of the workflow goes on
forever, however long the lists are that map steps go through and whatever the retry steps do: a step
stands lower than those that refer to it, and among the re-runs of one step those stand lower that
have fewer retries left. References may lead to steps that are not there.

**Theorem (`Workflow.acyclic_settles`).** The execution of an acyclic workflow settles after finitely
many steps of the schedule, and a drain behind it returns after finitely many steps.
-/

namespace Conductor

open Schedule

namespace Workflow

/-! ## References -/

/-- One step of a workflow refers to another. -/
def Refers (w : Workflow) (x y : String) : Prop :=
  ∃ step, w.step x = .ok step ∧ y ∈ step.references

/-- No step of a workflow leads back to itself. -/
def Acyclic (w : Workflow) : Prop := ∀ x, ¬Relation.TransGen w.Refers x x

variable {w : Workflow} {x y : String}

theorem mem_keys {α : Type} {es : Entries α} {v : α} (h : Entries.get? es x = some v) :
    x ∈ Entries.keys es := by
  induction es with
  | nil => cases h
  | cons e es ih =>
    obtain ⟨k, u⟩ := e
    unfold Entries.get? at h
    split at h
    · next hk => exact hk ▸ List.mem_cons_self
    · exact List.mem_cons_of_mem _ (ih h)

theorem Refers.mem (h : w.Refers x y) : x ∈ Entries.keys w.steps := by
  obtain ⟨step, hstep, -⟩ := h
  exact mem_keys (step_ok_iff.1 hstep)

/-- There are only finitely many steps, so references that do not lead back come to an end. -/
theorem Acyclic.acc (h : w.Acyclic) (x : String) : Acc (fun y x => w.Refers x y) x := by
  let S := {x // x ∈ Entries.keys w.steps}
  have : Finite S := (Entries.keys w.steps).finite_toSet.to_subtype
  let r : S → S → Prop := fun y x => Relation.TransGen w.Refers x y
  have : IsTrans S r := ⟨fun _ _ _ hab hbc => hbc.trans hab⟩
  have : Std.Irrefl r := ⟨fun a => h a⟩
  have hwf : WellFounded r := Finite.wellFounded_of_trans_of_irrefl r
  have hmem : ∀ a : S, Acc (fun y x => w.Refers x y) a.1 := by
    intro a
    induction a using hwf.induction with
    | _ a ih =>
      refine ⟨_, fun y hy => ?_⟩
      by_cases hys : y ∈ Entries.keys w.steps
      · exact ih ⟨y, hys⟩ (.single hy)
      · exact ⟨_, fun z hz => absurd hz.mem hys⟩
  by_cases hx : x ∈ Entries.keys w.steps
  · exact hmem ⟨x, hx⟩
  · exact ⟨_, fun y hy => absurd hy.mem hx⟩

/-! ## Copies with fewer retries -/

/-- The retries of a task step. -/
def retriesOf (w : Workflow) (x : String) : Nat :=
  match w.step x with
  | .ok ⟨_, .task t, _⟩ => t.retries.toNat
  | _ => 0

theorem retriesOf_eq {step : Step} {t : TaskStep} (hs : w.step x = .ok step)
    (hk : step.kind = .task t) : w.retriesOf x = t.retries.toNat := by
  obtain ⟨id, kind, next⟩ := step
  cases hk
  rw [retriesOf, hs]

variable {step : Step} {t : TaskStep}

theorem step_fewer (hs : w.step x = .ok step) (hid : step.id = x) :
    (w.withStep (Visit.Scene.fewer step t)).step x = .ok (Visit.Scene.fewer step t) := by
  subst hid
  exact step_ok_iff.2 (Entries.get?_insert_self _ _ _)

theorem step_fewer_of_ne (hid : step.id ≠ y) {step' : Step} :
    (w.withStep (Visit.Scene.fewer step t)).step y = .ok step' ↔ w.step y = .ok step' := by
  rw [step_ok_iff, step_ok_iff]
  exact iff_of_eq (congrArg (· = some step') (Entries.get?_insert_of_ne _ _ (Ne.symm hid)))

/-- A copy with one retry less has the same references. -/
theorem refers_fewer (hs : w.step x = .ok step) (hid : step.id = x) (hk : step.kind = .task t) :
    (w.withStep (Visit.Scene.fewer step t)).Refers = w.Refers := by
  have href : (Visit.Scene.fewer step t).references = step.references := by
    simp [Step.references, Visit.Scene.fewer, hk]
  funext y z
  rw [eq_iff_iff]
  by_cases hy : x = y
  · subst hy
    constructor
    · rintro ⟨step', hs', hz⟩
      cases (step_fewer hs hid).symm.trans hs'
      exact ⟨step, hs, href ▸ hz⟩
    · rintro ⟨step', hs', hz⟩
      cases hs.symm.trans hs'
      exact ⟨_, step_fewer hs hid, href.symm ▸ hz⟩
  · exact exists_congr fun step' => and_congr_left fun _ => step_fewer_of_ne (hid ▸ hy)

theorem retriesOf_fewer (hs : w.step x = .ok step) (hid : step.id = x) (hk : step.kind = .task t)
    (hpos : 0 < t.retries) : (w.withStep (Visit.Scene.fewer step t)).retriesOf x < w.retriesOf x := by
  rw [retriesOf_eq (step_fewer hs hid) rfl, retriesOf_eq hs hk]
  dsimp only
  omega

/-! ## Visits that wait for lower ones -/

/-- A visit of an acyclic workflow. -/
def Visits (p : Procedure) (s : Store) : Prop :=
  ∃ x w c, p = .visit x w c ∧ w.index < s.workflows.size ∧ Keyed (s.get w).steps ∧
    (s.get w).Acyclic

/-- One visit stands lower than another: its step is referred to, or it is the same step with fewer
retries left. -/
inductive Lower : Procedure × Store → Procedure × Store → Prop where
  | refers {x y v w c d s t} (hg : (t.get v).Refers = (s.get w).Refers) (h : (s.get w).Refers x y) :
    Lower (.visit y v d, t) (.visit x w c, s)
  | again {x v w c d s t} (hg : (t.get v).Refers = (s.get w).Refers)
    (h : (t.get v).retriesOf x < (s.get w).retriesOf x) :
    Lower (.visit x v d, t) (.visit x w c, s)

theorem acc_lower {G : String → String → Prop} (hx : Acc (fun y x => G x y) x) :
    ∀ {w c s}, (Store.get s w).Refers = G → Acc Lower (.visit x w c, s) := by
  induction hx with
  | intro x _ ih =>
    intro w c s hG
    generalize hn : (s.get w).retriesOf x = n
    induction n using Nat.strongRecOn generalizing w c s with
    | _ n ihn =>
      refine ⟨_, fun y hy => ?_⟩
      cases hy with
      | refers hg h => exact ih _ (hG ▸ h) (hg.trans hG)
      | again hg h => exact ihn _ (hn ▸ h) (hg.trans hG) rfl

/-- Workflows stay what they are, and acyclic ones may be visited. -/
def visiting : Contract where
  writes _ := Store.Freezes
  rely := Store.Freezes
  pre := Visits
  post _ _ _ := True
  refl := .refl
  trans := .trans
  relied h := h
  lasting _ _ := trivial

theorem visits_lower {p : Procedure} {s : Store} (h : Visits p s) : Acc Lower (p, s) := by
  obtain ⟨x, w, c, rfl, -, -, hacyclic⟩ := h
  exact acc_lower (hacyclic.acc x) rfl

/-! ## Runs -/

variable {σ : Setup}

/-- User code that only sleeps asks for nothing else. -/
theorem meets_of_sleeps {α : Type} {less : Procedure × Store → Procedure × Store → Prop}
    {p : Procedure × Store} {r : Routine α} {s : Store} (hr : r.Obeys .frozen s)
    (hsleeps : r.Sleeps) : r.Meets (visiting.lowering less p) (OnOk fun _ _ => True) s := by
  induction r generalizing s with
  | done a => trivial
  | fail f => trivial
  | get k ih => exact ih s hr (hsleeps s)
  | put t r ih => exact ⟨hr.1, ih hr.2 hsleeps⟩
  | await w k ih =>
    obtain ⟨⟨x, rfl⟩, hk⟩ := hsleeps
    refine ⟨⟨⟨fun q hq => absurd hq List.not_mem_nil, nofun⟩, nofun,
      fun q hq => absurd hq List.not_mem_nil⟩, fun o t ht _ => ih o (hr.2 o t ht) (hk o)⟩

theorem descends (hfrozen : σ.desk.call.Obey .frozen)
    (hsleeps : ∀ c vs, (σ.desk.call c vs).Sleeps) : visiting.Descends σ.body Lower where
  clock _ _ := Store.freezes_of_workflows rfl
  late _ _ := Store.freezes_of_workflows rfl
  mark _ := Store.freezes_of_workflows rfl
  founded := visits_lower
  body {p s t} hp ht := by
    obtain ⟨x, w, c, rfl, hw, hkeyed, hacyclic⟩ := hp
    have hget : t.get w = s.get w := ht.same w hw
    set T := visiting.lowering Lower (.visit x w c, s) with hT
    have hlater : ∀ {u}, T.rely t u → u.get w = s.get w ∧ w.index < u.workflows.size := fun hu =>
      ⟨(hu.same w (hw.trans_le ht.size)).trans hget, hw.trans_le (ht.size.trans hu.size)⟩
    have hmeets : (Visit.Scene.visit ⟨σ.desk.call, σ.workflow, w, c⟩ x).Meets T
        (OnOk fun _ _ => True) t := by
      refine Visit.Scene.visit_meets (Store.freezes_of_workflows rfl) (fun step hs =>
        Visit.Scene.grants_of_permits Conduct.permits_frozen (fun h => h)
          (fun a vs u => meets_of_sleeps (hfrozen a vs u) (hsleeps a vs)) ?_) ?_
      · -- A step that is referred to.
        intro u v hu hv hps
        obtain ⟨hu, hlt⟩ := hlater hu
        refine ⟨⟨fun p hp => ?_, fun _ _ _ _ h => h⟩, hv, fun p hp => ?_⟩
        · obtain ⟨y, -, d, rfl⟩ := hps p hp
          exact ⟨y, w, d, rfl, hlt, hu ▸ hkeyed, hu ▸ hacyclic⟩
        · obtain ⟨y, hy, d, rfl⟩ := hps p hp
          exact .refers (hu ▸ rfl) ⟨step, hget ▸ hs, hy⟩
      · -- The step itself, in a copy of the workflow.
        intro step a hs hk hpos u hu
        obtain ⟨hu, hlt⟩ := hlater hu
        change (t.get w).step x = .ok step at hs
        rw [hget] at hs
        have hid : step.id = x := hkeyed x step (step_ok_iff.1 hs)
        set v := (Visit.Scene.lowered ⟨σ.desk.call, σ.workflow, w, c⟩ step a u) with hv
        have hcopy : v.2.get v.1 = (s.get w).withStep (Visit.Scene.fewer step a) := by
          rw [hv, ← hu]
          exact Store.get_alloc u _
        refine ⟨Store.freezes_alloc u _, ⟨fun p hp => ?_, fun _ _ _ _ h => h⟩, nofun,
          fun p hp => ?_⟩ <;> rw [List.mem_singleton.1 hp]
        · refine ⟨x, v.1, c, rfl, ?_, ?_, ?_⟩
          · show u.workflows.size < (u.workflows.push _).size
            rw [Array.size_push]
            exact Nat.lt_succ_self _
          · rw [hcopy]
            exact keyed_insert hkeyed _
          · rw [hcopy, Acyclic, refers_fewer hs hid hk]
            exact hacyclic
        · refine .again ?_ ?_
          · rw [hcopy, refers_fewer hs hid hk]
          · rw [hcopy]
            exact retriesOf_fewer hs hid hk hpos
    exact hmeets.mono fun o _ _ _ => by cases o <;> trivial

/-- **Acyclic workflows settle.** If the steps of a workflow stand under their own ids and none leads
back to itself, and if user code only sleeps, fails in ways that can be handled and writes into no
workflow, then an execution of the workflow comes to an outcome after finitely many steps of the
schedule, and a drain behind it returns after finitely many steps. -/
theorem acyclic_settles (htame : σ.desk.call.Tame) (hfrozen : σ.desk.call.Obey .frozen)
    (hsleeps : ∀ c vs, (σ.desk.call c vs).Sleeps) {s : Store} {w : Ref .workflow}
    (hw : w.index < s.workflows.size) (hkeyed : Keyed (s.get w).steps)
    (hacyclic : (s.get w).Acyclic) (c : Ref .context) :
    let execution := Routine.call (.visit (s.get w).entrypoint w c)
    ∃ n, ∀ k ≥ n, (∃ o, (run σ.body k execution (ofStore s)).1 = some o) ∧
      ∃ l, ∀ i ≥ l, (run σ.body i drain (run σ.body k execution (ofStore s)).2).1 =
        some (.ok .null) := by
  intro execution
  obtain ⟨n, hn⟩ := (descends hfrozen hsleeps).settles (tameBody_setup htame)
    (p := .visit (s.get w).entrypoint w c) trivial ⟨_, w, c, rfl, hw, hkeyed, hacyclic⟩
  refine ⟨n, fun k hk => ?_⟩
  obtain ⟨o, ho, -, hdrain⟩ := hn k hk
  exact ⟨⟨o, ho⟩, hdrain⟩

/-- The workflow of `lateStore`, of which one branch is left behind, refers to a missing step and to one
that refers to nothing. -/
theorem late_refers {x y : String} (h : (lateStore.get (⟨0⟩ : Ref .workflow)).Refers x y) :
    x = "both" ∧ y ≠ "both" := by
  obtain ⟨step, hs, hy⟩ := h
  rw [step_ok_iff] at hs
  change (if "both" = x then _ else if "late" = x then _ else _) = _ at hs
  split at hs
  · next hx =>
    cases hs
    refine ⟨hx.symm, ?_⟩
    rintro rfl
    exact absurd hy (by decide)
  · split at hs
    · cases hs
      exact absurd hy List.not_mem_nil
    · cases hs

/-- The execution settles although a branch of it sleeps on, and the drain behind it ends. -/
theorem acyclic_settles_late : lateSetup.desk.call.Tame ∧ lateSetup.desk.call.Obey .frozen ∧
    (∀ c vs, (lateSetup.desk.call c vs).Sleeps) ∧
    Keyed (lateStore.get (⟨0⟩ : Ref .workflow)).steps ∧
    (lateStore.get (⟨0⟩ : Ref .workflow)).Acyclic ∧
    ∃ n, ∀ k ≥ n, (∃ o, (run lateSetup.body k lateRoutine (ofStore lateStore)).1 = some o) ∧
      ∃ l, ∀ i ≥ l, (run lateSetup.body i drain
        (run lateSetup.body k lateRoutine (ofStore lateStore)).2).1 = some (.ok .null) := by
  have htame : lateSetup.desk.call.Tame := fun _ _ =>
    (Routine.tame_sleep _).bind fun _ => Routine.tame_raise rfl
  have hfrozen : lateSetup.desk.call.Obey .frozen := fun _ _ _ =>
    (Routine.obeys_sleep _).bind fun _ _ _ => Routine.obeys_raise Conduct.permits_frozen _
  have hsleeps : ∀ c vs, (lateSetup.desk.call c vs).Sleeps := by
    refine fun _ _ => ⟨⟨_, rfl⟩, fun o => ?_⟩
    cases o with
    | ok vs => exact fun _ => trivial
    | error f => trivial
  have hkeyed : Keyed (lateStore.get (⟨0⟩ : Ref .workflow)).steps := by
    intro x step hs
    change (if "both" = x then _ else if "late" = x then _ else _) = _ at hs
    split at hs
    · next hx =>
      cases hs
      exact hx
    · split at hs
      · next hx =>
        cases hs
        exact hx
      · cases hs
  have hacyclic : (lateStore.get (⟨0⟩ : Ref .workflow)).Acyclic := by
    intro x hx
    obtain ⟨y, hxy, -⟩ := Relation.TransGen.head'_iff.1 hx
    obtain ⟨z, -, hzx⟩ := Relation.TransGen.tail'_iff.1 hx
    exact (late_refers hzx).2 (late_refers hxy).1
  exact ⟨htame, hfrozen, hsleeps, hkeyed, hacyclic,
    acyclic_settles htame hfrozen hsleeps (w := ⟨0⟩) (by decide) hkeyed hacyclic ⟨0⟩⟩

end Workflow

end Conductor
