import Conductor.Proofs.Schedule.Contract
import Conductor.Proofs.Store.Leading
import Conductor.Proofs.Workflow.Frozen
import Conductor.Proofs.Workflow.Retrying

/-!
# The errors of one run

The failure of a whole run is noted among the errors of its context, under a name that no step of the
workflow has. Steps note their failures there as well, under their own names, and all that they
write beside that goes into results and outputs. So the entry for the run is left alone, as long as no
output leads to the errors themselves; and none does, if user code hands out nothing from which a
path leads there.

**Theorem (`kept_guarding`).** Visits leave the entry for the run as it is, and give values from which no
path leads to it, if user code does so.
-/

namespace Conductor

namespace Store

/-- No path leads from a value to the errors of a context. -/
def Avoids (c : Ref .context) (s : Store) (v : Value) : Prop := Clean (· = (s.get c).errors) s v

/-- How the store may change while a context is there whose errors are guarded: contexts keep their
parts, workflows stay what they are, and no new way leads to those errors. Hooks are of a given
kind. -/
structure Minds (c : Ref .context) (hooked : Ref .callable → Prop) (s t : Store) : Prop where
  errors : (t.get c).errors = (s.get c).errors
  has : s.Has (.dict (s.get c).errors) → t.Has (.dict (s.get c).errors)
  avoids : ∀ v, s.Avoids c v → t.Avoids c v
  parts : ∀ d : Ref .context, d.index < s.contexts.size →
    d.index < t.contexts.size ∧ (t.get d).parts = (s.get d).parts
  freezes : Freezes s t
  hooks : (∀ name, ∀ h ∈ s.hooks.under name, hooked h) → ∀ name, ∀ h ∈ t.hooks.under name, hooked h

/-- A change that leaves the entry for the whole run alone as well. -/
structure Spares (c : Ref .context) (hooked : Ref .callable → Prop) (s t : Store) : Prop extends
    Minds c hooked s t where
  noted : t.noted c Workflow.failureKey = s.noted c Workflow.failureKey

variable {c d : Ref .context} {hooked : Ref .callable → Prop} {s t u : Store} {v : Value}

theorem Minds.refl (s : Store) : Minds c hooked s s :=
  ⟨rfl, id, fun _ => id, fun _ h => ⟨h, rfl⟩, .refl s, id⟩

theorem Minds.trans (h : Minds c hooked s t) (h' : Minds c hooked t u) : Minds c hooked s u where
  errors := h'.errors.trans h.errors
  has hs := h.errors ▸ h'.has (h.errors ▸ h.has hs)
  avoids v hv := h'.avoids v (h.avoids v hv)
  parts d hd := by
    obtain ⟨ht, hp⟩ := h.parts d hd
    obtain ⟨hu, hq⟩ := h'.parts d ht
    exact ⟨hu, hq.trans hp⟩
  freezes := h.freezes.trans h'.freezes
  hooks hs := h'.hooks (h.hooks hs)

/-- Where contexts keep their parts, a value avoids the errors if it is clean of them. -/
theorem minds_of_keeps {X : Set Container} (hk : Keeps X s t) (hc : c.index < s.contexts.size)
    (hclean : ∀ v, Clean (· = (s.get c).errors) s v → Clean (· = (s.get c).errors) t v)
    (hf : Freezes s t) (hh : t.hooks = s.hooks) : Minds c hooked s t := by
  have he : (t.get c).errors = (s.get c).errors := congrArg (fun p => p.2.2.2.1) (hk.contexts c hc).2
  refine ⟨he, hk.has _, fun v hv => ?_, hk.contexts, hf, fun h => hh ▸ h⟩
  rw [Avoids, he]
  exact hclean v hv

theorem spares_of_keeps {X : Set Container} (hk : Keeps X s t) (hc : c.index < s.contexts.size)
    (hhas : s.Has (.dict (s.get c).errors)) (hX : .dict (s.get c).errors ∉ X)
    (hclean : ∀ v, Clean (· = (s.get c).errors) s v → Clean (· = (s.get c).errors) t v)
    (hf : Freezes s t) (hh : t.hooks = s.hooks) : Spares c hooked s t := by
  have hm : Minds c hooked s t := minds_of_keeps hk hc hclean hf hh
  refine ⟨hm, ?_⟩
  rw [Store.noted, Store.noted, hm.errors]
  exact congrArg (Entries.get? · _) (hk.content _ hX hhas)

theorem Spares.refl (s : Store) : Spares c hooked s s := ⟨.refl s, rfl⟩

/-- The counter of failures, the clock and the journal are nobody's concern. -/
theorem spares_mark (s : Store) (n : Nat) (x : Binary64) (j : List Event) :
    Spares c hooked s { s with nextFailure := n, clock := x, journal := j } :=
  ⟨⟨rfl, id, fun _ hv => Clean.mark hv n x j, fun _ h => ⟨h, rfl⟩, freezes_of_workflows rfl, id⟩, rfl⟩

/-- A failure that is noted under another name. -/
theorem spares_noteError {name : String} (hc : c.index < s.contexts.size)
    (hhas : s.Has (.dict (s.get c).errors)) (hname : name ≠ Workflow.failureKey) (f : Failure) :
    Spares c hooked s (s.noteError d name f) := by
  have hm : Minds c hooked s (s.noteError d name f) :=
    minds_of_keeps (keeps_insert s _ _ _) hc (fun v hv => hv.noteError d name f)
      (freezes_of_workflows rfl) rfl
  refine ⟨hm, ?_⟩
  rw [Store.noted, Store.noted, hm.errors]
  by_cases he : (s.get d).errors = (s.get c).errors
  · have hget : (s.noteError d name f).get (s.get c).errors =
        Entries.insert (s.get (s.get c).errors) name (.failure f) := by
      rw [noteError, he]
      exact getD_setIfInBounds_self hhas
    rw [hget, Entries.get?_insert_of_ne _ _ (Ne.symm hname)]
  · refine congrArg (Entries.get? · _) ((keeps_insert s _ name (.failure f)).content
      (.dict (s.get c).errors) (fun hmem => he ?_) hhas)
    exact (Container.dict.inj hmem).symm

theorem hooks_forkAll (c : Ref .context) (items : List Value) :
    ∀ s : Store, (s.forkAll c items).2.hooks = s.hooks := by
  induction items with
  | nil => exact fun _ => rfl
  | cons item items ih => exact fun s => (ih _).trans rfl

theorem hooks_writeAlong {path : String} {v : Value} {keys walked : List String} {s t : Store}
    {node : Ref .dict} (h : s.writeAlong path node walked v keys = .ok t) : t.hooks = s.hooks := by
  obtain ⟨ds, -, rfl⟩ := exists_dicts_writeAlong h
  rfl

end Store

namespace Workflow

open Store

/-- No step stands under the name for the failure of the whole run, or has it as its id. -/
def Reserves (w : Workflow) : Prop :=
  ∀ id step, w.step id = .ok step → id ≠ failureKey ∧ step.id ≠ failureKey

variable {c d : Ref .context} {hooked : Ref .callable → Prop} {s t : Store} {v : Value}

theorem Reserves.fewer {w : Workflow} (h : w.Reserves) {id : String} {step : Step} (a : TaskStep)
    (hs : w.step id = .ok step) : (w.withStep (Visit.Scene.fewer step a)).Reserves := by
  intro x step' hx
  rw [step_ok_iff] at hx
  change Entries.get? (Entries.insert w.steps step.id _) x = _ at hx
  by_cases hid : x = step.id
  · subst hid
    rw [Entries.get?_insert_self] at hx
    cases hx
    exact ⟨(h id step hs).2, (h id step hs).2⟩
  · rw [Entries.get?_insert_of_ne _ _ hid] at hx
    exact h x step' (step_ok_iff.2 hx)

/-- The name of a failed try is none that the whole run has. -/
theorem attempt_ne_failureKey (target : String) (attempt : Nat) :
    s!"{target}_attempt_{attempt}" ≠ failureKey := by
  intro h
  have hmem : '_' ∈ (s!"{target}_attempt_{attempt}").toList := by
    show '_' ∈ ((toString target ++ "_attempt_") ++ toString attempt).toList
    simp
  rw [h] at hmem
  exact absurd hmem (by decide)

/-- A context is there, with its errors. -/
structure Opened (c : Ref .context) (s : Store) : Prop where
  opened : c.index < s.contexts.size
  has : s.Has (.dict (s.get c).errors)

theorem Opened.lasting (h : Opened c s) (ht : Minds c hooked s t) : Opened c t :=
  ⟨(ht.parts c h.opened).1, ht.errors ▸ ht.has h.has⟩

/-- A visit is about a context and a workflow that are there. The output of the context leads to no
guarded errors, and no step of the workflow has the name for the whole run. -/
structure Fits (c : Ref .context) (w : Ref .workflow) (d : Ref .context) (s : Store) : Prop extends
    Opened c s where
  context : d.index < s.contexts.size
  output : s.Avoids c (.dict (s.get d).output)
  workflow : w.index < s.workflows.size
  reserves : (s.get w).Reserves

theorem Fits.lasting {w : Ref .workflow} (h : Fits c w d s) (ht : Minds c hooked s t) :
    Fits c w d t where
  toOpened := h.toOpened.lasting ht
  context := (ht.parts d h.context).1
  output := by
    have hout : (t.get d).output = (s.get d).output :=
      congrArg (fun p => p.2.2.1) (ht.parts d h.context).2
    rw [hout]
    exact ht.avoids _ h.output
  workflow := h.workflow.trans_le ht.freezes.size
  reserves := by
    rw [ht.freezes.same w h.workflow]
    exact h.reserves

/-- The contract among visits while the errors of a context are guarded. -/
def guarding (c : Ref .context) (hooked : Ref .callable → Prop) : Contract where
  writes _ := Spares c hooked
  rely := Minds c hooked
  pre p s := ∃ x w d, p = .visit x w d ∧ Fits c w d s
  post _ := OnOk fun v s => s.Avoids c v
  refl := .refl
  trans := .trans
  relied h := h.toMinds
  lasting {_ o _ _} h ht := by
    cases o with
    | ok v => exact ht.avoids v h
    | error f => trivial

/-- The terms of user code that leaves the guarded errors alone. It may visit steps itself. -/
def sparing (c : Ref .context) (hooked : Ref .callable → Prop) : Terms :=
  (guarding c hooked).termsBy (Spares c hooked) fun h => h.toMinds

/-- User code that leaves the guarded errors alone, and gives nothing from which a path leads there. -/
def Spared (call : Handlers) (c : Ref .context) (hooked : Ref .callable → Prop) : Prop :=
  ∀ a vs s, c.index < s.contexts.size →
    (call a vs).Meets (sparing c hooked) (OnOk fun v s => s.Avoids c v) s

/-- What user code does on these terms it does on those of any part. -/
theorem meets_of_sparing {α : Type} {r : Routine α} {Q : Except Failure α → Store → Prop}
    {writes : Store → Store → Prop} (relied : ∀ {s t}, writes s t → (guarding c hooked).rely s t)
    (hw : ∀ {s t}, Spares c hooked s t → writes s t) (h : r.Meets (sparing c hooked) Q s) :
    r.Meets ((guarding c hooked).termsBy writes relied) Q s :=
  Routine.Meets.weaken (T := sparing c hooked) hw (fun h => h)
    (fun ha => ⟨ha.1, fun p hp _ _ h => hw (ha.2 p hp _ _ h)⟩) (fun h => h) h

variable {σ : Setup}

/-- Beside its proper work, every part of the run leaves the guarded errors alone. -/
theorem usual_guarding (hcall : Spared σ.desk.call c hooked) {writes : Store → Store → Prop}
    (relied : ∀ {s t}, writes s t → (guarding c hooked).rely s t)
    (hw : ∀ {s t}, Spares c hooked s t → writes s t) (hs : Opened c s) :
    ((guarding c hooked).termsBy writes relied).Usual
      (fun v s => s.Avoids c v) σ.desk.call s where
  same _ := hw (.refl _)
  raise {t} _ := hw (spares_mark t _ _ _)
  log {t} _ _ _ _ _ := hw (spares_mark t _ _ _)
  dict {t} ht es := hw (spares_of_keeps (keeps_newDict t es) (hs.lasting ht).opened
    (hs.lasting ht).has (Set.notMem_empty _) (fun _ hv => hv.alloc_dict es)
    (freezes_of_workflows rfl) rfl)
  list {t} ht vs hvs := ⟨hw (spares_of_keeps (keeps_newList t vs) (hs.lasting ht).opened
    (hs.lasting ht).has (Set.notMem_empty _) (fun _ hv => hv.alloc_sequence vs)
    (freezes_of_workflows rfl) rfl), clean_newList hvs⟩
  null _ := clean_plain rfl
  lasting _ hv hu := hu.avoids _ hv
  user {t} ht a vs := meets_of_sparing relied hw (hcall a vs t (hs.lasting ht).opened)

/-- What a visit writes leaves the guarded errors alone. -/
theorem grants_guarding (hcall : Spared σ.desk.call c hooked) {w : Ref .workflow} (hfits : Fits c w d s)
    {x : String} {step : Step} (hx : x ≠ failureKey) :
    (σ.scene w d).Grants ((guarding c hooked).terms (.visit x w d)) (fun v s => s.Avoids c v) s x
      step := by
  have hlater : ∀ {t}, Minds c hooked s t → Fits c w d t := fun ht => hfits.lasting ht
  have hbound : ∀ {t}, Minds c hooked s t → ∀ r, r = (t.get c).errors → r.index < t.dicts.size :=
    fun ht r hr => hr ▸ (hlater ht).has
  have hoff : ∀ {t}, Minds c hooked s t → (t.get d).output ≠ (t.get c).errors :=
    fun ht => (hlater ht).output.not_guarded
  constructor
  case toFrames =>
    refine ⟨usual_guarding hcall (fun h => h.toMinds) (fun h => h) hfits.toOpened,
      fun {t} ht => ?_, fun ht f => ?_, fun _ => ⟨fun p hp => ?_, nofun⟩⟩
    · exact spares_of_keeps (keeps_update_context t d fun _ => rfl) (hlater ht).opened
        (hlater ht).has (Set.notMem_empty _) (fun v hv => hv.enter d x) (freezes_of_workflows rfl) rfl
    · exact spares_noteError (hlater ht).opened (hlater ht).has hx f
    · exact absurd hp List.not_mem_nil
  case record =>
    exact fun {t v} ht hv => spares_of_keeps (keeps_put_results t _ _) (hlater ht).opened
      (hlater ht).has (by simp) (fun u hu => hu.record d x hv) (freezes_of_workflows rfl) rfl
  case noteAttempt =>
    exact fun ht r _ attempt f => spares_noteError (hlater ht).opened (hlater ht).has
      (attempt_ne_failureKey r.target attempt) f
  case merge =>
    refine fun {t v es} ht hv hm => spares_of_keeps (keeps_put_dict t _ _) (hlater ht).opened
      (hlater ht).has ?_ (fun u hu => hu.insertAll _ fun e he => hv.leads (.entry hm he))
      (freezes_of_workflows rfl) rfl
    exact fun hmem => hoff ht (Container.dict.inj hmem).symm
  case path =>
    refine fun {t u v key y path} ht hv hy hu => spares_of_keeps (keeps_setPath hu)
      (hlater ht).opened (hlater ht).has ?_ (fun z hz => hz.setPath (hbound ht) (hlater ht).output
        (hv.lookup hy) hu) (freezes_of_workflows (workflows_writeAlong hu)) (hooks_writeAlong hu)
    exact fun hmem => (clean_landing (hlater ht).output).not_guarded (Container.dict.inj hmem).symm
  case fork =>
    refine fun {t} ht items iterator concurrency _ batch => ?_
    have hspares : Spares c hooked t (t.forkAll d batch).2 :=
      spares_of_keeps (t.keeps_forkAll d batch) (hlater ht).opened (hlater ht).has
        (Set.notMem_empty _) (fun v hv => Clean.forkAll d batch hv)
        (freezes_of_workflows (workflows_forkAll d batch t)) (hooks_forkAll d batch t)
    refine ⟨hspares, fun p hp => ?_, nofun⟩
    obtain ⟨e, he, rfl⟩ := List.mem_map.1 hp
    have hf := (hlater ht).lasting hspares.toMinds
    obtain ⟨hlt, hclean⟩ := clean_forkAll batch (hbound ht) he
    refine ⟨iterator, w, e, rfl, hf.toOpened, hlt, ?_, hf.workflow, hf.reserves⟩
    rw [Avoids, hspares.errors]
    exact hclean
  case asks =>
    refine fun {t v} ht _ hps => ⟨fun p hp => ?_, fun _ _ _ _ h => h⟩
    obtain ⟨y, -, rfl⟩ := hps p hp
    exact ⟨y, w, d, rfl, hlater ht⟩
  case answers => exact fun _ h => Contract.answers_ok (fun h => h) h

/-- **Visits leave the entry for the whole run alone**, if user code does. -/
theorem kept_guarding (hcall : Spared σ.desk.call c hooked) : (guarding c hooked).Kept σ.body where
  clock s x := (spares_mark s _ x _).toMinds
  late s _ := (spares_mark s _ _ _).toMinds
  body {p s t} hp ht := by
    obtain ⟨x, w, d, rfl, hfits⟩ := hp
    have hfits := hfits.lasting ht
    refine Visit.Scene.visit_meets (spares_mark t _ _ _) (fun step hs =>
      grants_guarding hcall hfits (hfits.reserves x step hs).1) fun step a hs hk hpos u hu => ?_
    have hf := hfits.lasting hu
    have hspares : Spares c hooked u ((σ.scene w d).lowered step a u).2 :=
      spares_of_keeps (keeps_of_tables rfl rfl rfl rfl) hf.opened hf.has (Set.notMem_empty _)
        (fun v hv => hv.alloc_workflow _) (freezes_alloc u _) rfl
    refine ⟨hspares, fun p hp => ?_, fun _ _ _ _ h => h⟩
    have hf' := hf.lasting hspares.toMinds
    refine ⟨x, _, d, List.mem_singleton.1 hp, hf'.toOpened, hf'.context, hf'.output, ?_, ?_⟩
    · exact Nat.lt_of_lt_of_eq (Nat.lt_succ_self _) (Array.size_push _).symm
    · have hcopy := get_alloc u ((u.get w).withStep (Visit.Scene.fewer step a))
      have hs' : (u.get w).step x = .ok step := (hu.freezes.same w hfits.workflow).symm ▸ hs
      exact hcopy.symm ▸ hf.reserves.fewer a hs'

end Workflow

end Conductor
