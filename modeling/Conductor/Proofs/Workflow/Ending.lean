import Conductor.Proofs.Schedule.Phases
import Conductor.Proofs.Workflow.Guarding
import Conductor.Workflow.Run

/-!
# How a run ends in the errors of its context

A run of a workflow goes through phases when its context is there: it says that it begins, it visits
the entrypoint, and it closes the context by the outcome of the visit. A failure is noted for the run
at once when the visit has failed. Before and behind that, neither the run itself nor any of the
branches that it leaves behind touches what is noted there.

**Theorem (`Workflow.errors_tell`).** When a run has ended, something is noted for it among the errors of
its context if and only if the run has failed, and then it is its failure.

This is so only if no step has the name under which failures of whole runs are noted
(`Workflow.noted_of_recovered`).
-/

namespace Conductor

namespace Workflow

open Store Routine Schedule
open Contract (Phase)

variable {call : Handlers} {r : Ref .workflow} {c : Ref .context}

/-! ## The phases of a run -/

/-- What a run does between making its context and visiting the entrypoint. -/
def beginning (call : Handlers) (r : Ref .workflow) (c : Ref .context) : Routine Workflow := do
  let w ← .read fun s => s.get r
  let name := w.name
  .log .info logger s!"Starting workflow {name}" [("workflow_id", .text w.id)]
  HookName.workflowStart.emit call [.workflow r, .context c]
  pure w

/-- What a run makes of the outcome of the visit of its entrypoint. -/
def closing (call : Handlers) (r : Ref .workflow) (c : Ref .context) :
    Except Failure Value → Routine Value
  | .ok v => closeCompleted call r c v
  | .error f => if f.isCatchable then closeFailed call r c f else .fail f

/-- What a run does with its context. -/
def proceed (call : Handlers) (r : Ref .workflow) (c : Ref .context) : Routine Value :=
  (beginning call r c).thenOn (onward fun w =>
    (Routine.call (.visit w.entrypoint r c)).thenOn (closing call r c))

/-- The failure is noted. -/
def noteFailure (c : Ref .context) (f : Failure) : Routine Unit := do
  let moment ← .query Store.now
  .alter fun s => (s.close c moment).noteError c failureKey f

/-- What a run does when its failure has been noted. -/
def tellFailure (call : Handlers) (r : Ref .workflow) (c : Ref .context) (f : Failure) :
    Routine Value := do
  let w ← .read fun s => s.get r
  let name := w.name
  let step ← .read fun s => (Store.textOrNull (s.get c).currentStep).toText
  let reason := f.message
  .log .error logger s!"Workflow {name} failed at step {step}: {reason}"
    [("workflow_id", .text w.id)]
  HookName.workflowError.emit call [.workflow r, .context c, .failure f]
  notify call [.failure f, .context c] w.onError
  .fail f

theorem closeFailed_eq (f : Failure) : closeFailed call r c f =
    (noteFailure c f).thenOn (onward fun _ => tellFailure call r c f) := by
  rw [← bind_eq_thenOn]
  exact (bind_assoc _ _ _).symm

theorem execute_eq (input : Value) (metadata : Entries Value) :
    execute call r input metadata = (openContext input metadata).bind (proceed call r) := by
  refine congrArg (openContext input metadata).bind (funext fun c => ?_)
  rw [proceed, ← bind_eq_thenOn]
  show Routine.bind (.read fun s => s.get r) _ = Routine.bind (Routine.bind (.read _) _) _
  rw [bind_assoc]
  refine congrArg (Routine.bind (.read fun s => s.get r)) (funext fun w => ?_)
  show Routine.bind _ _ = Routine.bind (Routine.bind _ _) _
  rw [bind_assoc]
  refine congrArg (Routine.bind _) (funext fun _ => ?_)
  show Routine.bind _ _ = Routine.bind (Routine.bind _ _) _
  rw [bind_assoc]
  refine congrArg (Routine.bind _) (funext fun _ => ?_)
  show Routine.bind (Routine.attempt _) _ = _
  rw [attempt_eq_thenOn, bind_eq_thenOn, thenOn_thenOn]
  refine congrArg (Routine.thenOn _) (funext fun o => ?_)
  cases o with
  | ok v => rfl
  | error f =>
    show (if f.isCatchable = true then _ else _ : Routine _).thenOn _ =
      if f.isCatchable = true then _ else _
    split <;> rfl

/-! ## What the phases keep to -/

variable {hooked : Ref .callable → Prop} {w : Workflow} {s t : Store} {x : Option Value}

/-- User code of a given kind does not fail. -/
def Sound (call : Handlers) (c : Ref .context) (hooked : Ref .callable → Prop) : Prop :=
  ∀ a vs s, hooked a → c.index < s.contexts.size →
    (call a vs).Meets (sparing c hooked) (IsOk fun _ _ => True) s

/-- The context of a run is there, the workflow is what it is, and all hooks are of a given kind. -/
structure Ready (r : Ref .workflow) (w : Workflow) (c : Ref .context)
    (hooked : Ref .callable → Prop) (s : Store) : Prop extends Fits c r c s where
  hooks : ∀ name, ∀ h ∈ s.hooks.under name, hooked h
  same : s.get r = w

theorem Ready.lasting (h : Ready r w c hooked s) (ht : Minds c hooked s t) : Ready r w c hooked t :=
  ⟨h.toFits.lasting ht, ht.hooks h.hooks, (ht.freezes.same r h.workflow).trans h.same⟩

section Meeting

variable {writes : Store → Store → Prop} (relied : ∀ {s t}, writes s t → (guarding c hooked).rely s t)
  (hcall : Spared call c hooked) (hsound : Sound call c hooked)
  (hw : ∀ {s t}, Spares c hooked s t → writes s t)
include hw

theorem meets_log_ready (hs : Ready r w c hooked s) (level : LogLevel) (logger message : String)
    (extras : List (String × Datum)) : (Routine.log level logger message extras).Meets
      ((guarding c hooked).termsBy writes relied) (IsOk fun _ t => Ready r w c hooked t) s :=
  have hspares : Spares c hooked s (s.write (.log level logger message extras)) := spares_mark s _ _ _
  ⟨hw hspares, hs.lasting hspares.toMinds⟩

include hsound

theorem meets_tell_ok (hs : Ready r w c hooked s) (args : List Value) {told : List (Ref .callable)}
    (hh : ∀ h ∈ told, hooked h) : (notify call args told).Meets
      ((guarding c hooked).termsBy writes relied) (IsOk fun _ _ => True) s :=
  meets_each_ok fun h hmem t ht => (meets_of_sparing relied hw
    (hsound h args t (hh h hmem) (hs.lasting ht).opened)).bind_ok fun _ _ _ _ => trivial

theorem meets_emit_ok (hs : Ready r w c hooked s) (name : HookName) (args : List Value) :
    (name.emit call args).Meets ((guarding c hooked).termsBy writes relied)
      (IsOk fun _ _ => True) s := by
  show (if (s.hooks.under name).isEmpty then Routine.done () else _ : Routine Unit).Meets _ _ s
  split
  · trivial
  · exact (meets_log_ready relied hw hs _ _ _ _).bind_ok fun _ t _ ht =>
      meets_tell_ok relied hsound hw ht args (hs.hooks name)

theorem meets_beginning (hs : Ready r w c hooked s) :
    (beginning call r c).Meets ((guarding c hooked).termsBy writes relied)
      (IsOk fun v _ => v = w) s := by
  show (Routine.bind (Routine.log ..) _).Meets _ _ s
  refine (meets_log_ready relied hw hs _ _ _ _).bind_ok fun _ t _ ht => ?_
  exact (meets_emit_ok relied hsound hw ht _ _).bind_ok fun _ _ _ _ => hs.same

/-- Whatever is done with the failure of a run, it is passed on. -/
theorem meets_tellFailure (hs : Ready r w c hooked s) (hh : ∀ h ∈ w.onError, hooked h) (f : Failure) :
    (tellFailure call r c f).Meets ((guarding c hooked).termsBy writes relied)
      (fun o _ => o = .error f) s := by
  show (Routine.bind (Routine.log ..) _).Meets _ _ s
  refine (meets_log_ready relied hw hs _ _ _ _).bind_ok fun _ t _ ht => ?_
  refine (meets_emit_ok relied hsound hw ht _ _).bind_ok fun _ u hu _ => ?_
  have htold : ∀ h ∈ (s.get r).onError, hooked h := fun h hm => hh h (by rwa [← hs.same])
  exact (meets_tell_ok relied hsound hw (ht.lasting hu) _ htold).bind_ok fun _ _ _ _ => rfl

/-- A run that has succeeded goes on to its end, unless there is no time to be noted. -/
theorem meets_closeCompleted (hs : Ready r w c hooked s) (hh : ∀ h ∈ w.onCompleted, hooked h)
    {v : Value} (hv : s.Avoids c v) : (closeCompleted call r c v).Meets
      ((guarding c hooked).termsBy writes relied)
      (fun o _ => (∃ v, o = .ok v) ∨ ¬ ∃ moment, s.now = .ok moment) s := by
  have hspares : ∀ {s : Store} {f : Context → Context}, Ready r w c hooked s →
      (∀ x : Context, (f x).parts = x.parts) →
      ((f (s.get c)).result = (s.get c).result ∨ s.Avoids c (f (s.get c)).result) →
      Spares c hooked s (s.update c f) := fun {s f} hs hf hres =>
    spares_of_keeps (keeps_update_context s c hf) hs.opened hs.has (Set.notMem_empty _)
      (fun u hu => hu.update_context (hf _) hres) (freezes_of_workflows rfl) rfl
  have h₁ : Spares c hooked s (s.update c fun x : Context => { x with result := v }) :=
    hspares hs (fun _ => rfl) (Or.inr hv)
  refine ⟨hw h₁, ?_⟩
  have hs₁ := hs.lasting h₁.toMinds
  set s₁ := s.update c fun x : Context => { x with result := v } with hs₁def
  have hnow : s₁.now = s.now := rfl
  show (Routine.bind (Routine.ofExcept s₁.now) _).Meets _ _ s₁
  cases ht : s₁.now with
  | error cause =>
    refine ⟨hw (spares_mark s₁ _ _ _), Or.inr ?_⟩
    rintro ⟨moment, hm⟩
    rw [← hnow, ht] at hm
    cases hm
  | ok moment =>
    have h₂ : Spares c hooked s₁ (s₁.close c moment) := hspares hs₁ (fun _ => rfl) (Or.inl rfl)
    refine ⟨hw h₂, ?_⟩
    have hs₂ := hs₁.lasting h₂.toMinds
    show (Routine.bind (HookName.emit ..) _).Meets _ _ _
    refine (meets_emit_ok relied hsound hw hs₂ _ _).bind_ok fun _ t ht _ => ?_
    have htold : ∀ h ∈ ((s₁.close c moment).get r).onCompleted, hooked h :=
      fun h hm => hh h (by rwa [← hs₂.same])
    refine (meets_tell_ok relied hsound hw (hs₂.lasting ht) _ htold).bind_ok fun _ u hu _ => ?_
    show (Routine.bind (Routine.log ..) _).Meets _ _ u
    exact (meets_log_ready relied hw ((hs₂.lasting ht).lasting hu) _ _ _ _).bind_ok
      fun _ _ _ _ => Or.inl ⟨_, rfl⟩

omit hsound hw

/-- The failure of a run is noted, unless there is no time to be noted with it. -/
theorem meets_noteFailure (hw : ∀ {s t}, Minds c hooked s t → writes s t)
    (hs : Ready r w c hooked s) (f : Failure) : (noteFailure c f).Meets
      ((guarding c hooked).termsBy writes relied) (fun o t => Ready r w c hooked t ∧
        ((o = .ok () ∧ t.noted c failureKey = some (.failure f)) ∨
          ¬ ∃ moment, s.now = .ok moment)) s := by
  show (Routine.bind (Routine.ofExcept s.now) _).Meets _ _ s
  cases ht : s.now with
  | error cause =>
    have hmark : Minds c hooked s { s with nextFailure := s.nextFailure + 1 } :=
      (spares_mark s _ _ _).toMinds
    exact ⟨hw hmark, hs.lasting hmark, Or.inr nofun⟩
  | ok moment =>
    have hclose : ((s.close c moment).get c).errors = (s.get c).errors := errors_close s c moment
    have hminds : Minds c hooked s ((s.close c moment).noteError c failureKey f) := by
      refine minds_of_keeps (Writes.failed c moment failureKey f).keeps hs.opened (fun v hv => ?_)
        (freezes_of_workflows rfl) rfl
      exact (hv.close c moment).noteError c failureKey f
    refine ⟨hw hminds, hs.lasting hminds, Or.inl ⟨rfl, noted_noteError ?_ _ _⟩⟩
    rw [hclose]
    exact hs.has

end Meeting

/-- A run that goes on with its context does what others rely on. -/
theorem meets_proceed (hsound : Sound call c hooked)
    (hs : Ready r w c hooked s) (herror : ∀ h ∈ w.onError, hooked h)
    (hdone : ∀ h ∈ w.onCompleted, hooked h) : (proceed call r c).Meets
      ((guarding c hooked).termsFor (guarding c hooked).bystander) (fun _ _ => True) s := by
  have hspares : ∀ {s t}, Spares c hooked s t → Minds c hooked s t := fun h => h.toMinds
  have hminds : ∀ {s t}, Minds c hooked s t → Minds c hooked s t := fun h => h
  refine Routine.meets_thenOn.2 ((meets_beginning hminds hsound hspares hs).mono fun o t ht ho => ?_)
  cases o with
  | error f => cases (ho : False)
  | ok v =>
    refine Routine.meets_thenOn.2 ((Contract.meets_call (K := guarding c hooked) hminds
      (fun _ _ => hspares) ⟨_, r, c, rfl, (hs.lasting ht).toFits⟩).mono fun o u hu hv => ?_)
    have hready := (hs.lasting ht).lasting hu
    cases o with
    | ok v =>
      exact (meets_closeCompleted hminds hsound hspares hready hdone hv).mono fun _ _ _ _ => trivial
    | error f =>
      show (if f.isCatchable = true then _ else _ : Routine Value).Meets _ _ _
      split
      · rw [closeFailed_eq]
        refine Routine.meets_thenOn.2 ((meets_noteFailure hminds hminds hready f).mono
          fun o x _ hx => ?_)
        cases o with
        | ok =>
          have hmeets := meets_tellFailure hminds hsound hspares hx.1 herror f
          exact hmeets.mono fun _ _ _ _ => trivial
        | error g => trivial
      · trivial

theorem tame_execute (htame : call.Tame) (input : Value) (metadata : Entries Value) :
    (execute call r input metadata).Tame := by
  have hnotify : ∀ args told, (notify call args told).Tame := fun args =>
    Routine.tame_each fun h => (htame h args).bind fun _ => Routine.tame_pure ()
  have hnow : (Routine.query Store.now).Tame := Routine.tame_query fun _ _ => Store.now_tame
  have hemit : ∀ (name : HookName) args, (name.emit call args).Tame := HookName.emit_tame htame
  have hlog : ∀ level logger message extras, (Routine.log level logger message extras).Tame :=
    fun _ _ _ _ => Routine.tame_alter _
  refine Routine.Tame.bind (hnow.bind fun _ => Routine.tame_modifyGet _) fun c s =>
    (hlog _ _ _ _).bind fun _ => (hemit _ _).bind fun _ =>
      (Routine.tame_call (p := .visit ..) trivial).attempt_bind fun o ho => ?_
  cases o with
  | ok v =>
    exact (Routine.tame_alter _).bind fun _ => hnow.bind fun _ => (Routine.tame_alter _).bind
      fun _ _ _ => (hemit _ _).bind fun _ => (hnotify _ _).bind fun _ _ _ =>
        (hlog _ _ _ _).bind fun _ => Routine.tame_pure _
  | error f =>
    exact hnow.bind fun _ => (Routine.tame_alter _).bind fun _ _ _ => (hlog _ _ _ _).bind fun _ =>
      (hemit _ _).bind fun _ => (hnotify _ _).bind fun _ => ho f rfl

/-! ## Whole runs -/

variable {σ : Setup}

/-- What is noted for a whole run is the failure with which its branch has ended. -/
def Tells (c : Ref .context) (d : Nat) (m : Schedule) : Prop :=
  ∃ o, m.outcome? d = some o ∧ m.store.noted c failureKey = match o with
    | .ok _ => none
    | .error f => some (.failure f)

theorem stable_of_spares {P : Store → Prop} (h : ∀ {s t}, P s → Spares c hooked s t → P t) :
    (guarding c hooked).Stable P :=
  ⟨h, fun {s} x hs => h hs (spares_mark s _ x _), fun {s} _ hs => h hs (spares_mark s _ _ _)⟩

/-- What is noted for the whole run is left alone. -/
theorem lasting_noted (hs : s.noted c failureKey = x) (h : Spares c hooked s t) :
    t.noted c failureKey = x := h.noted.trans hs

theorem lasting_ready (hs : Ready r w c hooked s ∧ s.noted c failureKey = x)
    (h : Spares c hooked s t) : Ready r w c hooked t ∧ t.noted c failureKey = x :=
  ⟨hs.1.lasting h.toMinds, h.noted.trans hs.2⟩

/-- A phase in which what is noted for the whole run is left alone. -/
def sparingPhase {α : Type} (c : Ref .context) (hooked : Ref .callable → Prop)
    (ends : Except Failure α → Store → Prop) (behind : Except Failure α → Routine Value) :
    (guarding c hooked).Phase α := ⟨Spares c hooked, ends, behind, fun h => h.toMinds⟩

/-- The phase in which the failure is noted. -/
def notingPhase (call : Handlers) (r : Ref .workflow) (w : Workflow) (c : Ref .context)
    (hooked : Ref .callable → Prop) (f : Failure) : (guarding c hooked).Phase Unit where
  writes := Minds c hooked
  ends o t := Ready r w c hooked t ∧ o = .ok () ∧ t.noted c failureKey = some (.failure f)
  behind := onward fun _ => tellFailure call r c f
  relied h := h

section Finishing

variable {m : Schedule} {d : Nat}
  (hcall : Spared σ.desk.call c hooked) (hsound : Sound σ.desk.call c hooked)
  (herror : ∀ h ∈ w.onError, hooked h) (hdone : ∀ h ∈ w.onCompleted, hooked h)
include hcall

/-- A run that is in its last phase tells what that phase ends with. -/
theorem finishes_last {ends : Except Failure Value → Store → Prop}
    (h : (sparingPhase c hooked ends Routine.ofOutcome).In σ.body
      (fun s => s.noted c failureKey = x) d m)
    (hx : ∀ o s, ends o s → x = match o with
      | .ok _ => none
      | .error f => some (.failure f)) : m.Finishes σ.body d (Tells c d) := by
  have hK := kept_guarding (σ := σ) hcall
  refine h.finishes hK (stable_of_spares lasting_noted) lasting_noted fun i o he n hend => ?_
  obtain ⟨hout, hnoted⟩ := he.last hK (stable_of_spares lasting_noted) rfl n hend
  exact ⟨o, hout, hnoted.trans (hx o _ he.ends)⟩

include hsound herror

theorem finishes_noting {f : Failure}
    (h : (notingPhase σ.desk.call r w c hooked f).In σ.body (fun _ => True) d m) :
    m.Finishes σ.body d (Tells c d) := by
  have hK := kept_guarding (σ := σ) hcall
  refine h.finishes hK ⟨fun _ _ => trivial, fun _ _ => trivial, fun _ _ => trivial⟩
    (fun _ _ => trivial) fun i o he => ?_
  obtain ⟨hready, rfl, hnoted⟩ := he.ends
  exact finishes_last hcall (he.begins (x := tellFailure σ.desk.call r c f)
    (ψ := sparingPhase c hooked (fun o _ => o = .error f) Routine.ofOutcome)
    (Routine.thenOn_ofOutcome _).symm (meets_tellFailure _ hsound (fun h => h) hready herror f) hnoted)
    fun o _ ho => by rw [ho]

include hdone

/-- The run visits its entrypoint. -/
theorem finishes_visiting (hclock : ∀ n, ∃ moment, (m.after σ.body n).store.now = .ok moment)
    (hquiet : ∀ n, Quiet none (m.after σ.body n))
    (h : (sparingPhase c hooked (OnOk fun v s => s.Avoids c v) (closing σ.desk.call r c)).In σ.body
      (fun s => Ready r w c hooked s ∧ s.noted c failureKey = none) d m) :
    m.Finishes σ.body d (Tells c d) := by
  refine h.finishes (kept_guarding hcall) (stable_of_spares lasting_ready) lasting_ready
    fun i o he => ?_
  obtain ⟨hready, hnone⟩ := he.holds
  cases o with
  | ok v =>
    refine finishes_last hcall (he.begins (x := closeCompleted σ.desk.call r c v)
      (ψ := sparingPhase c hooked (fun o _ => ∃ v, o = .ok v) Routine.ofOutcome)
      (Routine.thenOn_ofOutcome _).symm ?_ hnone) ?_
    · exact (meets_closeCompleted _ hsound (fun h => h) hready hdone he.ends).mono fun _ _ _ ho =>
        ho.resolve_right fun hno => hno (hclock i)
    · rintro o - ⟨v, rfl⟩
      rfl
  | error f =>
    have htame : (closing σ.desk.call r c (.error f)).Tame := (hquiet i).turn _ _ he.active
    cases hf : f.isCatchable with
    | true =>
      refine finishes_noting hcall hsound herror (he.begins (x := noteFailure c f)
        (ψ := notingPhase σ.desk.call r w c hooked f) ?_ ?_ trivial)
      · show (if f.isCatchable = true then _ else _ : Routine Value) = _
        rw [if_pos hf, closeFailed_eq]
        rfl
      · exact (meets_noteFailure _ (fun h => h) hready f).mono fun _ _ _ ho =>
          ⟨ho.1, ho.2.resolve_right fun hno => hno (hclock i)⟩
    | false =>
      have habort : closing σ.desk.call r c (.error f) = .fail f := if_neg (by simp [hf])
      rw [habort] at htame
      exact absurd (hf.symm.trans htame) nofun

/-- A run that begins with its context. -/
theorem finishes_proceed (hready : Ready r w c hooked s) (hnone : s.noted c failureKey = none)
    (hm : m = ((Schedule.ofStore s).launch (proceed σ.desk.call r c)).2)
    (hclock : ∀ n, ∃ moment, (m.after σ.body n).store.now = .ok moment)
    (hquiet : ∀ n, Quiet none (m.after σ.body n)) : m.Finishes σ.body 0 (Tells c 0) := by
  subst hm
  set m := ((Schedule.ofStore s).launch (proceed σ.desk.call r c)).2 with hm
  have hin : (sparingPhase c hooked (IsOk fun v _ => v = w) (onward fun w =>
      (Routine.call (.visit w.entrypoint r c)).thenOn (closing σ.desk.call r c))).In σ.body
        (fun s => Ready r w c hooked s ∧ s.noted c failureKey = none) 0 m :=
    Phase.in_launch (meets_beginning _ hsound (fun h => h) hready)
      (meets_proceed hsound hready herror hdone) ⟨hready, hnone⟩
  refine hin.finishes (kept_guarding hcall) (stable_of_spares lasting_ready) lasting_ready
    fun i o he => ?_
  cases o with
  | error f => cases (he.ends : False)
  | ok v =>
    obtain rfl : v = w := he.ends
    refine finishes_visiting hcall hsound herror hdone (fun n => ?_) (fun n => ?_) (he.begins
      (x := Routine.call (.visit v.entrypoint r c)) rfl (Contract.meets_call _ (fun _ _ h => h)
        ⟨_, r, c, rfl, he.holds.1.toFits⟩) he.holds)
    · rw [← Schedule.after_add]
      exact hclock _
    · rw [← Schedule.after_add]
      exact hquiet _

end Finishing

/-! ## The beginning of a run -/

variable (input : Value) (metadata : Entries Value) {moment : Int}

/-- The context of a run, and the store with it. -/
def opening (input : Value) (metadata : Entries Value) (moment : Int) (s : Store) :
    Ref .context × Store :=
  let (input, s) :=
    if input.isNull then let (r, s) := s.newDict []; (Value.dict r, s) else (input, s)
  s.newContext input [] [] [] metadata none moment

theorem ready_newContext (hr : r.index < s.workflows.size) (hreserves : (s.get r).Reserves)
    (hhooks : ∀ name, ∀ h ∈ s.hooks.under name, hooked h) :
    let t := s.newContext input [] [] [] metadata none moment
    Ready r (s.get r) t.1 hooked t.2 ∧ t.2.noted t.1 failureKey = none := by
  intro t
  have hdicts : ∀ {a b d : Entries Value}, (((s.dicts.push a).push b).push d).size =
      s.dicts.size + 3 := by simp
  have herrors : (t.2.get t.1).errors = ⟨s.dicts.size + 1⟩ :=
    (congrArg Context.errors getD_push_size).trans (congrArg Ref.mk (Array.size_push _))
  have hnew := s.clean_newContext (X := (· = (t.2.get t.1).errors)) input [] [] metadata none moment
    (fun h => absurd (congrArg Ref.index (h.trans herrors)) (Nat.ne_of_lt (Nat.lt_succ_self _)))
  refine ⟨⟨⟨⟨hnew.1, ?_⟩, hnew.1, hnew.2, hr, hreserves⟩, hhooks, rfl⟩, ?_⟩
  · rw [herrors]
    exact (Nat.lt_add_of_pos_right (by decide : 0 < 2)).trans_eq hdicts.symm
  · have hempty : t.2.get (t.2.get t.1).errors = [] := by
      rw [herrors]
      show (((s.dicts.push []).push []).push metadata).getD (s.dicts.size + 1) default = []
      simp [Array.getD, Array.getElem_push]
    rw [Store.noted, hempty]
    rfl

theorem ready_opening (moment : Int) (hr : r.index < s.workflows.size) (hreserves : (s.get r).Reserves)
    (hhooks : ∀ name, ∀ h ∈ s.hooks.under name, hooked h) :
    Ready r (s.get r) ⟨s.contexts.size⟩ hooked (opening input metadata moment s).2 ∧
      (opening input metadata moment s).2.noted ⟨s.contexts.size⟩ failureKey = none := by
  unfold opening
  cases input.isNull with
  | true => exact ready_newContext _ metadata (s := (s.newDict []).2) hr hreserves hhooks
  | false => exact ready_newContext _ metadata hr hreserves hhooks

/-- A run makes its context in three steps, in which it does not end. -/
theorem after_launch_execute (hnow : s.now = .ok moment) :
    let m := ((Schedule.ofStore s).launch (execute σ.desk.call r input metadata)).2
    (∀ n < 3, (m.after σ.body n).isOpen 0 = true) ∧
      m.after σ.body 3 = ((Schedule.ofStore (opening input metadata moment s).2).launch
        (proceed σ.desk.call r ⟨s.contexts.size⟩)).2 := by
  intro m
  have hstart : m = ((Schedule.ofStore s).launch (.get fun s => ((Routine.ofExcept s.now).bind
      fun moment => Routine.modifyGet (opening input metadata moment)).bind
        (proceed σ.desk.call r))).2 := by
    show ((Schedule.ofStore s).launch (execute σ.desk.call r input metadata)).2 = _
    rw [execute_eq]
    rfl
  have hfirst : m.after σ.body 1 = ((Schedule.ofStore s).launch (.get fun s => .put
      (opening input metadata moment s).2
        (proceed σ.desk.call r (opening input metadata moment s).1))).2 := by
    show m.next σ.body = _
    rw [hstart]
    show ((Schedule.ofStore s).launch (((Routine.ofExcept s.now).bind _).bind _)).2 = _
    rw [hnow]
    rfl
  have hsecond : m.after σ.body 2 = ((Schedule.ofStore s).launch (.put
      (opening input metadata moment s).2
        (proceed σ.desk.call r (opening input metadata moment s).1))).2 := by
    show (m.after σ.body 1).next σ.body = _
    rw [hfirst]
    rfl
  have hcontext : (opening input metadata moment s).1 = ⟨s.contexts.size⟩ := by
    unfold opening
    cases input.isNull <;> rfl
  refine ⟨fun n hn => ?_, ?_⟩
  · match n, hn with
    | 0, _ => rfl
    | 1, _ => rw [hfirst]; rfl
    | 2, _ => rw [hsecond]; rfl
  · show (m.after σ.body 2).next σ.body = _
    rw [hsecond, ← hcontext]
    rfl

/-- **The errors tell whether a run has failed.** Let no step of a workflow have the name for the
failure of a whole run, and let no user code write to what is noted for this run or hand out anything
from which a path leads to the errors of its context; let hooks and handlers of the workflow not fail.
When a run has ended, and ever after, something is noted for it if and only if it has failed, and then
it is its failure. -/
theorem errors_tell {s : Store} {r : Ref .workflow} (hooked : Ref .callable → Prop)
    (htame : σ.desk.call.Tame) (hcall : Spared σ.desk.call ⟨s.contexts.size⟩ hooked)
    (hsound : Sound σ.desk.call ⟨s.contexts.size⟩ hooked) (hr : r.index < s.workflows.size)
    (hreserves : (s.get r).Reserves) (hhooks : ∀ name, ∀ h ∈ s.hooks.under name, hooked h)
    (herror : ∀ h ∈ (s.get r).onError, hooked h) (hdone : ∀ h ∈ (s.get r).onCompleted, hooked h)
    (input : Value) (metadata : Entries Value) :
    let R := Run.launched σ.body s (execute σ.desk.call r input metadata)
    (∀ n, ∃ moment, (R.store n).now = .ok moment) → ∀ N o, (R.moment N).outcome? 0 = some o →
      (R.store N).noted ⟨s.contexts.size⟩ failureKey = match o with
        | .ok _ => none
        | .error f => some (.failure f) := by
  intro R hclock N o hout
  obtain ⟨moment, hnow⟩ := hclock 0
  cases N with
  | zero => cases hout
  | succ n =>
    set m := ((Schedule.ofStore s).launch (execute σ.desk.call r input metadata)).2 with hm
    obtain ⟨hopen, hafter⟩ := after_launch_execute (σ := σ) (r := r) input metadata hnow
    have hend : (m.after σ.body n).isOpen 0 = false := isOpen_eq_false_iff.2 ⟨o, hout⟩
    have hn : 3 ≤ n := Nat.le_of_not_lt fun hlt => absurd ((hopen n hlt).symm.trans hend) nofun
    obtain ⟨hready, hnone⟩ := ready_opening input metadata moment hr hreserves hhooks
    have hquiet : ∀ i, Quiet none (m.after σ.body i) := fun i =>
      (((quiet_ofStore s).launch rfl (tame_execute htame input metadata)).after
        (tameBody_setup htame) ((balanced_ofStore s).launch rfl _) i).1
    have hfinishes : (m.after σ.body 3).Finishes σ.body 0 (Tells ⟨s.contexts.size⟩ 0) := by
      refine finishes_proceed hcall hsound herror hdone hready hnone hafter (fun i => ?_)
        fun i => ?_
      · rw [← Schedule.after_add]
        exact hclock (3 + i + 1)
      · rw [← Schedule.after_add]
        exact hquiet _
    obtain ⟨o', ho', hnoted⟩ := hfinishes.later hn hend
    cases ho'.symm.trans hout
    exact hnoted

/-- The failure with which a run ends for want of a task is what is noted for it. -/
theorem errors_tell_lost : ∃ f, (lostRun.moment 66).outcome? 0 = some (.error f) ∧
    (lostRun.store 66).noted ⟨0⟩ failureKey = some (.failure f) := by
  have hfailed : ((lostRun.moment 66).outcome? 0).map Except.isOk = some false := by decide +kernel
  have hreserves : (lostStore.get (⟨0⟩ : Ref .workflow)).Reserves := by
    intro id step hs
    rw [step_ok_iff] at hs
    change (if "work" = id then _ else if "lost" = id then _ else _) = _ at hs
    split at hs
    · next hid =>
      cases hs
      exact ⟨hid ▸ by decide, by decide⟩
    · split at hs
      · next hid =>
        cases hs
        exact ⟨hid ▸ by decide, by decide⟩
      · cases hs
  have hnobody : ∀ name, ∀ h ∈ lostStore.hooks.under name, False := fun name h hm => by
    cases name <;> cases hm
  have htell := errors_tell (σ := promptSetup) (fun _ => False) tame_promptSetup
    (fun _ _ _ _ => clean_plain rfl) (fun _ _ _ _ _ => trivial) (s := lostStore) (r := ⟨0⟩)
    (by decide) hreserves hnobody (fun _ h => absurd h List.not_mem_nil)
    (fun _ h => absurd h List.not_mem_nil) .null [] lostRun_over.2.2 66
  cases ho : (lostRun.moment 66).outcome? 0 with
  | none =>
    rw [ho] at hfailed
    cases hfailed
  | some o =>
    cases o with
    | ok v =>
      rw [ho] at hfailed
      cases hfailed
    | error f => exact ⟨f, rfl, htell _ ho⟩

/-- A workflow with a single step, which has the name for the failure of the whole run, and one
retry. -/
def takenStore : Store :=
  let work : Step := ⟨"workflow", .task ⟨"t", none, none, none, 1, .int 0⟩, .none⟩
  { Store.empty with
    workflows := #[⟨"w", "w", [("workflow", work)], "workflow", .null, .null, .null, [], [], []⟩]
    tasks := #[default]
    taskRegistry := [("t", ⟨0⟩)] }

def takenRun : Run flakySetup.body :=
  .launched _ takenStore (execute flakySetup.desk.call ⟨0⟩ .null [])

/-- The run recovers from the failure of its step and returns, and yet something is noted for it. -/
theorem noted_of_recovered : ((takenRun.moment 61).outcome? 0).map Except.isOk = some true ∧
    ((takenRun.store 61).noted ⟨0⟩ failureKey).isSome = true := by
  decide +kernel

end Workflow

end Conductor
