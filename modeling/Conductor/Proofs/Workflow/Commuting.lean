import Conductor.Proofs.Routine.Visiting
import Conductor.Proofs.Schedule.Phases
import Conductor.Proofs.Store.Laws
import Conductor.Proofs.Workflow.Acyclic
import Conductor.Proofs.Workflow.Filling

/-!
# Branches that fill one output

The branches of a parallel step may write parts of their results into the output of their context, at
targets that their steps name. If no target is at another one or behind it, nobody can write over what
another branch has written; and the dictionaries on the way to several targets are made by whoever
comes first and are then used by the others.

So it does not matter in which order the branches end, as long as handlers give values that look the
same at the targets, and that lead to nothing that the branches themselves change. A step whose
condition does not hold writes nothing. Conditions must not depend on what other branches have written:
if they do, what is written depends on the order (`order_shows`).

**Theorem (`outputs_commute`).** When all branches have succeeded, the output is the same nested
mapping in every order in which they may have ended. The targets hold what was to be written there,
and everything beside them is what it was.
-/

namespace Conductor

open Store

/-- What branches are to deliver: the store in which they begin, the steps of a workflow that run side by
side, and the context whose output they fill. -/
structure Delivery where
  start : Store
  workflow : Ref .workflow
  branches : List String
  context : Ref .context
  /-- Whether the condition of a step holds. -/
  holds : String → Bool
  /-- How things look at a target, down to a depth. -/
  look : List String → Nat → Tree

namespace Delivery

variable {Δ : Delivery} {b : String} {t : TaskStep} {s u : Store} {w : Ref .workflow} {v : Value}

/-- The step of a given id. -/
def step (Δ : Delivery) (b : String) : Except Cause Step := (Δ.start.get Δ.workflow).step b

/-- What a step writes into the output, and where. A step whose condition does not hold writes
nothing. -/
def outputs (Δ : Delivery) (b : String) : Entries String :=
  match Δ.step b with
  | .ok ⟨_, .task t, _⟩ => if t.condition.isNone || Δ.holds b then t.outputs.getD [] else []
  | _ => []

/-- The output that is filled. -/
def output (Δ : Delivery) : Ref .dict := (Δ.start.get Δ.context).output

/-- Where steps write into the output. -/
def targets (Δ : Delivery) : List (List String) :=
  Δ.branches.flatMap fun b => (Δ.outputs b).map fun e => Path.segments e.2

/-- A step that runs a task with an output map, and behind which nothing comes. -/
def Delivers (Δ : Delivery) (b : String) (t : TaskStep) : Prop :=
  ∃ id m, Δ.step b = .ok ⟨id, .task t, .none⟩ ∧ t.outputs = some m

theorem mem_targets (hb : b ∈ Δ.branches) {e : String × String} (he : e ∈ Δ.outputs b) :
    Path.segments e.2 ∈ Δ.targets :=
  List.mem_flatMap.2 ⟨b, hb, List.mem_map.2 ⟨e, he, rfl⟩⟩

/-- Steps that run their tasks write what their output maps name. -/
theorem Delivers.outputs (h : Δ.Delivers b t) (ht : t.condition = none ∨ Δ.holds b = true) :
    t.outputs = some (Δ.outputs b) := by
  obtain ⟨id, m, hstep, hm⟩ := h
  rw [Delivery.outputs, hstep]
  have hruns : (t.condition.isNone || Δ.holds b) = true := by
    rcases ht with ht | ht <;> simp [ht]
  show t.outputs = some (if _ then t.outputs.getD [] else [])
  rw [if_pos hruns, hm]
  rfl

/-- Steps that do not run their tasks write nothing. -/
theorem Delivers.no_outputs (h : Δ.Delivers b t) {a : Ref .callable} (ha : t.condition = some a)
    (ht : Δ.holds b = false) : Δ.outputs b = [] := by
  obtain ⟨id, m, hstep, -⟩ := h
  rw [Delivery.outputs, hstep]
  have hskips : ¬ (t.condition.isNone || Δ.holds b) = true := by simp [ha, ht]
  exact if_neg hskips

/-! ## What happens meanwhile -/

/-- The context is there, and its output is in good order. -/
def Poised (Δ : Delivery) (s : Store) : Prop := Store.Poised Δ.targets Δ.context s

/-- The output is filled in good order from now on. -/
def Goes (Δ : Delivery) (s t : Store) : Prop :=
  Δ.Poised s → Fills Δ.targets Δ.look Δ.context s t

theorem Goes.poised (h : Δ.Goes s u) (hs : Δ.Poised s) : Δ.Poised u := (h hs).poised

theorem goes_refl (Δ : Delivery) (s : Store) : Δ.Goes s s := .refl

theorem Goes.trans {t : Store} (h : Δ.Goes s t) (h' : Δ.Goes t u) : Δ.Goes s u :=
  fun hs => (h hs).trans hs (h' (h.poised hs))

/-- A value that looks as it should at the targets of a step, and leads to nothing that branches
change. -/
def Suits (Δ : Delivery) (b : String) (v : Value) (s : Store) : Prop :=
  Clear (Busy Δ.targets Δ.context s) s v ∧ ∀ e ∈ Δ.outputs b, ∀ x, s.lookup v e.1 = .ok x →
    ∀ n, s.unfold n x = Δ.look (Path.segments e.2) n

theorem Suits.lasting (h : Δ.Suits b v s) (hs : Δ.Poised s) (hu : Δ.Goes s u) : Δ.Suits b v u := by
  have hfills := hu hs
  refine ⟨hfills.clear h.1, fun e he x hx n => ?_⟩
  rw [lookup_of_sight (hfills.still.sight v h.1.stands h.1.not)] at hx
  rw [Clear.unfold hfills.still (h.1.lookup (fun _ => Busy.not_plain) hx)]
  exact h.2 e he x hx n

/-- A branch has its results at its targets. -/
def Brings (Δ : Delivery) (b : String) (s : Store) : Prop :=
  Δ.Poised s ∧ ∀ e ∈ Δ.outputs b, Filled Δ.targets Δ.look Δ.context s (Path.segments e.2)

theorem Brings.lasting (h : Δ.Brings b s) (hb : b ∈ Δ.branches) (hu : Δ.Goes s u) : Δ.Brings b u :=
  ⟨hu.poised h.1, fun e he => (hu h.1).filled _ (mem_targets hb he) (h.2 e he)⟩

/-- A step is what it was in the beginning, up to the retries that it has left, and so are the tasks. -/
structure Mirrors (Δ : Delivery) (b : String) (w : Ref .workflow) (s : Store) : Prop where
  tasks : SameTasks Δ.start s
  there : w.index < s.workflows.size
  step : ∃ id t n, Δ.step b = .ok ⟨id, .task t, .none⟩ ∧
    (s.get w).step b = .ok ⟨id, .task { t with retries := n }, .none⟩

theorem Mirrors.lasting (h : Δ.Mirrors b w s) (hu : Fills Δ.targets Δ.look Δ.context s u) :
    Δ.Mirrors b w u where
  tasks := h.tasks.trans hu.tasks
  there := h.there.trans_le hu.freezes.size
  step := by
    rw [hu.freezes.same w h.there]
    exact h.step

/-- A copy in which a step has one retry less. -/
theorem Mirrors.lowered (h : Δ.Mirrors b w s) {step : Step} (hs : (s.get w).step b = .ok step)
    {t' : TaskStep} (hk : step.kind = .task t') :
    let copy := s.alloc (t := .workflow) ((s.get w).withStep (Visit.Scene.fewer step t'))
    Δ.Mirrors b copy.1 copy.2 := by
  obtain ⟨htasks, -, id, t, n, hW, hstep⟩ := h
  obtain rfl := Except.ok.inj (hs.symm.trans hstep)
  cases hk
  refine ⟨htasks.trans (sameTasks_of_tables rfl rfl), ?_, id, t, ?_⟩
  · show s.workflows.size < (s.workflows.push _).size
    rw [Array.size_push]
    exact Nat.lt_succ_self _
  · rw [Store.get_alloc]
    by_cases hid : id = b
    · exact ⟨n - 1, hW, Workflow.step_fewer hs hid⟩
    · exact ⟨n, hW, (Workflow.step_fewer_of_ne hid).2 hs⟩

/-! ## The contract of the branches -/

/-- The terms of user code that changes nothing that is there. It waits for nothing but the end of
sleeps. -/
def growing (Δ : Delivery) : Terms where
  writes := Grows
  rely := Δ.Goes
  asks w _ := ∃ x, w = .sleep x
  answers w o _ := ∀ x, w = .sleep x → o = .ok []
  refl := Δ.goes_refl
  trans := Goes.trans
  relied h hs := h.fills hs

/-- The contract among the branches. -/
def contract (Δ : Delivery) : Contract where
  writes _ := Δ.Goes
  rely := Δ.Goes
  pre p s := ∃ b ∈ Δ.branches, ∃ w, p = .visit b w Δ.context ∧ Δ.Poised s ∧ Δ.Mirrors b w s
  post p o s := ∀ b ∈ Δ.branches, ∀ w, p = .visit b w Δ.context → OnOk (fun _ s => Δ.Brings b s) o s
  refl := Δ.goes_refl
  trans := Goes.trans
  relied h := h
  lasting {_ o _ _} h ht b hb w hp := by
    cases o with
    | ok v => exact (h b hb w hp).lasting hb ht
    | error f => trivial

/-- User code that serves a delivery. It changes nothing that is there, what the handlers of the
branches give suits their steps, and the conditions of the branches hold or not, whenever they are
asked. -/
structure Serves (call : Handlers) (Δ : Delivery) : Prop where
  calls : ∀ a vs s, Δ.Poised s → (call a vs).Meets Δ.growing (OnOk fun _ _ => True) s
  handlers : ∀ b ∈ Δ.branches, ∀ t, Δ.Delivers b t → ∀ r, Δ.start.task t.task = .ok r →
    ∀ vs s, Δ.Poised s → (call (Δ.start.get r).handler vs).Meets Δ.growing (OnOk (Δ.Suits b)) s
  conditions : ∀ b ∈ Δ.branches, ∀ t, Δ.Delivers b t → ∀ a, t.condition = some a →
    ∀ vs s, Δ.Poised s → (call a vs).Meets Δ.growing (OnOk fun v s => s.isTruthy v = Δ.holds b) s

/-- The terms of the branches. -/
def terms (Δ : Delivery) : Terms := Δ.contract.termsBy Δ.Goes fun h => h

/-- What user code does on its terms it does on those of the branches. -/
theorem meets_of_growing {α : Type} {r : Routine α} {Q : Except Failure α → Store → Prop}
    (h : r.Meets Δ.growing Q s) : r.Meets Δ.terms Q s := by
  refine Routine.Meets.weaken (T := Δ.growing) (fun h hs => h.fills hs) (fun h => h) ?_ ?_ h
  · rintro w s ⟨x, rfl⟩
    exact ⟨fun p hp => absurd hp List.not_mem_nil, nofun⟩
  · rintro w o s h x rfl
    exact h

/-! ## Beside the targets -/

section Beside

theorem goes_of_keeps {X : Set Container} (hstill : Still (Noise Δ.context s) s u) (hk : Keeps X s u)
    (hw : Freezes s u) (ht : u.taskRegistry = s.taskRegistry) (htasks : u.tasks = s.tasks) :
    Δ.Goes s u :=
  fun hs => fills_of_still hs hstill hk.contexts hw (sameTasks_of_tables ht htasks)

/-- The counter of failures, the clock and the journal are nobody's concern. -/
theorem goes_mark (Δ : Delivery) (s : Store) (n : Nat) (x : Binary64) (j : List Event) :
    Δ.Goes s { s with nextFailure := n, clock := x, journal := j } :=
  goes_of_keeps (X := ∅) (still_mark _ s n x j) (keeps_of_tables rfl rfl rfl rfl)
    (freezes_of_workflows rfl) rfl rfl

theorem goes_noteError (Δ : Delivery) (s : Store) (name : String) (f : Failure) :
    Δ.Goes s (s.noteError Δ.context name f) :=
  goes_of_keeps ((still_put_dict s _ _).mono fun _ _ h => h ▸ .errors)
    (keeps_insert s _ name (.failure f)) (freezes_of_workflows rfl) rfl rfl

theorem goes_record (Δ : Delivery) (s : Store) (id : String) (v : Value) :
    Δ.Goes s (s.record Δ.context id v) :=
  goes_of_keeps ((still_put_results s _ _).mono fun _ _ h => h ▸ .results)
    (keeps_put_results s _ _) (freezes_of_workflows rfl) rfl rfl

theorem goes_enter (Δ : Delivery) (s : Store) (id : String) : Δ.Goes s (s.enter Δ.context id) :=
  goes_of_keeps (X := ∅) ((still_update_context s Δ.context _).mono fun _ _ h => h ▸ .context)
    (keeps_update_context s Δ.context fun _ => rfl) (freezes_of_workflows rfl) rfl rfl

theorem goes_newDict (Δ : Delivery) (s : Store) (es : Entries Value) : Δ.Goes s (s.newDict es).2 :=
  goes_of_keeps (X := ∅) (still_newDict _ s es) (keeps_newDict s es) (freezes_of_workflows rfl) rfl
    rfl

theorem goes_newList (Δ : Delivery) (s : Store) (vs : List Value) : Δ.Goes s (s.newList vs).2 :=
  goes_of_keeps (X := ∅) (still_alloc_sequence _ s vs) (keeps_newList s vs)
    (freezes_of_workflows rfl) rfl rfl

theorem goes_alloc (Δ : Delivery) (s : Store) (x : Workflow) :
    Δ.Goes s (s.alloc (t := .workflow) x).2 :=
  goes_of_keeps (X := ∅) (still_alloc_workflow _ s x) (keeps_of_tables rfl rfl rfl rfl)
    (freezes_alloc s x) rfl rfl

end Beside

/-! ## Branches keep the contract -/

variable {σ : Setup} (hcall : Serves σ.desk.call Δ)
include hcall

/-- Beside their proper work, branches fill the output in good order. -/
theorem usual (hs : Δ.Poised s) : Δ.terms.Usual (fun _ _ => True) σ.desk.call s where
  same {t} _ := Δ.goes_refl t
  raise {t} _ := Δ.goes_mark t _ _ _
  log {t} _ _ _ _ _ := Δ.goes_mark t _ _ _
  dict {t} _ es := Δ.goes_newDict t es
  list {t} _ vs _ := ⟨Δ.goes_newList t vs, trivial⟩
  null _ := trivial
  lasting _ _ _ := trivial
  user {t} ht a vs := meets_of_growing (hcall.calls a vs t (ht hs).poised)

theorem frames (w : Ref .workflow) (x : String) (hs : Δ.Poised s) :
    (σ.scene w Δ.context).Frames Δ.terms (fun _ _ => True) s x :=
  ⟨usual hcall hs, fun {t} _ => Δ.goes_enter t x, fun {t} _ f => Δ.goes_noteError t x f,
    fun _ => ⟨fun _ hp => absurd hp List.not_mem_nil, nofun⟩⟩

section Tasks

variable (hb : b ∈ Δ.branches) (hs : Δ.Poised s)
include hb hs

/-- What is written at a target is there. -/
theorem meets_writeOutput {e : String × String} (he : e ∈ Δ.outputs b) (hv : Δ.Suits b v s) :
    ((σ.scene w Δ.context).writeOutput v e.1 e.2).Meets Δ.terms
      (OnOk fun _ u => Filled Δ.targets Δ.look Δ.context u (Path.segments e.2)) s := by
  have husual := usual hcall hs
  refine husual.meets_query_bind (Δ.terms.refl s) fun x hx => ?_
  refine husual.meets_query_bind (Δ.terms.refl s) fun u hu => ?_
  obtain ⟨hfills, hfilled⟩ := fills_of_setPath hs (mem_targets hb he)
    (hv.1.lookup (fun _ => Busy.not_plain) hx) (hv.2 e he x hx) hu
  exact ⟨fun _ => hfills, hfilled⟩

theorem meets_applyOutput (ht : t.outputs = some (Δ.outputs b)) (hv : Δ.Suits b v s) :
    ((σ.scene w Δ.context).applyOutput t v).Meets Δ.terms (OnOk fun _ u => Δ.Brings b u) s := by
  unfold Visit.Scene.applyOutput
  rw [ht]
  have hall := Routine.meets_each_all (T := Δ.terms) (s := s)
    (P := fun (e : String × String) u => Path.segments e.2 ∈ Δ.targets ∧
      Filled Δ.targets Δ.look Δ.context u (Path.segments e.2))
    (f := fun e => (σ.scene w Δ.context).writeOutput v e.1 e.2)
    (fun hu he hu' => ⟨he.1, (hu' (hu hs).poised).filled _ he.1 he.2⟩) (Δ.terms.refl s)
    fun e he u hu =>
      (meets_writeOutput (w := w) hcall hb (hu hs).poised he (hv.lasting hs hu)).mono fun o _ _ ho => by
        cases o with
        | ok _ => exact ⟨mem_targets hb he, ho⟩
        | error f => trivial
  refine hall.mono fun o u hu ho => ?_
  cases o with
  | ok _ => exact ⟨(hu hs).poised, fun e he => (ho e he).2⟩
  | error f => trivial

theorem meets_runTask (hm : SameTasks Δ.start s) (hd : Δ.Delivers b t)
    (ht : t.condition = none ∨ Δ.holds b = true) {r : Ref .task} (hr : s.task t.task = .ok r) (n : Int) :
    ((σ.scene w Δ.context).runTask { t with retries := n } r).Meets Δ.terms
      (OnOk fun _ u => Δ.Brings b u) s := by
  have hframes := frames hcall w b hs
  refine (hframes.meets_inputOf (Δ.terms.refl s) _).bind fun input s₁ h₁ _ => ?_
  have hs₁ := (h₁ hs).poised
  have hstart := (hm.task _).symm.trans hr
  refine ((usual hcall hs₁).meets_execute_of (P := Δ.Suits b) (Δ.terms.refl s₁)
    (fun {u} hu vs => meets_of_growing ?_) (fun {v u u'} hu hv hu' => ?_) input _).bind
      fun v s₂ h₂ hv => ?_
  · rw [((hm.trans (h₁ hs).tasks).trans (hu hs₁).tasks).handler _ r hstart]
    exact hcall.handlers b hb t hd r hstart vs u (hu hs₁).poised
  · exact hv.lasting (hu hs₁).poised hu'
  · exact (meets_applyOutput (t := { t with retries := n }) hcall hb (h₂ hs₁).poised
      (hd.outputs ht) hv).bind fun _ _ _ ho => ho

theorem meets_task (hm : SameTasks Δ.start s) (hd : Δ.Delivers b t) (n : Int) (x : String) :
    ((σ.scene w Δ.context).task x { t with retries := n }).Meets Δ.terms
      (OnOk fun _ u => Δ.Brings b u) s := by
  have husual := usual hcall hs
  refine husual.meets_query_bind (Δ.terms.refl s) fun r hr => ?_
  dsimp only
  cases hcond : t.condition with
  | none => exact meets_runTask hcall hb hs hm hd (Or.inl hcond) hr n
  | some a =>
    have hholds : ((σ.scene w Δ.context).holds a x).Meets Δ.terms
        (OnOk fun chosen _ => chosen = Δ.holds b) s := by
      refine Routine.Meets.attempt_bind (meets_of_growing
        (hcall.conditions b hb t hd a hcond _ s hs)) fun o u hu ho => ?_
      cases o with
      | ok v => exact ho
      | error f => exact husual.meets_raise hu _
    refine hholds.bind fun chosen u hu ho => ?_
    have hu' := (hu hs).poised
    cases chosen with
    | true =>
      exact meets_runTask hcall hb hu' (hm.trans (hu hs).tasks) hd (Or.inr ho.symm)
        (((hu hs).tasks.task _).trans hr) n
    | false =>
      refine (husual.meets_log hu _ _ _ _).bind fun _ u' h' _ => ⟨(h' hu').poised, fun e he => ?_⟩
      rw [hd.no_outputs hcond ho.symm] at he
      exact absurd he List.not_mem_nil

end Tasks

/-- What a branch leaves behind when it has succeeded is its results at its targets. -/
theorem meets_settle (hb : b ∈ Δ.branches) (hs : Δ.Brings b s) (w : Ref .workflow) (x id : String)
    (kind : StepKind) (v : Value) :
    ((σ.scene w Δ.context).settle x ⟨id, kind, .none⟩ v).Meets Δ.terms
      (OnOk fun _ u => Δ.Brings b u) s := by
  refine (Routine.meets_alter (P := fun _ u => Δ.Brings b u)
    (Δ.goes_record s x v) (hs.lasting hb (Δ.goes_record s x v))).bind fun _ u _ hu => ?_
  exact ((frames hcall w x hu.1).meets_emit (Δ.terms.refl u) _ _).bind
    fun _ u' hu' _ => hu.lasting hb hu'

/-- A visit of a branch has its results at its targets when it has succeeded. -/
theorem meets_visit (hb : b ∈ Δ.branches) (hd : ∃ t, Δ.Delivers b t) (hs : Δ.Poised s)
    (hm : Δ.Mirrors b w s) :
    ((σ.scene w Δ.context).visit b).Meets Δ.terms (OnOk fun _ u => Δ.Brings b u) s := by
  obtain ⟨id, t, n, hW, hstep⟩ := hm.step
  have hdt : Δ.Delivers b t := by
    obtain ⟨t', id', m, hstep', hm'⟩ := hd
    cases hW.symm.trans hstep'
    exact ⟨_, m, hW, hm'⟩
  have hsteps : ∀ step, (s.get w).step b = .ok step →
      step = ⟨id, .task { t with retries := n }, .none⟩ := fun step h =>
    (Except.ok.inj (hstep.symm.trans h)).symm
  have hdispatch : ∀ step, (s.get w).step b = .ok step → ∀ {u}, Δ.terms.rely s u →
      ((σ.scene w Δ.context).dispatch step).Meets Δ.terms (OnOk fun _ u => Δ.Brings b u) u := by
    intro step h u hu
    rw [hsteps step h]
    exact meets_task hcall hb (hu hs).poised (hm.lasting (hu hs)).tasks hdt n id
  refine Visit.Scene.visit_meets_of (Δ.goes_mark s _ _ _) (fun _ _ => frames hcall w b hs) hdispatch
    (fun step h {u v} hu hv => ?_) fun step t' h hk hpos u hu => ?_
  · rw [hsteps step h]
    exact meets_settle hcall hb hv w b _ _ v
  · -- The step is run again in a copy of the workflow, in which it has one retry less.
    have hu := hu hs
    have hcopy := (hm.lasting hu).lowered (by rwa [hu.freezes.same w hm.there]) hk
    have hposed := (Δ.goes_alloc u ((u.get w).withStep (Visit.Scene.fewer step t'))).poised hu.poised
    have hagain := Contract.meets_call (K := Δ.contract) (fun {_ _} h => h) (fun _ _ h => h)
      ⟨b, hb, _, rfl, hposed, hcopy⟩
    exact ⟨Δ.goes_alloc u _, hagain.mono fun o _ _ ho => ho b hb _ rfl⟩

/-- **Branches keep the contract.** -/
theorem kept (hd : ∀ b ∈ Δ.branches, ∃ t, Δ.Delivers b t) : Δ.contract.Kept σ.body where
  clock s x := Δ.goes_mark s _ x _
  late s _ := Δ.goes_mark s _ _ _
  body {p s u} hp hu := by
    obtain ⟨b, hb, w, rfl, hs, hm⟩ := hp
    have hvisit := meets_visit hcall hb (hd b hb) (hu hs).poised (hm.lasting (hu hs))
    refine hvisit.mono fun o _ _ ho b' hb' w' heq => ?_
    cases heq
    exact ho

omit hcall

/-! ## The order of branches -/

/-- The branches of a delivery can be run. No target is at another one or behind it, and nothing stands
in the way to any; and the output is a tree of dictionaries which leads neither to its context nor to the
results and errors of that. -/
structure Ready (Δ : Delivery) : Prop where
  split : Split Δ.targets
  delivers : ∀ b ∈ Δ.branches, ∃ t, Δ.Delivers b t
  there : Δ.workflow.index < Δ.start.workflows.size
  opened : Δ.context.index < Δ.start.contexts.size
  errors : Δ.start.Has (.dict (Δ.start.get Δ.context).errors)
  tree : Treelike Δ.start Δ.output
  apart : Clear (Noise Δ.context Δ.start) Δ.start (.dict Δ.output)
  ways : ∀ p ∈ Δ.targets, ¬ Blocked Δ.start Δ.output p

theorem Ready.poised (h : Δ.Ready) : Δ.Poised Δ.start where
  split := h.split
  opened := h.opened
  errors := h.errors
  apart _ _ hw := (h.apart _ (leads_of_walk hw)).2 .errors
  nested := h.tree.nested h.ways

theorem Ready.mirrors (h : Δ.Ready) (hb : b ∈ Δ.branches) : Δ.Mirrors b Δ.workflow Δ.start := by
  obtain ⟨t, id, m, hstep, -⟩ := h.delivers b hb
  exact ⟨.refl _, h.there, id, t, t.retries, hstep, hstep⟩

/-- The leaves of the output lead to nothing that branches change. -/
theorem Ready.clear (h : Δ.Ready) {q : List String} {x : Value}
    (hx : Δ.start.walk (.dict Δ.output) q = some x) (hleaf : ∀ r, x ≠ .dict r) :
    Clear (Busy Δ.targets Δ.context Δ.start) Δ.start x := by
  intro y hy
  obtain ⟨hstands, hnoise⟩ := h.apart y ((leads_of_walk hx).trans hy)
  refine ⟨hstands, fun hbusy => ?_⟩
  cases hbusy with
  | context => exact hnoise .context
  | results => exact hnoise .results
  | errors => exact hnoise .errors
  | output _ hr => exact h.tree.leaves q x hx hleaf _ _ hr hy

/-- What is there when all branches have succeeded. -/
structure Delivered (Δ : Delivery) (t : Store) : Prop where
  fills : Fills Δ.targets Δ.look Δ.context Δ.start t
  filled : ∀ p ∈ Δ.targets, Filled Δ.targets Δ.look Δ.context t p

/-- The parallel step is dispatched in the beginning, and all of its branches go on by themselves. -/
def run (Δ : Delivery) (σ : Setup) (step : Step) : Run σ.body :=
  .launched σ.body Δ.start ((σ.scene Δ.workflow Δ.context).dispatch step)

/-- A parallel step that succeeds has all of its branches deliver. -/
theorem meets_dispatch (h : Δ.Ready) {step : Step} (hk : step.kind = .parallel Δ.branches true) :
    ((σ.scene Δ.workflow Δ.context).dispatch step).Meets Δ.terms (OnOk fun _ t => Δ.Delivered t)
      Δ.start := by
  set scene := σ.scene Δ.workflow Δ.context with hscene
  have hdispatch : scene.dispatch step = scene.gather Δ.branches := by
    rw [Visit.Scene.dispatch, hk]
    rfl
  rw [hdispatch]
  have hall : (Routine.all (scene.side Δ.branches)).Meets Δ.terms
      (OnOk fun _ t => ∀ b ∈ Δ.branches, Δ.Brings b t) Δ.start := by
    refine ⟨⟨fun p hp => ?_, nofun⟩, fun o t ht ho => ?_⟩
    · obtain ⟨b, hb, rfl⟩ := List.mem_map.1 hp
      exact ⟨b, hb, Δ.workflow, rfl, h.poised, h.mirrors hb⟩
    · cases o with
      | error f => trivial
      | ok vs =>
        intro b hb
        have hpost := List.forall₂_iff_get.1 (ho : List.Forall₂ _ _ vs)
        obtain ⟨i, hi, rfl⟩ := List.mem_iff_getElem.1 hb
        have hi' : i < (scene.side Δ.branches).length := by
          rwa [Visit.Scene.side, List.length_map]
        refine hpost.2 i hi' (hpost.1 ▸ hi') _ hb Δ.workflow ?_
        exact List.getElem_map fun step => Procedure.visit step Δ.workflow Δ.context
  refine hall.bind fun vs t ht hbrings => Routine.meets_modifyGet (Δ.goes_newList t vs) ?_
  have hgoes := Goes.trans ht (Δ.goes_newList t vs)
  refine ⟨hgoes h.poised, fun p hp => ?_⟩
  obtain ⟨b, hb, hp⟩ := List.mem_flatMap.1 hp
  obtain ⟨e, he, rfl⟩ := List.mem_map.1 hp
  exact ((hbrings b hb).lasting hb (Δ.goes_newList t vs)).2 e he

/-- What is delivered is there from the end of the parallel step on. -/
theorem delivered (h : Δ.Ready) (hcall : Serves σ.desk.call Δ) {step : Step}
    (hk : step.kind = .parallel Δ.branches true) {N : Nat}
    (hend : ((Δ.run σ step).moment N).outcome? 0 = some (.ok v)) :
    Δ.Delivered ((Δ.run σ step).store N) := by
  let ρ : Δ.contract.Role := ⟨Δ.Goes, OnOk fun _ t => Δ.Delivered t, fun h => h,
    fun {o t u} ho hu => by
      cases o with
      | error f => trivial
      | ok v =>
        have hu := hu ho.fills.poised
        exact ⟨ho.fills.trans h.poised hu, fun p hp => hu.filled p hp (ho.filled p hp)⟩⟩
  exact Contract.post_launched (kept hcall h.delivers) ρ (meets_dispatch h hk) hend

/-- **The order of branches does not matter.** Let a parallel step wait for all of its branches, which
are task steps with output maps and nothing behind them; and let the targets of those whose conditions
hold be apart from each other, and the output a tree of dictionaries into which all of them can be
written. User code may sleep as it likes and changes nothing that is there.

When all branches have succeeded, in two runs in which handlers give what looks the same at the targets,
the output is the same nested mapping; every target reads what has been mapped to it; and every path
beside the targets reads what it read before. -/
theorem outputs_commute {σ' : Setup} (h : Δ.Ready) (hcall : Serves σ.desk.call Δ)
    (hcall' : Serves σ'.desk.call Δ) {step : Step} (hk : step.kind = .parallel Δ.branches true)
    {N N' : Nat} {v v' : Value} (hend : ((Δ.run σ step).moment N).outcome? 0 = some (.ok v))
    (hend' : ((Δ.run σ' step).moment N').outcome? 0 = some (.ok v')) :
    let t := (Δ.run σ step).store N
    let t' := (Δ.run σ' step).store N'
    ((t.get Δ.context).output = Δ.output ∧ (t'.get Δ.context).output = Δ.output ∧
      ∀ n, Alike t t' n (.dict Δ.output) (.dict Δ.output)) ∧
    (∀ b ∈ Δ.branches, ∀ e ∈ Δ.outputs b, ∃ x, t.getPath (.dict Δ.output) e.2 = .ok x ∧
      ∀ n, t.unfold n x = Δ.look (Path.segments e.2) n) ∧
    ∀ q, (∀ p ∈ Δ.targets, ¬ p <+: Path.segments q ∧ ¬ Path.segments q <+: p) →
      t.getPath (.dict Δ.output) q = Δ.start.getPath (.dict Δ.output) q := by
  intro t t'
  have hd := delivered h hcall hk hend
  have hd' := delivered h hcall' hk hend'
  have hout : (t.get Δ.context).output = Δ.output := hd.fills.output h.poised
  have hout' : (t'.get Δ.context).output = Δ.output := hd'.fills.output h.poised
  have hnested := hd.fills.poised.nested
  rw [hout] at hnested
  -- What is beside the targets is what it was in the beginning, in both runs.
  have hsame : ∀ q, Beside Δ.targets q → t'.walk (.dict Δ.output) q = t.walk (.dict Δ.output) q :=
    fun q hq => (hd'.fills.beside q hq).trans (hd.fills.beside q hq).symm
  refine ⟨⟨hout, hout', alike_of_targets h.split (fun p hp => ?_) hsame fun q x hq hx hleaf n => ?_⟩,
    fun b hb e he => ?_, fun q hq => ?_⟩
  · obtain ⟨x, hx, -, hlook⟩ := hd.filled p hp
    obtain ⟨x', hx', -, hlook'⟩ := hd'.filled p hp
    rw [hout] at hx
    rw [hout'] at hx'
    exact ⟨x, x', hx, hx', fun n => (hlook n).trans (hlook' n).symm⟩
  · have hclear := h.clear ((hd.fills.beside q hq).symm.trans hx) hleaf
    exact (Clear.unfold hd.fills.still hclear).trans (Clear.unfold hd'.fills.still hclear).symm
  · obtain ⟨x, hx, -, hlook⟩ := hd.filled _ (mem_targets hb he)
    rw [hout] at hx
    exact ⟨x, follow_of_walk hx, hlook⟩
  · refine follow_beside h.poised.nested hnested hd.fills.beside (fun q x hq hx hleaf keys => ?_)
      ⟨fun p hp => (hq p hp).1, fun p hp => (hq p hp).2⟩
    exact Clear.follow (fun _ => Busy.not_plain) hd.fills.still (h.clear hx hleaf)

/-! ## Two steps in either order -/

/-- User code that sleeps and then gives a new dictionary with a number. The last callable is a condition
that asks whether something has been written at the first target. -/
def napping (first second : Binary64) : Setup :=
  ⟨default, ⟨fun a _ => (Routine.sleep (if a = ⟨0⟩ then first else second)).bind fun _ =>
    if a = ⟨2⟩ then .read fun s => (s.getPath (.dict ⟨0⟩) "x.a").toOption.getD .null
    else .modifyGet fun s =>
      let (r, s) := s.newDict [("v", .int (a.index + 1))]; (.dict r, s), default, none, [], [], none⟩⟩

/-- Two steps that write behind one key of an empty output. The second one may have a condition. -/
def pair (condition : Option (Ref .callable)) : Delivery where
  start :=
    let a : Step := ⟨"a", .task ⟨"t", none, some [("v", "x.a")], none, 0, .int 0⟩, .none⟩
    let b : Step := ⟨"b", .task ⟨"u", none, some [("v", "x.b")], condition, 0, .int 0⟩, .none⟩
    let s := { Store.empty with
      workflows := #[⟨"w", "w", [("a", a), ("b", b)], "a", .null, .null, .null, [], [], []⟩]
      tasks := #[⟨"t", ⟨0⟩, .null, .null, .null⟩, ⟨"u", ⟨1⟩, .null, .null, .null⟩]
      taskRegistry := [("t", ⟨0⟩), ("u", ⟨1⟩)] }
    (s.newContext .null [] [] [] [] none 0).2
  workflow := ⟨0⟩
  branches := ["a", "b"]
  context := ⟨0⟩
  holds _ := true
  look p n := Store.empty.unfold n (.int (if p = ["x", "a"] then 1 else 2))

/-- Both steps side by side. -/
def sideBySide : Step := ⟨"both", .parallel ["a", "b"] true, .none⟩

/-- **The order shows** if a condition asks for what another branch writes: the second step writes or does
not, depending on how long the first one sleeps. -/
theorem order_shows :
    (((pair (some ⟨2⟩)).run (napping .zero .one) sideBySide).moment 80).outcome? 0 =
      some (.ok (.list ⟨0⟩)) ∧
    (((pair (some ⟨2⟩)).run (napping (.ofNat 2) .one) sideBySide).moment 80).outcome? 0 =
      some (.ok (.list ⟨0⟩)) ∧
    ((((pair (some ⟨2⟩)).run (napping .zero .one) sideBySide).store 80).getPath (.dict ⟨0⟩)
      "x.b").toOption = some (.int 2) ∧
    ((((pair (some ⟨2⟩)).run (napping (.ofNat 2) .one) sideBySide).store 80).getPath (.dict ⟨0⟩)
      "x.b").toOption = some .null := by
  decide +kernel

theorem meets_nap (x : Binary64) {r : Routine Value} {P : Value → Store → Prop}
    (h : ∀ t, Δ.Goes s t → r.Meets Δ.growing (OnOk P) t) :
    ((Routine.sleep x).bind fun _ => r).Meets Δ.growing (OnOk P) s := by
  refine ⟨⟨x, rfl⟩, fun o t ht ho => ?_⟩
  rw [ho x rfl]
  exact h t ht

/-- A new dictionary suits a step that writes its only entry. -/
theorem suits_newDict {b key path : String} {x : Value} (hs : Δ.Poised s)
    (hb : Δ.outputs b = [(key, path)]) (hx : x.isPlain = true)
    (hlook : ∀ n, (s.newDict [(key, x)]).2.unfold n x = Δ.look (Path.segments path) n) :
    Δ.Suits b (.dict (s.newDict [(key, x)]).1) (s.newDict [(key, x)]).2 := by
  refine ⟨clear_newDict hs fun e he => List.mem_singleton.1 he ▸ hx, fun e he y hy => ?_⟩
  rw [hb, List.mem_singleton] at he
  subst he
  have hget : (s.newDict [(key, x)]).2.mapping? (.dict (s.newDict [(key, x)]).1) = some [(key, x)] :=
    congrArg some getD_push_size
  rw [lookup_key hget] at hy
  simp only [Entries.get?] at hy
  cases hy
  exact hlook

theorem unfold_int (s t : Store) (n : Nat) (i : Int) : s.unfold n (.int i) = t.unfold n (.int i) := by
  cases n with
  | zero => rfl
  | succ n => rw [unfold_leaf rfl, unfold_leaf rfl]

theorem serves_pair (first second : Binary64) : Serves (napping first second).desk.call (pair none) where
  calls a vs s _ := by
    refine meets_nap _ fun t _ => ?_
    split
    · trivial
    · exact ⟨grows_newDict t _, trivial⟩
  handlers b hb t ht r hr vs s hs := by
    obtain ⟨id, m, hstep, -⟩ := ht
    have hcases : b = "a" ∨ b = "b" := by simpa [pair] using hb
    rcases hcases with rfl | rfl <;> cases hstep <;> cases hr <;>
      refine meets_nap _ fun u hu => ⟨grows_newDict u _, suits_newDict (hu hs).poised rfl rfl fun n => ?_⟩
    · exact unfold_int _ _ n 1
    · exact unfold_int _ _ n 2
  conditions b hb t ht a ha := by
    obtain ⟨id, m, hstep, -⟩ := ht
    have hcases : b = "a" ∨ b = "b" := by simpa [pair] using hb
    rcases hcases with rfl | rfl <;> cases hstep <;> cases ha

theorem ready_pair : Ready (pair none) where
  split := split_pair (p := ["x", "a"]) (q := ["x", "b"]) (by decide) (by decide)
  delivers b hb := by
    have hcases : b = "a" ∨ b = "b" := by simpa [pair] using hb
    rcases hcases with rfl | rfl <;> exact ⟨_, _, _, rfl, rfl⟩
  there := Nat.zero_lt_one
  opened := Nat.zero_lt_one
  errors := Nat.one_lt_succ_succ 1
  tree := treelike_empty rfl (Nat.succ_pos 2)
  apart := clear_empty (fun _ h => h.not_plain) rfl (Nat.succ_pos 2) nofun
  ways p _ := by
    rintro ⟨q, x, hne, -, -, hx, -⟩
    exact hne (walk_empty rfl hx).1

/-- Whether the first step ends before the second one or behind it, the output is the same. -/
theorem outputs_commute_pair :
    let t := ((pair none).run (napping .zero .one) sideBySide).store 80
    let t' := ((pair none).run (napping (.ofNat 2) .one) sideBySide).store 80
    ∀ n, Alike t t' n (.dict ⟨0⟩) (.dict ⟨0⟩) := by
  have hend : (((pair none).run (napping .zero .one) sideBySide).moment 80).outcome? 0 =
      some (.ok (.list ⟨0⟩)) := by decide +kernel
  have hend' : (((pair none).run (napping (.ofNat 2) .one) sideBySide).moment 80).outcome? 0 =
      some (.ok (.list ⟨0⟩)) := by decide +kernel
  exact (outputs_commute ready_pair (serves_pair .zero .one) (serves_pair (.ofNat 2) .one) rfl hend
    hend').1.2.2

end Delivery

end Conductor
