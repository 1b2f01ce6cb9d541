import Conductor.Proofs.Workflow.Acyclic
import Conductor.Proofs.Workflow.Proceeding

/-!
# A sequential evaluator

What a workflow computes can be said without any branches: one step after another, branches and items in
the order in which they are declared. The evaluator of this file does so for workflows that do not read
what their steps have written: steps without output maps, whose inputs, conditions and items are taken from
the input of their context alone.

A step then has one result for one input, whenever and however often it is visited (`evaluate_unique`).
The evaluator gives the result of a visit, and what the visit records on its way, in order. It has some
fuel for the depth of visits, which in an acyclic workflow it never lacks (`exists_suffices`).
-/

namespace Conductor

/-- A workflow in a store with a context for it, and what its user code computes: handlers from what their
input looks like, and conditions and sources from the input of a context. Conditions and sources may
fail. -/
structure Reference where
  start : Store
  workflow : Ref .workflow
  context : Ref .context
  handler : Ref .callable → Look → Look
  holds : Ref .callable → Value → Option Bool
  source : Ref .callable → Value → Option Look

namespace Reference

variable {E : Reference}

/-- The result of a visit, and what it has recorded. -/
abbrev Report : Type := Look × List (String × Look)

/-- A source of a task's input: user code, or a key of the input. -/
def sourceOf (E : Reference) (input : Value) : Source → Option Look
  | .call a => E.source a input
  | .text key =>
    if Path.isStepReference key then none else (E.start.lookup input key).toOption.map (Look.of E.start)

/-- The input of a task. -/
def inputOf (E : Reference) (input : Value) (t : TaskStep) : Option Look :=
  match t.inputs with
  | none => some (Look.of E.start input)
  | some m => (m.mapM fun e => (E.sourceOf input e.2).map fun d => (e.1, d)).map Look.dict

/-- Whether a task step runs its task. -/
def runs (E : Reference) (input : Value) (t : TaskStep) : Option Bool :=
  match t.condition with
  | none => some true
  | some a => E.holds a input

/-- The result of a task step. A step that does not run its task gives nothing. -/
def task (E : Reference) (input : Value) (t : TaskStep) : Option Look := do
  let a ← (E.start.task t.task).toOption
  let runs ← E.runs input t
  if t.outputs.isSome then none
  else if runs then (E.inputOf input t).map (E.handler (E.start.get a).handler)
  else some .null

/-- The items of a map step. -/
def items (E : Reference) (input : Value) : Items → Option (List Value)
  | .literal v => E.start.row? v
  | .source key =>
    if Path.isStepReference key then none
    else (E.start.lookup input key).toOption.bind E.start.row?

section Steps

variable (visit : Value → String → Option Report) (input : Value)

/-- Visits one after another. -/
def gather (steps : List String) : Option Report :=
  (steps.mapM (visit input)).map fun rs => (Look.list (rs.map Prod.fst), rs.flatMap Prod.snd)

/-- What a step does itself. Items run in contexts of their own, so nothing of what they record is
recorded in this one. Whatever fails once fails always, so there is no need to try it again. -/
def dispatch (E : Reference) : StepKind → Option Report
  | .task t => (E.task input t).map fun d => (d, [])
  | .parallel branches true => gather visit input branches
  | .condition predicate trueNext falseNext => do
    let chosen ← E.holds predicate input
    visit input (if chosen then trueNext else falseNext)
  | .map items iterator _ => do
    let xs ← E.items input items
    let rs ← xs.mapM fun x => visit x iterator
    some (Look.list (rs.map Prod.fst), [])
  | .retry r => visit input r.target
  | _ => none

/-- What comes behind a step. -/
def follow (d : Look) : Successor → Option Report
  | .none => some (d, [])
  | .one next => visit input next
  | .fan steps => gather visit input steps

end Steps

/-- A visit of a step in a context with a given input. The fuel bounds how deep visits are nested. -/
def evaluate (E : Reference) : Nat → Value → String → Option Report
  | 0, _, _ => none
  | n + 1, input, id => do
    let step ← ((E.start.get E.workflow).step id).toOption
    let (d, records) ← dispatch (E.evaluate n) input E step.kind
    let (d', records') ← follow (E.evaluate n) input d step.next
    some (d', records ++ (id, d) :: records')

/-- The result that is recorded for a step. -/
def own (E : Reference) (n : Nat) (input : Value) (id : String) : Option Look := do
  let step ← ((E.start.get E.workflow).step id).toOption
  (dispatch (E.evaluate n) input E step.kind).map Prod.fst

/-! ## One result for one input -/

theorem mapM_eq_some {α β : Type} {f : α → Option β} : ∀ {xs : List α} {ys : List β},
    xs.mapM f = some ys ↔ List.Forall₂ (fun a b => f a = some b) xs ys
  | [], ys => by simp [eq_comm]
  | x :: xs, ys => by
    rw [List.mapM_cons, List.forall₂_cons_left_iff]
    constructor
    · intro h
      obtain ⟨y, hy, h⟩ := Option.bind_eq_some_iff.1 h
      obtain ⟨ys', hys, h⟩ := Option.bind_eq_some_iff.1 h
      exact ⟨y, ys', hy, mapM_eq_some.1 hys, (Option.some.inj h).symm⟩
    · rintro ⟨y, ys', hy, hys, rfl⟩
      rw [hy, mapM_eq_some.2 hys]
      rfl

theorem toOption_eq_some {ε α : Type} {e : Except ε α} {a : α} :
    e.toOption = some a ↔ e = .ok a := by
  cases e <;> simp [Except.toOption]

/-- Partners of the same items are partners. -/
theorem forall₂_join {α β γ : Type} {R : α → β → Prop} {S : α → γ → Prop} {xs : List α} {ys : List β}
    {zs : List γ} (h : List.Forall₂ R xs ys) (h' : List.Forall₂ S xs zs) :
    List.Forall₂ (fun y z => ∃ x ∈ xs, R x y ∧ S x z) ys zs := by
  induction h generalizing zs with
  | nil =>
    cases h'
    exact .nil
  | cons hxy _ ih =>
    cases h' with
    | cons hxz htail =>
      refine .cons ⟨_, List.mem_cons_self, hxy, hxz⟩ ((ih htail).imp fun y z ⟨x, hx, hR, hS⟩ => ?_)
      exact ⟨x, List.mem_cons_of_mem _ hx, hR, hS⟩

theorem exists_of_forall₂ {α β : Type} {R : α → β → Prop} {xs : List α} {ys : List β}
    (h : List.Forall₂ R xs ys) {y : β} (hy : y ∈ ys) : ∃ x ∈ xs, R x y := by
  induction h with
  | nil => cases hy
  | cons hxy _ ih =>
    rcases List.mem_cons.1 hy with rfl | hy
    · exact ⟨_, List.mem_cons_self, hxy⟩
    · obtain ⟨x, hx, hxy⟩ := ih hy
      exact ⟨x, List.mem_cons_of_mem _ hx, hxy⟩

/-- What a task step is evaluated from. -/
theorem task_cases {input : Value} {t : TaskStep} {d : Look} (h : E.task input t = some d) :
    ∃ a runs, E.start.task t.task = .ok a ∧ E.runs input t = some runs ∧ t.outputs = none ∧
      (if runs then (E.inputOf input t).map (E.handler (E.start.get a).handler) else some .null) =
        some d := by
  obtain ⟨a, ha, h⟩ := Option.bind_eq_some_iff.1 h
  obtain ⟨runs, hruns, h⟩ := Option.bind_eq_some_iff.1 h
  split at h
  · cases h
  · next hout => exact ⟨a, runs, toOption_eq_some.1 ha, hruns, by simpa using hout, h⟩

section Visits

variable {visit visit' : Value → String → Option Report} {input : Value} {r : Report}

theorem gather_eq_some {steps : List String} : gather visit input steps = some r ↔
    ∃ rs, List.Forall₂ (fun x r => visit input x = some r) steps rs ∧
      r = (Look.list (rs.map Prod.fst), rs.flatMap Prod.snd) := by
  rw [gather, Option.map_eq_some_iff]
  exact exists_congr fun rs => and_congr mapM_eq_some eq_comm

/-- What a map step is evaluated from. -/
theorem map_eq_some {items : Items} {iterator : String} {concurrency : Option Int} :
    dispatch visit input E (.map items iterator concurrency) = some r ↔
      ∃ xs rs, E.items input items = some xs ∧
        List.Forall₂ (fun x r => visit x iterator = some r) xs rs ∧
        r = (Look.list (rs.map Prod.fst), []) := by
  constructor
  · intro h
    obtain ⟨xs, hxs, h⟩ := Option.bind_eq_some_iff.1 h
    obtain ⟨rs, hrs, h⟩ := Option.bind_eq_some_iff.1 h
    exact ⟨xs, rs, hxs, mapM_eq_some.1 hrs, (Option.some.inj h).symm⟩
  · rintro ⟨xs, rs, hxs, hrs, rfl⟩
    have hmap := mapM_eq_some (f := fun x => visit x iterator) |>.2 hrs
    exact Option.bind_eq_some_iff.2 ⟨xs, hxs, Option.bind_eq_some_iff.2 ⟨rs, hmap, rfl⟩⟩

theorem choose_eq_some {predicate : Ref .callable} {trueNext falseNext : String} :
    dispatch visit input E (.condition predicate trueNext falseNext) = some r ↔
      ∃ chosen, E.holds predicate input = some chosen ∧
        visit input (if chosen then trueNext else falseNext) = some r := Option.bind_eq_some_iff

/-- What is recorded while a step is dispatched has been recorded by a visit. -/
theorem dispatch_records {kind : StepKind} (h : dispatch visit input E kind = some r)
    {e : String × Look} (he : e ∈ r.2) : ∃ id r', visit input id = some r' ∧ e ∈ r'.2 := by
  cases kind with
  | task t =>
    obtain ⟨d, -, rfl⟩ := Option.map_eq_some_iff.1 h
    exact absurd he List.not_mem_nil
  | parallel branches waitForAll =>
    cases waitForAll with
    | false => cases h
    | true =>
      obtain ⟨rs, hrs, rfl⟩ := gather_eq_some.1 h
      obtain ⟨r', hr', he⟩ := List.mem_flatMap.1 he
      obtain ⟨id, -, hid⟩ := exists_of_forall₂ hrs hr'
      exact ⟨id, r', hid, he⟩
  | condition predicate trueNext falseNext =>
    obtain ⟨chosen, -, h⟩ := choose_eq_some.1 h
    exact ⟨_, r, h, he⟩
  | map items iterator concurrency =>
    obtain ⟨xs, rs, -, -, rfl⟩ := map_eq_some.1 h
    exact absurd he List.not_mem_nil
  | retry t => exact ⟨_, r, h, he⟩
  | unknown name => cases h

theorem follow_records {d : Look} {next : Successor} (h : follow visit input d next = some r)
    {e : String × Look} (he : e ∈ r.2) : ∃ id r', visit input id = some r' ∧ e ∈ r'.2 := by
  cases next with
  | none =>
    cases h
    cases he
  | one next => exact ⟨next, r, h, he⟩
  | fan steps =>
    obtain ⟨rs, hrs, rfl⟩ := gather_eq_some.1 h
    obtain ⟨r', hr', he⟩ := List.mem_flatMap.1 he
    obtain ⟨id, -, hid⟩ := exists_of_forall₂ hrs hr'
    exact ⟨id, r', hid, he⟩

variable (hv : ∀ input id r, visit input id = some r → visit' input id = some r)
include hv

theorem gather_mono {steps : List String} (h : gather visit input steps = some r) :
    gather visit' input steps = some r := by
  obtain ⟨rs, hrs, rfl⟩ := gather_eq_some.1 h
  exact gather_eq_some.2 ⟨rs, hrs.imp fun _ _ => hv _ _ _, rfl⟩

theorem dispatch_mono {kind : StepKind} (h : dispatch visit input E kind = some r) :
    dispatch visit' input E kind = some r := by
  cases kind with
  | task t => exact h
  | parallel branches waitForAll =>
    cases waitForAll with
    | false => cases h
    | true => exact gather_mono hv h
  | condition predicate trueNext falseNext =>
    obtain ⟨chosen, hc, h⟩ := choose_eq_some.1 h
    exact choose_eq_some.2 ⟨chosen, hc, hv _ _ _ h⟩
  | map items iterator concurrency =>
    obtain ⟨xs, rs, hxs, hrs, rfl⟩ := map_eq_some.1 h
    exact map_eq_some.2 ⟨xs, rs, hxs, hrs.imp fun _ _ => hv _ _ _, rfl⟩
  | retry t => exact hv _ _ _ h
  | unknown name => cases h

theorem follow_mono {d : Look} {next : Successor} (h : follow visit input d next = some r) :
    follow visit' input d next = some r := by
  cases next with
  | none => exact h
  | one next => exact hv _ _ _ h
  | fan steps => exact gather_mono hv h

end Visits

variable {n m : Nat} {input : Value} {id : String} {d : Look} {r r' : Report}

/-- What a visit is evaluated from. -/
theorem evaluate_succ : E.evaluate (n + 1) input id = some r ↔ ∃ step d records r',
    (E.start.get E.workflow).step id = .ok step ∧
      dispatch (E.evaluate n) input E step.kind = some (d, records) ∧
      follow (E.evaluate n) input d step.next = some r' ∧
      r = (r'.1, records ++ (id, d) :: r'.2) := by
  rw [evaluate]
  refine Option.bind_eq_some_iff.trans ?_
  constructor
  · rintro ⟨step, hstep, h⟩
    obtain ⟨⟨d, records⟩, hd, h⟩ := Option.bind_eq_some_iff.1 h
    obtain ⟨r', hr', h⟩ := Option.bind_eq_some_iff.1 h
    exact ⟨step, d, records, r', toOption_eq_some.1 hstep, hd, hr', (Option.some.inj h).symm⟩
  · rintro ⟨step, d, records, r', hstep, hd, hr', rfl⟩
    refine ⟨step, toOption_eq_some.2 hstep, Option.bind_eq_some_iff.2 ⟨(d, records), hd, ?_⟩⟩
    exact Option.bind_eq_some_iff.2 ⟨r', hr', rfl⟩

/-- More fuel does no harm. -/
theorem evaluate_mono : ∀ n {input : Value} {id : String} {r : Report},
    E.evaluate n input id = some r → E.evaluate (n + 1) input id = some r
  | 0, _, _, _, h => by cases h
  | n + 1, input, id, r, h => by
    obtain ⟨step, d, records, r', hstep, hd, hr', rfl⟩ := evaluate_succ.1 h
    have hv : ∀ input id r, E.evaluate n input id = some r → E.evaluate (n + 1) input id = some r :=
      fun _ _ _ => evaluate_mono n
    exact evaluate_succ.2 ⟨step, d, records, r', hstep, dispatch_mono hv hd, follow_mono hv hr', rfl⟩

theorem evaluate_le (h : n ≤ m) (hr : E.evaluate n input id = some r) :
    E.evaluate m input id = some r := by
  induction m, h using Nat.le_induction with
  | base => exact hr
  | succ m _ ih => exact evaluate_mono m ih

/-- **A visit has one result**, whatever the fuel. -/
theorem evaluate_unique (h : E.evaluate n input id = some r) (h' : E.evaluate m input id = some r') :
    r = r' :=
  Option.some.inj ((evaluate_le (Nat.le_max_left n m) h).symm.trans
    (evaluate_le (Nat.le_max_right n m) h'))

/-- A step has one result of its own. -/
theorem own_unique {d' : Look} (h : E.own n input id = some d) (h' : E.own m input id = some d') :
    d = d' := by
  have hle : ∀ {k l : Nat} {d : Look}, k ≤ l → E.own k input id = some d →
      E.own l input id = some d := by
    intro k l d hkl hd
    obtain ⟨step, hstep, hd⟩ := Option.bind_eq_some_iff.1 hd
    obtain ⟨r, hr, rfl⟩ := Option.map_eq_some_iff.1 hd
    refine Option.bind_eq_some_iff.2 ⟨step, hstep, Option.map_eq_some_iff.2 ⟨r, ?_, rfl⟩⟩
    exact dispatch_mono (fun _ _ _ => evaluate_le hkl) hr
  exact Option.some.inj ((hle (Nat.le_max_left n m) h).symm.trans (hle (Nat.le_max_right n m) h'))

/-- Whatever is recorded is the result of its step. -/
theorem own_of_records : ∀ n {id : String} {r : Report}, E.evaluate n input id = some r →
    ∀ e ∈ r.2, ∃ m, E.own m input e.1 = some e.2
  | 0, _, _, h => by cases h
  | n + 1, id, r, h => by
    obtain ⟨step, d, records, r', hstep, hd, hr', rfl⟩ := evaluate_succ.1 h
    intro e he
    rcases List.mem_append.1 he with he | he
    · obtain ⟨x, r'', hx, he⟩ := dispatch_records hd he
      exact own_of_records n hx e he
    · rcases List.mem_cons.1 he with rfl | he
      · refine ⟨n, Option.bind_eq_some_iff.2 ⟨step, toOption_eq_some.2 hstep, ?_⟩⟩
        rw [hd]
        rfl
      · obtain ⟨x, r'', hx, he⟩ := follow_records hr' he
        exact own_of_records n hx e he

/-- **A visit records one result for a step**, however often it records it. -/
theorem records_unique (h : E.evaluate n input id = some r) {x : String} {d' : Look}
    (hd : (x, d) ∈ r.2) (hd' : (x, d') ∈ r.2) : d = d' := by
  obtain ⟨k, hk⟩ := own_of_records n h _ hd
  obtain ⟨l, hl⟩ := own_of_records n h _ hd'
  exact own_unique hk hl

/-! ## Enough fuel -/

theorem gather_congr {visit visit' : Value → String → Option Report} : ∀ {steps : List String},
    (∀ x ∈ steps, visit input x = visit' input x) →
      steps.mapM (visit input) = steps.mapM (visit' input)
  | [], _ => rfl
  | x :: steps, h => by
    rw [List.mapM_cons, List.mapM_cons, h x List.mem_cons_self,
      gather_congr fun y hy => h y (List.mem_cons_of_mem x hy)]

/-- A step is evaluated from the steps that it refers to. -/
theorem step_congr {visit visit' : Value → String → Option Report} {step : Step}
    (h : ∀ input, ∀ y ∈ step.references, visit input y = visit' input y) :
    dispatch visit input E step.kind = dispatch visit' input E step.kind ∧
      follow visit input d step.next = follow visit' input d step.next := by
  obtain ⟨name, kind, next⟩ := step
  constructor
  · cases kind with
    | task t => rfl
    | parallel branches waitForAll =>
      cases waitForAll with
      | false => rfl
      | true =>
        refine congrArg (Option.map _) (gather_congr fun y hy => h input y ?_)
        exact List.mem_append_left _ hy
    | condition predicate trueNext falseNext =>
      refine congrArg (Option.bind _) (funext fun chosen => h input _ (List.mem_append_left _ ?_))
      cases chosen <;> simp
    | map items iterator concurrency =>
      have hvisit : (fun x => visit x iterator) = fun x => visit' x iterator :=
        funext fun x => h x iterator (List.mem_append_left _ List.mem_cons_self)
      simp only [dispatch, hvisit]
    | retry t => exact h input _ (List.mem_append_left _ List.mem_cons_self)
    | unknown name => rfl
  · cases next with
    | none => rfl
    | one next => exact h input _ (List.mem_append_right _ List.mem_cons_self)
    | fan steps =>
      refine congrArg (Option.map _) (gather_congr fun y hy => h input y ?_)
      exact List.mem_append_right _ hy

/-- Some fuel is enough for a step: with more of it, the evaluator gives the same. -/
def Suffices (E : Reference) (m : Nat) (id : String) : Prop :=
  ∀ n ≥ m, ∀ input, E.evaluate n input id = E.evaluate m input id

theorem Suffices.mono (h : E.Suffices m id) (hmn : m ≤ n) : E.Suffices n id := fun k hk input =>
  (h k (hmn.trans hk) input).trans (h n hmn input).symm

/-- Some fuel is enough for all of finitely many steps. -/
theorem exists_suffices_all : ∀ ids : List String, (∀ y ∈ ids, ∃ m, E.Suffices m y) →
    ∃ m, ∀ y ∈ ids, E.Suffices m y
  | [], _ => ⟨0, fun _ hy => absurd hy List.not_mem_nil⟩
  | x :: ids, h => by
    obtain ⟨m, hm⟩ := exists_suffices_all ids fun y hy => h y (List.mem_cons_of_mem x hy)
    obtain ⟨k, hk⟩ := h x List.mem_cons_self
    refine ⟨max m k, fun y hy => ?_⟩
    rcases List.mem_cons.1 hy with rfl | hy
    · exact hk.mono (le_max_right m k)
    · exact (hm y hy).mono (le_max_left m k)

/-- **In an acyclic workflow the evaluator never fails for want of fuel.** -/
theorem exists_suffices (h : (E.start.get E.workflow).Acyclic) (x : String) : ∃ m, E.Suffices m x := by
  induction h.acc x with
  | intro x _ ih =>
    have hall : ∃ m, ∀ step, (E.start.get E.workflow).step x = .ok step → ∀ y ∈ step.references,
        E.Suffices m y := by
      cases hstep : (E.start.get E.workflow).step x with
      | error f => exact ⟨0, nofun⟩
      | ok step =>
        obtain ⟨m, hm⟩ := exists_suffices_all step.references fun y hy => ih y ⟨step, hstep, hy⟩
        exact ⟨m, fun step' hs => Except.ok.inj hs ▸ hm⟩
    obtain ⟨m, hm⟩ := hall
    refine ⟨m + 1, fun n hn input => ?_⟩
    obtain ⟨n, rfl⟩ : ∃ k, n = k + 1 := ⟨n - 1, by omega⟩
    have hsame : ∀ step, (E.start.get E.workflow).step x = .ok step → ∀ input,
        ∀ y ∈ step.references, E.evaluate n input y = E.evaluate m input y :=
      fun step hstep input y hy => hm step hstep y hy n (Nat.le_of_succ_le_succ hn) input
    refine Option.ext fun r => evaluate_succ.trans (Iff.trans ?_ evaluate_succ.symm)
    refine exists_congr fun step => exists_congr fun d => exists_congr fun records =>
      exists_congr fun r' => and_congr_right fun hstep => ?_
    obtain ⟨hdispatch, hfollow⟩ := step_congr (E := E) (d := d) (hsame step hstep)
    rw [hdispatch, hfollow]

end Reference

end Conductor
