import Conductor.Proofs.Workflow.Branches

/-!
# Mapping a result into the output

A task step with an output map writes the parts of its result into the output of its context one after
another, in the order of the map. Each part is read and written as a whole or not at all, and nobody
else has the turn meanwhile. Nothing is taken back: when a part cannot be read or written, the parts
before it stay where they have been written, and those behind it are not written any more.

`Store.writeParts` says what that makes of the store, apart from the routine that does it.

**Theorem (`result_mapped`).** A task step with an output map has not come to its result, or it has
written all parts of it, or exactly those before the first that cannot be written; and then no result
has been recorded meanwhile.

So the output of a failed attempt may hold some of its parts (`parts_stay`).
-/

namespace Conductor

open Outline (plain)
open Visit (Scene)
open Visit.Outlined

namespace Store

/-! ## Parts -/

/-- Writes one part of a result: what stands under a key, at a path. -/
def writePart (s : Store) (target : Ref .dict) (result : Value) (part : String × String) :
    Except Cause Store := do
  let v ← s.lookup result part.1
  s.setPath target part.2 v

/-- Writes parts of a result, one after another. -/
def writeParts (s : Store) (target : Ref .dict) (result : Value) (parts : Entries String) :
    Except Cause Store :=
  parts.foldlM (fun s part => s.writePart target result part) s

variable {s u : Store} {target : Ref .dict} {result : Value} {part : String × String}
  {parts : Entries String}

theorem writeParts_cons (h : s.writePart target result part = .ok u) :
    s.writeParts target result (part :: parts) = u.writeParts target result parts := by
  rw [writeParts, List.foldlM_cons, h]
  rfl

theorem writePart_ok (h : s.writePart target result part = .ok u) :
    ∃ v, s.lookup result part.1 = .ok v ∧ s.setPath target part.2 v = .ok u := by
  cases hv : s.lookup result part.1 with
  | error c =>
    rw [writePart, hv] at h
    cases h
  | ok v =>
    rw [writePart, hv] at h
    exact ⟨v, rfl, h⟩

/-- A part touches no cells but dictionaries. -/
theorem exists_dicts_writePart (h : s.writePart target result part = .ok u) :
    ∃ ds, u = { s with dicts := ds } := by
  obtain ⟨v, -, hu⟩ := writePart_ok h
  obtain ⟨ds, -, rfl⟩ := exists_dicts_writeAlong hu
  exact ⟨ds, rfl⟩

theorem exists_dicts_writeParts : ∀ {parts : Entries String} {s : Store},
    s.writeParts target result parts = .ok u → ∃ ds, u = { s with dicts := ds }
  | [], s, h => by
    cases h
    exact ⟨u.dicts, rfl⟩
  | part :: parts, s, h => by
    cases hp : s.writePart target result part with
    | error c =>
      rw [writeParts, List.foldlM_cons, hp] at h
      cases h
    | ok s' =>
      rw [writeParts_cons hp] at h
      obtain ⟨ds, rfl⟩ := exists_dicts_writePart hp
      obtain ⟨ds', rfl⟩ := exists_dicts_writeParts h
      exact ⟨ds', rfl⟩

/-- How parts of a result are written into a dictionary, with the outcome and what becomes of the store:
all of them are, or those before the first that cannot be written. -/
inductive Mapped (s : Store) (target : Ref .dict) (result : Value) (parts : Entries String) :
    Except Failure Unit → Store → Prop where
  | all {u : Store} (h : s.writeParts target result parts = .ok u) :
    Mapped s target result parts (.ok ()) u
  | stopped {u : Store} {f : Failure} {before after : Entries String} {part : String × String}
    (hparts : parts = before ++ part :: after)
    (hbefore : s.writeParts target result before = .ok u)
    (hpart : u.writePart target result part = .error f.cause) :
    Mapped s target result parts (.error f) { u with nextFailure := u.nextFailure + 1 }

theorem Mapped.cons {s' : Store} {o : Except Failure Unit} (h : Mapped s' target result parts o u)
    (hpart : s.writePart target result part = .ok s') :
    Mapped s target result (part :: parts) o u := by
  cases h with
  | all h => exact .all (by rw [writeParts_cons hpart, h])
  | @stopped _ _ before after first hparts hbefore hfails =>
    have hlonger : part :: parts = (part :: before) ++ first :: after := by rw [hparts]; rfl
    exact .stopped hlonger (by rw [writeParts_cons hpart, hbefore]) hfails

/-- Results are not touched, and contexts keep what they hold on to. -/
theorem Mapped.beside {o : Except Failure Unit} (h : Mapped s target result parts o u) :
    u.results = s.results ∧ u.contexts = s.contexts := by
  cases h with
  | all h =>
    obtain ⟨ds, rfl⟩ := exists_dicts_writeParts h
    exact ⟨rfl, rfl⟩
  | stopped _ hbefore _ =>
    obtain ⟨ds, rfl⟩ := exists_dicts_writeParts hbefore
    exact ⟨rfl, rfl⟩

end Store

namespace Visit

/-! ## Running the map -/

section Eval

variable {σ : Scene} {s u : Store} {v : Value} {part : String × String}

theorem eval_writeOutput (h : s.writePart (s.get σ.context).output v part = .ok u) :
    (σ.writeOutput v part.1 part.2).eval s = some (3, .ok (), u) := by
  obtain ⟨x, hx, hu⟩ := Store.writePart_ok h
  refine (Routine.eval_bind
    (Routine.eval_query_ok (f := fun s => s.lookup v part.1) hx)).trans ?_
  have hwrite := Routine.eval_query_ok
    (f := fun s => s.setPath (s.get σ.context).output part.2 x) hu
  exact congrArg (Option.map _) ((Routine.eval_bind hwrite).trans rfl)

theorem eval_writeOutput_error {c : Cause}
    (h : s.writePart (s.get σ.context).output v part = .error c) :
    ∃ i, (σ.writeOutput v part.1 part.2).eval s =
      some (i, .error ⟨s.nextFailure, c⟩, { s with nextFailure := s.nextFailure + 1 }) := by
  cases hx : s.lookup v part.1 with
  | error d =>
    rw [Store.writePart, hx] at h
    cases h
    exact ⟨3, Routine.eval_bind_error
      (Routine.eval_query_error (f := fun s => s.lookup v part.1) hx)⟩
  | ok x =>
    rw [Store.writePart, hx] at h
    refine ⟨4, (Routine.eval_bind
      (Routine.eval_query_ok (f := fun s => s.lookup v part.1) hx)).trans ?_⟩
    have hwrite := Routine.eval_query_error
      (f := fun s => s.setPath (s.get σ.context).output part.2 x) h
    exact congrArg (Option.map _) ((Routine.eval_bind_error hwrite).trans rfl)

/-- The parts of a result are written without waiting for anything. -/
theorem eval_writeOutputs (v : Value) : ∀ (m : Entries String) (s : Store), ∃ i o u,
    s.Mapped (s.get σ.context).output v m o u ∧
      (Routine.each (fun part : String × String => σ.writeOutput v part.1 part.2) m).eval s =
        some (i, o, u)
  | [], s => ⟨0, .ok (), s, .all rfl, rfl⟩
  | part :: m, s => by
    cases hp : s.writePart (s.get σ.context).output v part with
    | error c =>
      obtain ⟨i, hi⟩ := eval_writeOutput_error hp
      have hfirst : part :: m = [] ++ part :: m := rfl
      exact ⟨i, _, _, .stopped hfirst rfl hp, Routine.eval_bind_error hi⟩
    | ok s' =>
      obtain ⟨i, o, u, hmapped, hi⟩ := eval_writeOutputs v m s'
      have hpart := eval_writeOutput hp
      obtain ⟨ds, rfl⟩ := Store.exists_dicts_writePart hp
      refine ⟨3 + i, o, u, hmapped.cons hp, (Routine.eval_bind hpart).trans ?_⟩
      rw [hi]
      rfl

end Eval

/-! ## Up to the result -/

namespace Outlined

variable (σ : Scene)

/-- Runs the task of a step, up to its result. -/
def resultOf (t : TaskStep) (r : Ref .task) : Outline Value := do
  let input ← inputOf σ t
  Task.outline r input (.context σ.context)

/-- Runs a task step up to its result. There is none if the condition of the step does not hold. -/
def produce (step : String) (t : TaskStep) : Outline (Option Value) := do
  let r ← plain (.query fun s => s.task t.task)
  let goes ← t.condition.elim (pure true) fun condition => holds σ condition step
  if goes then some <$> resultOf σ t r
  else
    plain (.log .debug logger s!"Step {step} skipped by its condition" [("step_id", .text step)])
    pure none

/-- A task step runs up to its result, which is then written into the output. -/
theorem task_eq (step : String) (t : TaskStep) :
    task σ step t = produce σ step t >>= fun result =>
      result.elim (pure .null) fun v => plain (σ.applyOutput t v) >>= fun _ => pure v := by
  have hrun : ∀ r, runTask σ t r = (some <$> resultOf σ t r) >>= fun result =>
      result.elim (pure .null) fun v => plain (σ.applyOutput t v) >>= fun _ => pure v := fun r => by
    simp only [runTask, resultOf, map_eq_pure_bind, bind_assoc, pure_bind, Option.elim_some]
  rw [task, produce]
  cases t.condition with
  | none => simp only [Option.elim_none, pure_bind, if_true, bind_assoc, hrun]
  | some condition =>
    simp only [Option.elim_some, bind_assoc]
    refine congrArg _ (funext fun r => congrArg _ (funext fun goes => ?_))
    cases goes with
    | true => exact hrun r
    | false => simp only [Bool.false_eq_true, if_false, bind_assoc, pure_bind, Option.elim_none]

end Outlined

end Visit

/-! ## Task steps with an output map -/

namespace Workflow

section Mapped

variable {body : Procedure → Routine Value} {R : Run body} {plan : Procedure → Outline Value}
  {N b n j : Nat} {ds : List Deed} {σ : Scene} {step : Step} {t : TaskStep} {m : Entries String}
  {o : Except Failure Value}

/-- **A result is mapped part after part.** A task step with an output map that is done with its own work

* has failed before it came to a result, or
* has not run its task, since its condition did not hold, or
* has come to a result at some moment. Then all parts of it have been written, and the step gives the
  result; or some part could not be read or written, and the step has failed with that. In the latter
  case the parts before that one have been written, and nothing of it and of those behind it. In either
  case no result has been recorded since, and every context has the parts that it had. -/
theorem result_mapped (hk : step.kind = .task t) (hm : t.outputs = some m)
    (h : Account R σ.call plan N b n (.now (dispatch σ step)) ds (some (j, o))) :
    (∃ f, o = .error f ∧
      Account R σ.call plan N b n (.now (produce σ step.id t)) ds (some (j, .error f))) ∨
    (o = .ok .null ∧
      Account R σ.call plan N b n (.now (produce σ step.id t)) ds (some (j, .ok none))) ∨
    ∃ i v u, Account R σ.call plan N b n (.now (produce σ step.id t)) ds (some (i, .ok (some v))) ∧
      i ≤ j ∧ o = u.map (fun _ => v) ∧
      (R.store i).Mapped ((R.store i).get σ.context).output v m u (R.store j) ∧
      (R.store j).results = (R.store i).results ∧ (R.store j).contexts = (R.store i).contexts := by
  rw [dispatch, hk] at h
  dsimp only at h
  rw [task_eq] at h
  rcases h.bind with ⟨ds₁, i, result, ds₂, h₁, h₂, rfl⟩ | ⟨i, f, h₁, he⟩ | ⟨-, he⟩
  · cases result with
    | none =>
      obtain ⟨rfl, he⟩ := h₂.done_iff
      cases he
      rw [List.append_nil]
      exact Or.inr (Or.inl ⟨rfl, h₁⟩)
    | some v =>
      have happly : σ.applyOutput t v =
          Routine.each (fun part : String × String => σ.writeOutput v part.1 part.2) m := by
        rw [Scene.applyOutput, hm]
      dsimp only [Option.elim_some] at h₂
      rw [happly] at h₂
      obtain ⟨k, u, s, hmapped, heval⟩ := Visit.eval_writeOutputs (σ := σ) v m (R.store i)
      refine Or.inr (Or.inr ⟨i, v, u, ?_⟩)
      cases u with
      | ok u =>
        rcases h₂.straight_bind heval with ⟨-, he⟩ | ⟨rfl, h₃⟩
        · cases he
        obtain ⟨rfl, he⟩ := h₃.done_iff
        cases he
        rw [List.append_nil]
        exact ⟨h₁, Nat.le_add_right i k, rfl, hmapped, hmapped.beside⟩
      | error f =>
        obtain ⟨rfl, he | ⟨he, rfl⟩⟩ := h₂.straight_bind_error heval
        · cases he
        cases he
        rw [List.append_nil]
        exact ⟨h₁, Nat.le_add_right i k, rfl, hmapped, hmapped.beside⟩
  · cases he
    exact Or.inl ⟨f, rfl, h₁⟩
  · cases he

end Mapped

/-! ## A part that stands in the way of the next -/

/-- User code that gives a new dictionary with two numbers. -/
def pairSetup : Setup :=
  ⟨default, ⟨fun _ _ => .modifyGet fun s =>
    let (r, s) := s.newDict [("a", .int 1), ("b", .int 2)]; (.dict r, s), default, none, [], [], none⟩⟩

/-- The second part is to be written behind the first one, which is no dictionary. -/
def blockedStep : Step :=
  ⟨"work", .task ⟨"t", none, some [("a", "x"), ("b", "x.y")], none, 0, .int 0⟩, .none⟩

def blockedStore : Store :=
  let s := { Store.empty with
    workflows := #[⟨"w", "w", [("work", blockedStep)], "work", .null, .null, .null, [], [], []⟩]
    tasks := #[⟨"t", ⟨0⟩, .null, .null, .null⟩]
    taskRegistry := [("t", ⟨0⟩)] }
  (s.newContext .null [] [] [] [] none 0).2

def blockedRun : Run pairSetup.body :=
  .launched _ blockedStore ((pairSetup.scene ⟨0⟩ ⟨0⟩).dispatch blockedStep)

theorem result_mapped_blocked : ∃ ds j f, Account blockedRun pairSetup.desk.call pairSetup.plan 30 0 1
      (.now (dispatch (pairSetup.scene ⟨0⟩ ⟨0⟩) blockedStep)) ds (some (j, .error f)) ∧
    ((∃ i ≤ j, ∃ v, (blockedRun.store i).Mapped ((blockedRun.store i).get (⟨0⟩ : Ref .context)).output
        v [("a", "x"), ("b", "x.y")] (.error f) (blockedRun.store j)) ∨
      Account blockedRun pairSetup.desk.call pairSetup.plan 30 0 1
        (.now (produce (pairSetup.scene ⟨0⟩ ⟨0⟩) "work"
          ⟨"t", none, some [("a", "x"), ("b", "x.y")], none, 0, .int 0⟩)) ds
        (some (j, .error f))) := by
  have hfails : ((blockedRun.moment 30).outcome? 0).map Except.isOk = some false := by decide +kernel
  obtain ⟨o, ho, hisOk⟩ := Option.map_eq_some_iff.1 hfails
  obtain ⟨f, rfl⟩ : ∃ f, o = .error f := by
    cases o with
    | ok v => cases hisOk
    | error f => exact ⟨f, rfl⟩
  obtain ⟨ds, j, h, -⟩ := launched_dispatch (σ := pairSetup) (fun _ _ _ => trivial)
    (fun _ _ _ => ⟨trivial, trivial⟩) blockedStore ⟨0⟩ ⟨0⟩ blockedStep (N := 30)
    (by decide) ho
  refine ⟨ds, j, f, h, ?_⟩
  have hkind : blockedStep.kind =
      .task ⟨"t", none, some [("a", "x"), ("b", "x.y")], none, 0, .int 0⟩ := rfl
  rcases result_mapped (σ := pairSetup.scene ⟨0⟩ ⟨0⟩) hkind rfl h with ⟨g, hg, hp⟩ | ⟨hf, -⟩ | ⟨i, v, u, -, hij, hu, hmapped, -⟩
  · cases hg
    exact Or.inr hp
  · cases hf
  · cases u with
    | ok u => cases hu
    | error g =>
      cases hu
      exact Or.inl ⟨i, hij, v, hmapped⟩

/-- What stands in the output of the only context. -/
def blockedOutput (n : Nat) : Entries Value :=
  (blockedRun.store n).get ((blockedRun.store n).get (⟨0⟩ : Ref .context)).output

/-- **A part stays.** The unit of work has given its result by the tenth moment, when the output is still
empty. The step fails because its second part cannot be written, and the first part stands in the output. -/
theorem parts_stay :
    (blockedRun.store 10).get (⟨3⟩ : Ref .dict) = [("a", .int 1), ("b", .int 2)] ∧
    blockedOutput 10 = [] ∧
    (blockedRun.moment 30).outcome? 0 =
      some (.error ⟨blockedStore.nextFailure, .blockedPath "x.y" "x" "int"⟩) ∧
    blockedOutput 30 = [("x", .int 1)] := by
  decide +kernel

end Workflow

end Conductor
