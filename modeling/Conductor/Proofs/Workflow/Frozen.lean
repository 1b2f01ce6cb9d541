import Conductor.Proofs.Account.Launched
import Conductor.Proofs.Store.Writing

/-!
# Workflows stay what they are

The interpreter never writes into a workflow. To run a step again it puts a changed copy into the
store, beside the workflow that others see. So if user code writes into no workflow either, every
workflow stays what it is for as long as a run goes on (`Run.freezes`).
-/

namespace Conductor

namespace Store

/-- The workflows that are there stay there, and stay what they are. -/
structure Freezes (s t : Store) : Prop where
  size : s.workflows.size ≤ t.workflows.size
  same : ∀ w : Ref .workflow, w.index < s.workflows.size → t.get w = s.get w

variable {s t u : Store}

theorem Freezes.refl (s : Store) : Freezes s s := ⟨le_rfl, fun _ _ => rfl⟩

theorem Freezes.trans (h : Freezes s t) (h' : Freezes t u) : Freezes s u :=
  ⟨h.size.trans h'.size, fun w hw => (h'.same w (hw.trans_le h.size)).trans (h.same w hw)⟩

theorem freezes_of_workflows (h : t.workflows = s.workflows) : Freezes s t :=
  ⟨h ▸ le_rfl, fun w _ => congrArg (fun xs : Array Workflow => xs.getD w.index default) h⟩

theorem freezes_alloc (s : Store) (x : Workflow) : Freezes s (s.alloc (t := .workflow) x).2 := by
  refine ⟨(Array.size_push _).ge.trans' (Nat.le_succ _), fun w hw => ?_⟩
  show (s.workflows.push x).getD w.index default = s.workflows.getD w.index default
  simp [Array.getD, hw, Array.getElem_push_lt, Nat.lt_succ_of_lt hw]

theorem get_alloc (s : Store) (x : Workflow) :
    (s.alloc (t := .workflow) x).2.get (s.alloc (t := .workflow) x).1 = x := by
  show (s.workflows.push x).getD s.workflows.size default = x
  simp [Array.getD]

theorem workflows_forkAll (c : Ref .context) (items : List Value) :
    ∀ s : Store, (s.forkAll c items).2.workflows = s.workflows := by
  induction items with
  | nil => exact fun _ => rfl
  | cons item items ih => exact fun s => (ih _).trans rfl

theorem workflows_writeAlong {path : String} {v : Value} {keys walked : List String} {s t : Store}
    {node : Ref .dict} (h : s.writeAlong path node walked v keys = .ok t) :
    t.workflows = s.workflows := by
  obtain ⟨ds, -, rfl⟩ := exists_dicts_writeAlong h
  rfl

end Store

namespace Conduct

/-- No workflow is written into, and only visits are called. -/
def frozen : Conduct where
  writes := Store.Freezes
  rely := Store.Freezes
  calls p _ := ∃ id w c, p = .visit id w c
  refl := .refl
  trans := .trans
  relied := id

theorem permits_frozen : frozen.Permits where
  same := .refl
  raise _ := Store.freezes_of_workflows rfl
  log _ _ _ _ _ := Store.freezes_of_workflows rfl
  enter _ _ _ := Store.freezes_of_workflows rfl
  record _ _ _ _ := Store.freezes_of_workflows rfl
  noteError _ _ _ _ := Store.freezes_of_workflows rfl
  merge _ _ _ := Store.freezes_of_workflows rfl
  path h := Store.freezes_of_workflows (Store.workflows_writeAlong h)
  list _ _ := Store.freezes_of_workflows rfl
  dict _ _ := Store.freezes_of_workflows rfl
  fork _ c items := Store.freezes_of_workflows (Store.workflows_forkAll c items _)
  opened s t input metadata moment h := by
    rcases h with rfl | rfl
    · exact Store.freezes_of_workflows rfl
    · exact Store.freezes_of_workflows rfl
  result _ _ _ := Store.freezes_of_workflows rfl
  closed _ _ _ := Store.freezes_of_workflows rfl
  failed _ _ _ _ _ := Store.freezes_of_workflows rfl

variable {σ : Setup}

theorem calls_frozen (id : String) (w : Ref .workflow) (c : Ref .context) (s : Store) :
    frozen.calls (.visit id w c) s := ⟨id, w, c, rfl⟩

theorem lawful_frozen (h : σ.desk.call.Obey frozen) : (frozen.discipline σ.body).Lawful := by
  refine lawful (fun _ _ => Store.freezes_of_workflows rfl)
    (fun _ _ => Store.freezes_of_workflows rfl) fun {p s t} hp _ => ?_
  obtain ⟨id, w, c, rfl⟩ := hp
  exact Visit.Scene.visit_obeys permits_frozen h calls_frozen fun _ _ _ _ _ u _ =>
    Store.freezes_alloc u _

end Conduct

/-- **Workflows stay what they are in a run** if user code writes into none of them. -/
theorem Run.freezes {σ : Setup} {R : Run σ.body} (hσ : σ.desk.call.Obey .frozen)
    (hR : R.Minds .frozen) {i j : Nat} (hij : i ≤ j) : (R.store i).Freezes (R.store j) :=
  Run.relies (Conduct.lawful_frozen hσ) .refl hR hij

end Conductor
