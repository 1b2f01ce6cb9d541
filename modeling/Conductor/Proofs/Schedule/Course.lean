import Conductor.Proofs.Routine.Conduct
import Conductor.Proofs.Schedule.Progress

/-!
# Courses under a discipline

A course is what happens from some moment on: routines begin, as far as the discipline allows them,
and the schedule makes its steps. Every event is kept with the schedules before and after it, the
last one first.

A conduct makes a discipline with a single sort of branches: each of them may do what the conduct
permits.

Main results: `Course.config`, all branches of a course are in their discipline at every moment; and
`Course.guaranteed`, what an event does to the store is what the discipline guarantees.
-/

namespace Conductor

namespace Schedule

namespace Discipline

variable {Γ : Type} {D : Discipline Γ} {m₀ m m' : Schedule} {trace : List (Schedule × Schedule)}

/-- What has happened since a given moment. Between steps of a turn no routine begins; with its
beginning the store may change as in a step. -/
inductive Course (D : Discipline Γ) (m₀ : Schedule) :
    List (Schedule × Schedule) → Schedule → Prop where
  | here : Course D m₀ [] m₀
  | begin {trace : List (Schedule × Schedule)} {m : Schedule} {s : Store} {g : Γ}
    {r : Routine Value} (h : Course D m₀ trace m) (ha : m.active = none)
    (hs : D.guarantee m.store s) (hr : D.may g (.turn r s)) :
    Course D m₀ ((m, ((m.withStore s).launch r).2) :: trace) ((m.withStore s).launch r).2
  | step {trace : List (Schedule × Schedule)} {m m' : Schedule} (h : Course D m₀ trace m)
    (hm : m.step D.body = some m') : Course D m₀ ((m, m') :: trace) m'

/-- A schedule in which every branch is in its discipline. -/
def Disciplined (D : Discipline Γ) (m : Schedule) : Prop :=
  Balanced none m ∧ ∃ γ st, D.Config none γ st m

theorem disciplined_ofStore [Inhabited Γ] (D : Discipline Γ) (s : Store) :
    D.Disciplined (ofStore s) :=
  ⟨balanced_ofStore s, _, _, config_ofStore D default (fun _ => .turn default s) s⟩

theorem Disciplined.begin (hD : D.Lawful) (h : D.Disciplined m) (ha : m.active = none) {s : Store}
    (hs : D.guarantee m.store s) {g : Γ} {r : Routine Value} (hr : D.may g (.turn r s)) :
    D.Disciplined ((m.withStore s).launch r).2 := by
  obtain ⟨hB, γ, st, hc⟩ := h
  have hB' : Balanced none (m.withStore s) := hB.withStore s
  exact ⟨hB'.launch ha r, _, _, (hc.withStore hD ha (hD.relied hs)).launch hB' hr⟩

theorem Disciplined.step (hD : D.Lawful) (h : D.Disciplined m) (hm : m.step D.body = some m') :
    D.Disciplined m' := by
  obtain ⟨hB, γ, st, hc⟩ := h
  obtain ⟨γ', st', hc', -⟩ := hc.step hD hB hm
  exact ⟨hB.step hm, γ', st', hc'⟩

theorem Course.disciplined (hD : D.Lawful) (h₀ : D.Disciplined m₀) (h : D.Course m₀ trace m) :
    D.Disciplined m := by
  induction h with
  | here => exact h₀
  | begin _ ha hs hr ih => exact ih.begin hD ha hs hr
  | step _ hm ih => exact ih.step hD hm

/-- Every event of a course changes the store as the discipline guarantees, or not at all. -/
theorem Course.guaranteed (hD : D.Lawful) (h₀ : D.Disciplined m₀) (h : D.Course m₀ trace m) :
    ∀ t ∈ trace, t.2.store = t.1.store ∨ D.guarantee t.1.store t.2.store := by
  induction h with
  | here => exact fun t ht => absurd ht List.not_mem_nil
  | begin _ _ hs _ ih =>
    intro t ht
    rcases List.mem_cons.1 ht with rfl | ht
    · exact Or.inr hs
    · exact ih t ht
  | step h hm ih =>
    intro t ht
    rcases List.mem_cons.1 ht with rfl | ht
    · obtain ⟨hB, γ, st, hc⟩ := h.disciplined hD h₀
      obtain ⟨-, -, -, -, hs, -⟩ := hc.step hD hB hm
      exact hs
    · exact ih t ht

/-- What holds in the beginning and is kept by every event holds all the time. -/
theorem Course.preserves (hD : D.Lawful) (h₀ : D.Disciplined m₀) (h : D.Course m₀ trace m)
    {P : Store → Prop} (hP : P m₀.store) (hstep : ∀ t ∈ trace,
      t.2.store = t.1.store ∨ D.guarantee t.1.store t.2.store → P t.1.store → P t.2.store) :
    P m.store ∧ ∀ t ∈ trace, P t.1.store ∧ P t.2.store := by
  have hall := h.guaranteed hD h₀
  induction h with
  | here => exact ⟨hP, fun t ht => absurd ht List.not_mem_nil⟩
  | begin h _ _ _ ih | step h _ ih =>
    obtain ⟨hm, ht⟩ := ih (fun t ht => hstep t (List.mem_cons_of_mem _ ht))
      fun t ht => hall t (List.mem_cons_of_mem _ ht)
    have hm' := hstep _ List.mem_cons_self (hall _ List.mem_cons_self) hm
    exact ⟨hm', List.forall_mem_cons.2 ⟨⟨hm, hm'⟩, ht⟩⟩

theorem Course.trail (n : Nat) : ∀ {m trace}, D.Course m₀ trace m →
    D.Course m₀ ((m.trail D.body n).1 ++ trace) (m.trail D.body n).2 := by
  induction n with
  | zero => exact fun h => h
  | succ n ih =>
    intro m trace h
    unfold Schedule.trail
    split
    · next m' hm => simpa using ih (h.step hm)
    · exact h

end Discipline

end Schedule

/-! ## Conducts as disciplines -/

theorem Schedule.sides_procedures {w : Wait} {kind : JoinKind} {ps : List Procedure}
    (h : Schedule.sides w = some (kind, ps)) : w.procedures = ps := by
  cases w <;> cases h <;> rfl

namespace Conduct

open Schedule

/-- The discipline of branches that all obey one conduct. -/
def discipline (C : Conduct) (body : Procedure → Routine Value) : Discipline Unit where
  body := body
  child _ := ()
  may _
    | .turn r s => r.Obeys C s
    | .rest r s => ∀ t, C.rely s t → r.Obeys C t
    | .joined _ _ k s => ∀ o t, C.rely s t → (k o).Obeys C t
  post _ _ _ := True
  rely := C.rely
  guarantee := C.writes

/-- A conduct is a lawful discipline if it permits what the schedule itself does to the store, and if
all parts that may be called obey it. -/
theorem lawful {C : Conduct} {body : Procedure → Routine Value}
    (hclock : ∀ s x, C.writes s { s with clock := x })
    (hlate : ∀ s f, C.writes s (s.write (lateFailure f)))
    (hbody : ∀ {p s t}, C.calls p s → C.rely s t → (body p).Obeys C t) :
    (C.discipline body).Lawful where
  refl := C.refl
  trans := C.trans
  relied := C.relied
  clock := hclock
  late := hlate
  lasting _ _ := trivial
  done _ := trivial
  fail _ := trivial
  get h := h
  put h := h
  call h := (hbody (h.1 _ (by simp [Wait.procedures])) (C.refl _)).continueWith h.2
  sleep h := h.2 _
  resume h ht := h _ ht
  sides h hw := by
    refine ⟨fun p hp t ht => hbody (h.1 p ?_) ht, h.2, fun _ => h.2 _ _ (C.refl _)⟩
    rw [sides_procedures hw]
    exact hp
  detached h := by
    refine ⟨fun _ o t ht => ⟨by simp [Wait.procedures], fun o' u hu => h.2 o' u (C.trans ht hu)⟩, ?_⟩
    exact h.2 _ _ (C.refl _)
  goOn h ht _ := h _ _ ht

end Conduct

end Conductor
