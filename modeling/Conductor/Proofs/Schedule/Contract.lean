import Conductor.Proofs.Routine.Conduct
import Conductor.Proofs.Schedule.Course

/-!
# Contracts

A contract is made between the parts of a run. It says what each part writes, when it may be called
or started and what it has established when it ends, and how the store may change meanwhile. What a
branch waits for is then answered by what the branches that it waits for have established.

A contract makes a discipline in which the sort of a branch is its role: what the branch writes, and
what it establishes at its end. Parts that are started have the role that the contract gives them;
routines that begin by themselves may have any role.

**Theorem (`Contract.lawful`).** A contract that every part keeps is a lawful discipline.
-/

namespace Conductor

/-- What the parts of a run may count on with each other. -/
structure Contract where
  /-- What a part writes. -/
  writes : Procedure → Store → Store → Prop
  rely : Store → Store → Prop
  /-- When a part may be called or started. -/
  pre : Procedure → Store → Prop
  /-- What a part has established when it ends. -/
  post : Procedure → Except Failure Value → Store → Prop
  refl : ∀ s, rely s s
  trans : ∀ {s t u}, rely s t → rely t u → rely s u
  relied : ∀ {p s t}, writes p s t → rely s t
  lasting : ∀ {p o s t}, post p o s → rely s t → post p o t

namespace Contract

open Schedule

variable {K : Contract} {body : Procedure → Routine Value} {s t : Store}

/-- What a branch writes, and what it has established when it ends. -/
structure Role (K : Contract) where
  writes : Store → Store → Prop
  ends : Except Failure Value → Store → Prop
  relied : ∀ {s t}, writes s t → K.rely s t
  lasting : ∀ {o s t}, ends o s → K.rely s t → ends o t

/-- The answers to a wait. -/
def Answers (K : Contract) : Wait → Outcome → Store → Prop
  | .call p, o, s => ∃ x, K.post p x s ∧ o = Routine.only x
  | .sleep _, o, _ | .detached, o, _ => o = .ok []
  | .all ps, .ok vs, s => List.Forall₂ (fun p v => K.post p (.ok v) s) ps vs
  | .all ps, .error f, s => ∃ p ∈ ps, K.post p (.error f) s
  | .first ps, o, s => (ps = [] ∧ o = .ok []) ∨ ∃ p ∈ ps, ∃ x, K.post p x s ∧ o = Routine.only x

/-- The terms on which a branch runs that writes and asks in its own way. -/
def termsOf (K : Contract) (writes : Store → Store → Prop)
    (relied : ∀ {s t}, writes s t → K.rely s t) (asks : Wait → Store → Prop) : Terms where
  writes := writes
  rely := K.rely
  asks := asks
  answers := K.Answers
  refl := K.refl
  trans := K.trans
  relied := relied

/-- A branch runs the parts that it calls, so they must not write more than the branch. -/
def Asks (K : Contract) (writes : Store → Store → Prop) (w : Wait) (s : Store) : Prop :=
  (∀ p ∈ w.procedures, K.pre p s) ∧ ∀ p, w = .call p → ∀ s t, K.writes p s t → writes s t

/-- The terms of those who wait for what they may wait for by the contract. -/
def termsBy (K : Contract) (writes : Store → Store → Prop)
    (relied : ∀ {s t}, writes s t → K.rely s t) : Terms := K.termsOf writes relied (K.Asks writes)

/-- The terms on which a branch runs. -/
def termsFor (K : Contract) (ρ : K.Role) : Terms := K.termsBy ρ.writes ρ.relied

/-- The role of a part. -/
def role (K : Contract) (p : Procedure) : K.Role := ⟨K.writes p, K.post p, K.relied, K.lasting⟩

/-- The terms on which a part runs. -/
def terms (K : Contract) (p : Procedure) : Terms := K.termsFor (K.role p)

/-- The outcome of a join, given the roles of its branches. -/
def Explains (K : Contract) : JoinKind → List K.Role → Outcome → Store → Prop
  | .all, ρs, .ok vs, s => List.Forall₂ (fun ρ v => ρ.ends (.ok v) s) ρs vs
  | .all, ρs, .error f, s => ∃ ρ ∈ ρs, ρ.ends (.error f) s
  | .first, ρs, o, s => ∃ ρ ∈ ρs, ∃ x, ρ.ends x s ∧ o = x.map fun v => [v]
  | .ended, _, o, _ => o = .ok []

/-- The discipline of branches that keep a contract. -/
def discipline (K : Contract) (body : Procedure → Routine Value) : Discipline K.Role where
  body := body
  child := K.role
  may ρ
    | .turn r s => r.Meets (K.termsFor ρ) ρ.ends s
    | .rest r s => ∀ t, K.rely s t → r.Meets (K.termsFor ρ) ρ.ends t
    | .joined kind ρs k s => ∀ o t, K.rely s t → K.Explains kind ρs o t →
      (k o).Meets (K.termsFor ρ) ρ.ends t
  post ρ := ρ.ends
  rely := K.rely
  guarantee := K.rely

/-- What explains the outcome of a join is an answer to the wait for it. -/
theorem answers_of_explains {w : Wait} {kind : JoinKind} {ps : List Procedure}
    (hw : sides w = some (kind, ps)) {o : Outcome} (ho : K.Explains kind (ps.map K.role) o s) :
    K.Answers w o s := by
  cases w with
  | all qs =>
    cases hw
    cases o with
    | ok vs => exact (List.forall₂_map_left_iff).1 ho
    | error f =>
      obtain ⟨ρ, hρ, h⟩ := ho
      obtain ⟨p, hp, rfl⟩ := List.mem_map.1 hρ
      exact ⟨p, hp, h⟩
  | first qs =>
    cases hw
    obtain ⟨ρ, hρ, x, hx, heq⟩ := ho
    obtain ⟨p, hp, rfl⟩ := List.mem_map.1 hρ
    exact Or.inr ⟨p, hp, x, hx, heq⟩
  | _ => cases hw

theorem answers_nil {w : Wait} {kind : JoinKind} (hw : sides w = some (kind, [])) :
    K.Answers w (.ok []) s := by
  cases w with
  | all qs =>
    cases hw
    exact .nil
  | first qs =>
    cases hw
    exact Or.inl ⟨rfl, rfl⟩
  | _ => cases hw

/-- What all parts give, waits give. -/
theorem answers_ok {P : Value → Prop} (hP : ∀ {p v}, K.post p (.ok v) s → P v) {w : Wait}
    {vs : List Value} (h : K.Answers w (.ok vs) s) : ∀ v ∈ vs, P v := by
  have honly : ∀ {p x}, K.post p x s → .ok vs = Routine.only x → ∀ v ∈ vs, P v := by
    rintro p (f | v) hx heq <;> cases heq
    exact fun w hw => List.mem_singleton.1 hw ▸ hP hx
  cases w with
  | call p =>
    obtain ⟨x, hx, heq⟩ := h
    exact honly hx heq
  | sleep | detached =>
    cases h
    exact fun v hv => absurd hv List.not_mem_nil
  | all ps =>
    intro v hv
    obtain ⟨i, hi, rfl⟩ := List.mem_iff_getElem.1 hv
    exact hP (List.Forall₂.get h (by rw [h.length_eq]; exact hi) hi)
  | first ps =>
    rcases h with ⟨-, heq⟩ | ⟨p, -, x, hx, heq⟩
    · cases heq
      exact fun v hv => absurd hv List.not_mem_nil
    · exact honly hx heq

/-- Every part keeps the contract, and so does the schedule itself. -/
structure Kept (K : Contract) (body : Procedure → Routine Value) : Prop where
  clock : ∀ s x, K.rely s { s with clock := x }
  late : ∀ s f, K.rely s (s.write (lateFailure f))
  body : ∀ {p s t}, K.pre p s → K.rely s t → (body p).Meets (K.terms p) (K.post p) t

theorem discipline_explains : (K.discipline body).Explains = K.Explains := by
  funext kind ρs o s
  cases kind <;> cases o <;> rfl

/-- **A contract that every part keeps is a lawful discipline.** -/
theorem lawful (h : K.Kept body) : (K.discipline body).Lawful where
  refl := K.refl
  trans := K.trans
  relied := id
  clock := h.clock
  late := h.late
  lasting {ρ} _ _ _ := ρ.lasting
  done h := h
  fail h := h
  get h := h
  put {ρ} _ _ _ hp := ⟨ρ.relied hp.1, hp.2⟩
  call {ρ p k s} hp := by
    -- The part writes what the branch may write, and ends in a store that has only changed as
    -- everybody relies on.
    obtain ⟨⟨hpre, hwrites⟩, hk⟩ := hp
    refine Routine.meets_continueWith.2 ?_
    have hbody : (body p).Meets (K.termsFor ρ) (K.post p) s :=
      Routine.Meets.weaken (T := K.terms p) (hwrites p rfl _ _) id
        (fun ha => ⟨ha.1, fun q hq _ _ hw => hwrites p rfl _ _ (ha.2 q hq _ _ hw)⟩) id
        (h.body (hpre p List.mem_cons_self) (K.refl s))
    exact hbody.mono fun o t ht ho => hk _ t ht ⟨o, ho, rfl⟩
  sleep hp t ht := hp.2 _ t ht rfl
  resume hp ht := hp _ ht
  sides {ρ w k s kind ps} hp hw := by
    refine ⟨fun p hmem t ht => h.body (hp.1.1 p ?_) ht, fun o t ht ho => ?_, fun hnil => ?_⟩
    · rw [sides_procedures hw]
      exact hmem
    · exact hp.2 o t ht (answers_of_explains hw ho)
    · subst hnil
      exact hp.2 _ s (K.refl s) (answers_nil hw)
  detached {ρ k s} hp := by
    refine ⟨fun ρs o t ht _ => ⟨⟨fun p hmem => absurd hmem List.not_mem_nil, nofun⟩,
      fun o' u hu ho => ?_⟩, ?_⟩
    · exact hp.2 o' u (K.trans ht hu) ho
    · exact hp.2 _ s (K.refl s) rfl
  goOn {ρ kind ρs k s t o} hp ht ho := hp o t ht (by rwa [discipline_explains] at ho)

end Contract

end Conductor
