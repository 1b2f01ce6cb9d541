import Conductor.Proofs.Account.Outline

/-!
# Terms

The terms of a routine say what it may write, how the store may have changed when it goes on behind
a wait, what it may wait for, and what it may count on in the answer. A routine meets the terms with
a given end if it does only what they allow on every way through it, and if every outcome that it
comes to has what the end asks for, in the store of that moment.

What a routine meets is a condition on the rest of it, so it can be taken apart wherever the routine
is put together: `meets_thenOn` says that a routine with something behind it meets the terms exactly
if it comes to outcomes with which the rest does.
-/

namespace Conductor

/-- On what terms a routine runs in a store that others change meanwhile. -/
structure Terms where
  writes : Store → Store → Prop
  rely : Store → Store → Prop
  asks : Wait → Store → Prop
  /-- How a wait ends, in the store in which the routine goes on. -/
  answers : Wait → Outcome → Store → Prop
  refl : ∀ s, rely s s
  trans : ∀ {s t u}, rely s t → rely t u → rely s u
  relied : ∀ {s t}, writes s t → rely s t

/-- What is asked of a success only. -/
def OnOk {α : Type} (P : α → Store → Prop) : Except Failure α → Store → Prop
  | .ok a, s => P a s
  | .error _, _ => True

/-- What is asked of an outcome that has to be a success. -/
def IsOk {α : Type} (P : α → Store → Prop) : Except Failure α → Store → Prop
  | .ok a, s => P a s
  | .error _, _ => False

namespace Routine

variable {α β : Type} {T : Terms} {Q Q' : Except Failure α → Store → Prop}
  {R : Except Failure β → Store → Prop} {s : Store}

/-- From a store on the routine keeps to the terms, and comes to outcomes of a given kind. -/
def Meets (T : Terms) (Q : Except Failure α → Store → Prop) : Routine α → Store → Prop
  | .done a, s => Q (.ok a) s
  | .fail f, s => Q (.error f) s
  | .get k, s => (k s).Meets T Q s
  | .put t r, s => T.writes s t ∧ r.Meets T Q t
  | .await w k, s => T.asks w s ∧ ∀ o t, T.rely s t → T.answers w o t → (k o).Meets T Q t

/-- At its end a routine may rely on how the store has changed since its beginning. -/
theorem Meets.mono {r : Routine α} (h : r.Meets T Q s)
    (hQ : ∀ o t, T.rely s t → Q o t → Q' o t) : r.Meets T Q' s := by
  induction r generalizing s with
  | done a => exact hQ _ s (T.refl s) h
  | fail f => exact hQ _ s (T.refl s) h
  | get k ih => exact ih s h hQ
  | put t r ih => exact ⟨h.1, ih h.2 fun o u hu => hQ o u (T.trans (T.relied h.1) hu)⟩
  | await w k ih =>
    exact ⟨h.1, fun o t ht ho => ih o (h.2 o t ht ho) fun o' u hu => hQ o' u (T.trans ht hu)⟩

/-- **What a routine meets with something behind it.** -/
theorem meets_thenOn {r : Routine α} {g : Except Failure α → Routine β} :
    (r.thenOn g).Meets T R s ↔ r.Meets T (fun o t => (g o).Meets T R t) s := by
  induction r generalizing s with
  | done a => exact Iff.rfl
  | fail f => exact Iff.rfl
  | get k ih => exact ih s
  | put t r ih => exact and_congr_right fun _ => ih
  | await w k ih =>
    exact and_congr_right fun _ => forall_congr' fun o => forall_congr' fun t =>
      forall_congr' fun _ => forall_congr' fun _ => ih o

theorem meets_bind {r : Routine α} {g : α → Routine β} :
    (r.bind g).Meets T R s ↔ r.Meets T (fun o t => (onward g o).Meets T R t) s := by
  rw [bind_eq_thenOn, meets_thenOn]

theorem meets_continueWith {r : Routine Value} {g : Outcome → Routine β} :
    (r.continueWith g).Meets T R s ↔ r.Meets T (fun o t => (g (only o)).Meets T R t) s := by
  rw [continueWith_eq_thenOn, meets_thenOn]

/-- Terms that leave less room are stricter. -/
theorem Meets.weaken {T' : Terms} {r : Routine α} (hw : ∀ {s t}, T.writes s t → T'.writes s t)
    (hr : ∀ {s t}, T'.rely s t → T.rely s t) (ha : ∀ {w s}, T.asks w s → T'.asks w s)
    (hans : ∀ {w o s}, T'.answers w o s → T.answers w o s) (h : r.Meets T Q s) :
    r.Meets T' Q s := by
  induction r generalizing s with
  | done a => exact h
  | fail f => exact h
  | get k ih => exact ih s h
  | put t r ih => exact ⟨hw h.1, ih h.2⟩
  | await w k ih => exact ⟨ha h.1, fun o t ht ho => ih o (h.2 o t (hr ht) (hans ho))⟩

/-! ## Successes -/

variable {P : α → Store → Prop} {P' : β → Store → Prop}

theorem Meets.bind {r : Routine α} {g : α → Routine β} (hr : r.Meets T (OnOk P) s)
    (hg : ∀ a t, T.rely s t → P a t → (g a).Meets T (OnOk P') t) :
    (r.bind g).Meets T (OnOk P') s := by
  rw [meets_bind]
  refine hr.mono fun o t ht h => ?_
  cases o with
  | ok a => exact hg a t ht h
  | error f => trivial

/-- Behind a handler a failure is an outcome as well. -/
theorem Meets.attempt_bind {r : Routine α} {g : Except Failure α → Routine β}
    (hr : r.Meets T Q s) (hg : ∀ o t, T.rely s t → Q o t → (g o).Meets T (OnOk P') t) :
    (r.attempt.bind g).Meets T (OnOk P') s := by
  rw [attempt_eq_thenOn, bind_eq_thenOn, thenOn_thenOn, meets_thenOn]
  refine hr.mono fun o t ht h => ?_
  cases o with
  | ok a => exact hg _ t ht h
  | error f =>
    unfold caught
    dsimp only
    split
    · exact hg _ t ht h
    · trivial

/-- Whatever comes behind a sure success may count on it. -/
theorem Meets.bind_ok {r : Routine α} {g : α → Routine β} (hr : r.Meets T (IsOk P) s)
    (hg : ∀ a t, T.rely s t → P a t → (g a).Meets T R t) : (r.bind g).Meets T R s := by
  rw [meets_bind]
  refine hr.mono fun o t ht h => ?_
  cases o with
  | ok a => exact hg a t ht h
  | error f => exact h.elim

/-- A query that finds something can be left out. -/
theorem meets_query_bind {f : Store → Except Cause α} {a : α} {g : α → Routine β} (hf : f s = .ok a) :
    ((query f).bind g).Meets T R s ↔ (g a).Meets T R s := by
  show ((ofExcept (f s)).bind g).Meets T R s ↔ _
  rw [hf]
  exact Iff.rfl

/-- Behind a handler a sure success is one. -/
theorem Meets.attempt_bind_ok {r : Routine α} {g : Except Failure α → Routine β}
    (hr : r.Meets T (IsOk P) s) (hg : ∀ a t, T.rely s t → P a t → (g (.ok a)).Meets T R t) :
    (r.attempt.bind g).Meets T R s := by
  rw [attempt_eq_thenOn, bind_eq_thenOn, thenOn_thenOn, meets_thenOn]
  refine hr.mono fun o t ht h => ?_
  cases o with
  | ok a => exact hg a t ht h
  | error f => exact h.elim

theorem meets_done {a : α} (h : P a s) : (done a).Meets T (OnOk P) s := h

theorem meets_fail (f : Failure) : (fail f : Routine α).Meets T (OnOk P) s := trivial

theorem meets_read {f : Store → α} (h : P (f s) s) : (read f).Meets T (OnOk P) s := h

theorem meets_alter {f : Store → Store} {P : Unit → Store → Prop} (h : T.writes s (f s))
    (hP : P () (f s)) : (alter f).Meets T (OnOk P) s := ⟨h, hP⟩

theorem meets_modifyGet {f : Store → α × Store} (h : T.writes s (f s).2)
    (hP : P (f s).1 (f s).2) : (modifyGet f).Meets T (OnOk P) s := ⟨h, hP⟩

theorem meets_ofOutcome {o : Except Failure α} (h : OnOk P o s) :
    (ofOutcome o).Meets T (OnOk P) s := by
  cases o with
  | ok a => exact h
  | error f => trivial

/-- Whatever is done for each item comes to an end behind the last one. -/
theorem meets_each {f : α → Routine Unit} {xs : List α}
    (h : ∀ a ∈ xs, ∀ t, T.rely s t → (f a).Meets T (OnOk fun _ _ => True) t) :
    (each f xs).Meets T (OnOk fun _ _ => True) s := by
  induction xs generalizing s with
  | nil => trivial
  | cons x xs ih =>
    refine (h x List.mem_cons_self s (T.refl s)).bind fun _ t ht _ => ih fun a ha u hu => ?_
    exact h a (List.mem_cons_of_mem x ha) u (T.trans ht hu)

/-- What is done for each item stays done. -/
theorem meets_each_all {P : α → Store → Prop} {f : α → Routine Unit}
    (hlast : ∀ {a t u}, T.rely s t → P a t → T.rely t u → P a u) :
    ∀ {xs : List α} {t : Store}, T.rely s t →
      (∀ a ∈ xs, ∀ u, T.rely s u → (f a).Meets T (OnOk fun _ u => P a u) u) →
        (each f xs).Meets T (OnOk fun _ u => ∀ a ∈ xs, P a u) t
  | [], _, _, _ => fun _ ha => absurd ha List.not_mem_nil
  | x :: xs, t, ht, h => by
    refine (h x List.mem_cons_self t ht).bind fun _ u hu hx => ?_
    have hu := T.trans ht hu
    have hrest : (each f xs).Meets T (OnOk fun _ u => ∀ a ∈ xs, P a u) u :=
      meets_each_all (P := P) hlast hu fun a ha => h a (List.mem_cons_of_mem _ ha)
    refine hrest.mono fun o v hv ho => ?_
    cases o with
    | ok _ => exact fun a ha => (List.mem_cons.1 ha).elim (fun heq => heq ▸ hlast hu hx hv) (ho a)
    | error _ => trivial

theorem meets_each_ok {f : α → Routine Unit} {xs : List α}
    (h : ∀ a ∈ xs, ∀ t, T.rely s t → (f a).Meets T (IsOk fun _ _ => True) t) :
    (each f xs).Meets T (IsOk fun _ _ => True) s := by
  induction xs generalizing s with
  | nil => trivial
  | cons x xs ih =>
    refine (h x List.mem_cons_self s (T.refl s)).bind_ok fun _ t ht _ => ih fun a ha u hu => ?_
    exact h a (List.mem_cons_of_mem x ha) u (T.trans ht hu)

/-! ## Sleeping -/

/-- A routine that waits for nothing but the end of sleeps. -/
def Sleeps : Routine α → Prop
  | .done _ | .fail _ => True
  | .get k => ∀ s, (k s).Sleeps
  | .put _ r => r.Sleeps
  | .await w k => (∃ x, w = .sleep x) ∧ ∀ o, (k o).Sleeps

end Routine

end Conductor
