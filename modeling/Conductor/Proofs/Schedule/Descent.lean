import Conductor.Proofs.Schedule.Contract
import Conductor.Proofs.Schedule.Draining

/-!
# Contracts that lead downwards

If every part of a run only waits for parts that stand lower than itself, in an order in which nothing
goes down forever, then no part goes on forever. `Contract.Descends` is a contract with such an order,
in which the parts also do not wait for the branches that are left behind.

A part that is called becomes a piece of the routine that calls it. So what has to be said of a part is
that whatever comes behind it makes only finitely many moves together with it if it makes only
finitely many by itself (`Contract.Halts`).

**Theorem (`Contract.Descends.returns`).** A part that is called settles after finitely many steps of
the schedule; and a drain behind it ends (`Contract.Descends.settles`).
-/

namespace Conductor

namespace Contract

open Schedule

variable {K : Contract} {body : Procedure → Routine Value} {s t : Store}

/-! ## Routines that make finitely many moves -/

/-- Whatever comes behind a part makes finitely many moves together with it. -/
def Halts (K : Contract) (body : Procedure → Routine Value) (p : Procedure) (s : Store) : Prop :=
  ∀ t, K.rely s t → ∀ g : Except Failure Value → Routine Value,
    (∀ o u, K.rely t u → K.post p o u → Acc (K.discipline body).Next (.turn (g o) u)) →
    Acc (K.discipline body).Next (.turn ((body p).thenOn g) t)

theorem acc_ofOutcome (o : Except Failure Value) :
    Acc (K.discipline body).Next (.turn (Routine.ofOutcome o) s) := by
  refine ⟨_, fun y hy => ?_⟩
  cases o <;> cases hy with | go h => cases h

theorem acc_rest {r : Routine Value}
    (h : ∀ t, K.rely s t → Acc (K.discipline body).Next (.turn r t)) :
    Acc (K.discipline body).Next (.rest r s) := by
  refine ⟨_, fun y hy => ?_⟩
  cases hy with
  | go hgo =>
    cases hgo with
    | resume r ht => exact h _ ht

theorem acc_joined {kind : JoinKind} {ρs : List K.Role} {k : Outcome → Routine Value}
    (h : ∀ o t, K.rely s t → K.Explains kind ρs o t →
      Acc (K.discipline body).Next (.turn (k o) t)) :
    Acc (K.discipline body).Next (.joined kind ρs k s) := by
  refine ⟨_, fun y hy => ?_⟩
  cases hy with
  | go hgo =>
    cases hgo with
    | goOn k ht ho => exact h _ _ ht (by rwa [discipline_explains] at ho)

theorem Halts.acc_start {p : Procedure} (h : K.Halts body p s) :
    Acc (K.discipline body).Next (.rest (body p) s) := by
  refine acc_rest fun t ht => ?_
  rw [← (body p).thenOn_ofOutcome]
  exact h t ht Routine.ofOutcome fun o _ _ _ => acc_ofOutcome o

/-- A routine that only waits for parts which halt makes finitely many moves, if what comes behind it
does. -/
theorem acc_thenOn {α : Type} {writes : Store → Store → Prop}
    (relied : ∀ {s t}, writes s t → K.rely s t) {asks : Wait → Store → Prop}
    (hasks : ∀ w s, asks w s → w ≠ .detached ∧ ∀ p ∈ w.procedures, K.Halts body p s)
    {Q : Except Failure α → Store → Prop} {r : Routine α}
    (hr : r.Meets (K.termsOf writes relied asks) Q s) {g : Except Failure α → Routine Value}
    (hg : ∀ o t, K.rely s t → Q o t → Acc (K.discipline body).Next (.turn (g o) t)) :
    Acc (K.discipline body).Next (.turn (r.thenOn g) s) := by
  induction r generalizing s with
  | done a => exact hg _ s (K.refl s) hr
  | fail f => exact hg _ s (K.refl s) hr
  | get k ih =>
    refine ⟨_, fun y hy => ?_⟩
    cases hy with
    | go hgo =>
      cases hgo with
      | get k s => exact ih s hr hg
  | put u r ih =>
    refine ⟨_, fun y hy => ?_⟩
    cases hy with
    | go hgo =>
      cases hgo with
      | put r s u => exact ih hr.2 fun o v hv => hg o v (K.trans (relied hr.1) hv)
  | await w k ih =>
    obtain ⟨hw, hps⟩ := hasks w s hr.1
    have hk : ∀ o t, K.rely s t → K.Answers w o t →
        Acc (K.discipline body).Next (.turn ((k o).thenOn g) t) := fun o t ht ho =>
      ih o (hr.2 o t ht ho) fun o' u hu => hg o' u (K.trans ht hu)
    refine ⟨_, fun y hy => ?_⟩
    cases hy with
    | go hgo =>
      cases hgo with
      | call p k' s =>
        show Acc (K.discipline body).Next (.turn ((body p).continueWith _) s)
        rw [Routine.continueWith_eq_thenOn]
        refine hps p (by simp [Wait.procedures]) s (K.refl s) _ fun o t ht ho => ?_
        exact hk _ t ht ⟨o, ho, rfl⟩
      | sleep x k' s => exact acc_rest fun t ht => hk _ t ht rfl
      | join k' s hsides =>
        exact acc_joined fun o t ht ho => hk o t ht (answers_of_explains hsides ho)
      | skip k' s hsides => exact hk _ s (K.refl s) (answers_nil hsides)
      | drain δs k' s => exact absurd rfl hw
      | drained k' s => exact absurd rfl hw
    | start k' s hsides hp =>
      refine (hps _ ?_).acc_start
      rwa [sides_procedures hsides]

/-! ## Parts that only wait for lower ones -/

/-- The terms of a part that only waits for lower ones, as they stand in the store of that moment. -/
def lowering (K : Contract) (less : Procedure × Store → Procedure × Store → Prop)
    (x : Procedure × Store) : Terms :=
  K.termsOf (K.writes x.1) K.relied fun w s =>
    K.Asks (K.writes x.1) w s ∧ w ≠ .detached ∧ ∀ p ∈ w.procedures, less (p, s) x

/-- Every part keeps the contract and only waits for lower ones. -/
structure Descends (K : Contract) (body : Procedure → Routine Value)
    (less : Procedure × Store → Procedure × Store → Prop) : Prop where
  clock : ∀ s x, K.rely s { s with clock := x }
  late : ∀ s f, K.rely s (s.write (lateFailure f))
  mark : ∀ s, K.rely s (s.write .drain)
  founded : ∀ {p s}, K.pre p s → Acc less (p, s)
  body : ∀ {p s t}, K.pre p s → K.rely s t → (body p).Meets (K.lowering less (p, s)) (K.post p) t

variable {less : Procedure × Store → Procedure × Store → Prop}

theorem Descends.kept (h : K.Descends body less) : K.Kept body where
  clock := h.clock
  late := h.late
  body hp ht := Routine.Meets.weaken (T := K.lowering less _) id id And.left id (h.body hp ht)

/-- **Every part halts.** -/
theorem Descends.halts (h : K.Descends body less) {p : Procedure} (hp : K.pre p s) :
    K.Halts body p s := by
  generalize hx : (p, s) = x
  have hacc : Acc less x := hx ▸ h.founded hp
  induction hacc generalizing p s with
  | intro x _ ih =>
    subst hx
    intro t ht g hg
    exact acc_thenOn K.relied (fun w u ha => ⟨ha.2.1, fun q hq => ih (q, u) (ha.2.2 q hq) (ha.1.1 q hq) rfl⟩)
      (h.body hp ht) hg

/-- A call of a part is bounded. -/
theorem Descends.bounded (h : K.Descends body less) {p : Procedure} (hp : K.pre p s) :
    (K.discipline body).Bounded (.turn (Routine.call p) s) := by
  refine ⟨⟨_, fun y hy => ?_⟩, nofun⟩
  cases hy with
  | go hgo =>
    cases hgo with
    | call p k s =>
      show Acc (K.discipline body).Next (.turn ((body p).continueWith Routine.single) s)
      rw [Routine.continueWith_eq_thenOn]
      refine h.halts hp s (K.refl s) _ fun o t _ _ => ?_
      have hsingle : Routine.single (Routine.only o) = Routine.ofOutcome o := by cases o <;> rfl
      rw [hsingle]
      exact acc_ofOutcome o
    | join k s hw => cases hw
    | skip k s hw => cases hw
  | start k s hw _ => cases hw

/-! ## Runs -/

/-- A routine that may write whatever others expect, and has nothing to establish. -/
def bystander (K : Contract) : K.Role := ⟨K.rely, fun _ _ => True, id, fun _ _ => trivial⟩

instance : Inhabited K.Role := ⟨K.bystander⟩

theorem meets_call {writes : Store → Store → Prop} (relied : ∀ {s t}, writes s t → K.rely s t)
    {p : Procedure} (hw : ∀ s t, K.writes p s t → writes s t) (hp : K.pre p s) :
    (Routine.call p).Meets (K.termsBy writes relied) (K.post p) s := by
  refine ⟨⟨fun q hq => ?_, fun q hq s t h => ?_⟩, ?_⟩
  · rwa [List.mem_singleton.1 hq]
  · cases hq
    exact hw s t h
  · rintro _ t - ⟨x, hx, rfl⟩
    cases x with
    | ok v => exact hx
    | error f => exact hx

/-- **A part that is called settles**, and leaves nothing behind that goes on forever. -/
theorem Descends.returns (h : K.Descends body less) {p : Procedure} (hvisit : p.IsVisit)
    (hp : K.pre p s) : ∃ n, ∀ k ≥ n, ∃ o, (run body k (.call p) (ofStore s)).1 = some o ∧
      K.post p o (run body k (.call p) (ofStore s)).2.store ∧
      (K.discipline body).Resumable (run body k (.call p) (ofStore s)).2 :=
  ((K.discipline body).resumable_ofStore s).settles (lawful h.kept) (g := K.role p) (r := .call p)
    ⟨meets_call K.relied (fun _ _ => id) hp, h.bounded hp⟩ (Routine.tame_call hvisit)

/-- A drain behind a part that has settled ends. -/
theorem Descends.settles (h : K.Descends body less) (hbody : TameBody body) {p : Procedure}
    (hvisit : p.IsVisit) (hp : K.pre p s) : ∃ n, ∀ k ≥ n, ∃ o,
      (run body k (.call p) (ofStore s)).1 = some o ∧
        K.post p o (run body k (.call p) (ofStore s)).2.store ∧
        ∃ l, ∀ i ≥ l, (run body i drain (run body k (.call p) (ofStore s)).2).1 =
          some (.ok .null) := by
  obtain ⟨n, hn⟩ := h.returns hvisit hp
  refine ⟨n, fun k hk => ?_⟩
  obtain ⟨o, ho, hpost, hres⟩ := hn k hk
  refine ⟨o, ho, hpost, hres.drains (lawful h.kept) hbody (g := K.bystander) ?_⟩
  exact ⟨h.mark _, ⟨fun _ hq => absurd hq List.not_mem_nil, nofun⟩, fun o _ _ _ => by
    cases o <;> trivial⟩

end Contract

end Conductor
