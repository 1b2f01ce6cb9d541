import Conductor.Proofs.Account.Queue
import Conductor.Proofs.Binary64.Order
import Conductor.Proofs.Schedule.Progress

/-!
# The time of a run

The clock moves when nothing else can: while a branch has the turn or a job is in the queue it stands
still (`Run.clock_stands`), and when it moves it goes to a timer, which is set to what is ahead.

**Theorem (`Run.clock_forward`).** If no branch sets the clock by itself, time only goes forward.
-/

namespace Conductor

namespace Schedule

variable {m m' : Schedule} {b : Nat} {body : Procedure → Routine Value}

theorem clock_doJob (m : Schedule) (job : Job) : (m.doJob job).store.clock = m.store.clock := by
  cases job with
  | resume d => rfl
  | ring d => rfl
  | notify d n =>
    cases n with
    | forget =>
      show (m.forget d).store.clock = _
      unfold forget
      dsimp only
      split <;> rfl
    | count j =>
      exact congrArg Store.clock (count_eq Schedule.store (fun _ _ _ => rfl) (fun _ _ => rfl) m j d)
  | wake j =>
    have hdetach : ∀ bs, (m.detachOpen bs).store = m.store := fun bs => by
      rw [detachOpen_eq]
      exact store_watchAll m _ _
    show (m.wake j).store.clock = _
    unfold wake
    dsimp only
    split
    · rfl
    · exact congrArg Store.clock (hdetach _)
    · split
      · rfl
      · split
        · exact congrArg Store.clock (hdetach _)
        · rfl

/-- Something can be done without letting time pass. -/
def Busy (m : Schedule) : Prop := m.active ≠ none ∨ m.ready ≠ []

/-- The clock stands still unless nothing is left to do or the active branch has set it. -/
theorem Moves.clock (h : Moves body m m') (hr : m.Busy)
    (ha : m.active ≠ none → m'.store.clock = m.store.clock) : m'.store.clock = m.store.clock := by
  cases h with
  | step hm =>
    rcases step_cases hm with ⟨d, r, hd, rfl⟩ | ⟨x, rest, hx, -, rfl⟩ | ⟨hn, he, -⟩
    · exact ha (by simp [hd])
    · exact clock_doJob (m.withReady rest) x
    · exact hr.elim (absurd hn) (absurd he)
  | launch => rfl
  | rest => rfl

/-! ## Timers -/

/-- No timer is set to a time that is over. -/
def Punctual (m : Schedule) : Prop := ∀ t ∈ m.timers, m.store.clock.Precedes t.due

theorem timers_startAndJoin (body : Procedure → Routine Value) (m : Schedule) (b : Nat)
    (kind : JoinKind) (ps : List Procedure) (k : Outcome → Routine Value) :
    (m.startAndJoin body b kind ps k).timers = m.timers := by
  by_cases hps : ps = []
  · subst hps
    rfl
  · rw [startAndJoin_eq m b kind hps]
    refine (timers_watchAll _ _ _).trans ?_
    rw [spawnAll_snd]

/-- A branch sets a timer to what is ahead of the clock. -/
theorem timers_advance (m : Schedule) (b : Nat) (r : Routine Value) {t : Timer}
    (ht : t ∈ (m.advance body b r).timers) : t ∈ m.timers ∨ m.store.clock.Precedes t.due := by
  cases r with
  | done v => exact Or.inl ht
  | fail f => exact Or.inl ht
  | get k => exact Or.inl ht
  | put s r => exact Or.inl ht
  | await w k =>
    cases w with
    | call p => exact Or.inl ht
    | sleep seconds =>
      replace ht : t ∈ (m.sleep b seconds k).timers := ht
      unfold sleep at ht
      dsimp only at ht
      split at ht
      · next hpos =>
        rcases List.mem_append.1 ht with ht | ht
        · exact Or.inl ht
        · cases List.mem_singleton.1 ht
          exact Or.inr (Binary64.precedes_add _ hpos)
      · exact Or.inl ht
    | all ps =>
      rw [← timers_startAndJoin body m b .all ps k]
      exact Or.inl ht
    | first ps =>
      rw [← timers_startAndJoin body m b .first ps k]
      exact Or.inl ht
    | detached =>
      replace ht : t ∈ (m.wait body b .detached k).timers := ht
      unfold wait at ht
      dsimp only at ht
      split at ht
      · exact Or.inl ht
      · have htimers : (m.joinOn b .ended m.detached fun _ => .await .detached k).timers = m.timers :=
          timers_watchAll _ _ _
        rw [htimers] at ht
        exact Or.inl ht

theorem timers_doJob (m : Schedule) (job : Job) : (m.doJob job).timers = m.timers := by
  cases job with
  | resume d => rfl
  | ring d => rfl
  | notify d n =>
    cases n with
    | forget => exact timers_forget m d
    | count j => exact count_eq Schedule.timers (fun _ _ _ => rfl) (fun _ _ => rfl) m j d
  | wake j =>
    have hdetach : ∀ bs, (m.detachOpen bs).timers = m.timers := fun bs => by
      rw [detachOpen_eq]
      exact timers_watchAll m _ _
    show (m.wake j).timers = _
    unfold wake
    dsimp only
    split
    · rfl
    · exact hdetach _
    · split
      · rfl
      · split
        · exact hdetach _
        · rfl

/-- Time goes forward from one moment to the next. -/
theorem Moves.forward (h : Moves body m m') (hp : m.Punctual)
    (ha : m.active ≠ none → m'.store.clock = m.store.clock) :
    m.store.clock.Precedes m'.store.clock ∧ m'.Punctual := by
  -- What keeps the clock and the timers keeps everything.
  have hkeep : m'.store.clock = m.store.clock → (∀ t ∈ m'.timers, t ∈ m.timers ∨
      m.store.clock.Precedes t.due) → m.store.clock.Precedes m'.store.clock ∧ m'.Punctual := by
    intro hc ht
    refine ⟨hc ▸ .refl _, fun t hm => ?_⟩
    rw [hc]
    exact (ht t hm).elim (hp t) id
  cases h with
  | step hm =>
    rcases step_cases hm with ⟨d, r, hd, rfl⟩ | ⟨x, rest, -, -, rfl⟩ | ⟨-, -, hj⟩
    · exact hkeep (ha (by simp [hd])) fun t => timers_advance m d r
    · refine hkeep (clock_doJob (m.withReady rest) x) fun t ht => Or.inl ?_
      rw [timers_doJob] at ht
      exact ht
    · unfold jump at hj
      split at hj
      · cases hj
      · next d hd =>
        cases hj
        obtain ⟨t, ht, rfl⟩ := Discipline.exists_of_earliest hd
        refine ⟨hp t ht, fun t' ht' => ?_⟩
        exact Binary64.precedes_of_lt (List.mem_filter.1 ht').2
  | launch => exact hkeep rfl fun t => Or.inl
  | rest => exact hkeep rfl fun t => Or.inl

end Schedule

namespace Run

open Schedule

variable {body : Procedure → Routine Value} {R : Run body} {n t : Nat}

/-- No branch sets the clock by itself. -/
def KeepsTime (R : Run body) : Prop :=
  ∀ n, (R.moment n).active ≠ none → (R.store (n + 1)).clock = (R.store n).clock

/-- While there is something to do, the clock stands still. -/
theorem clock_stands (hk : R.KeepsTime) (hn : n ≤ t)
    (hbusy : ∀ i, n ≤ i → i < t → (R.moment i).Busy) : (R.store t).clock = (R.store n).clock := by
  induction t, hn using Nat.le_induction with
  | base => rfl
  | succ t hn ih =>
    have hstep := (R.moves t).clock (hbusy t hn (Nat.lt_succ_self t)) (hk t)
    exact hstep.trans (ih fun i hi hi' => hbusy i hi (Nat.lt_succ_of_lt hi'))

theorem punctual (hk : R.KeepsTime) (n : Nat) : (R.moment n).Punctual := by
  induction n with
  | zero =>
    obtain ⟨s, hs⟩ := R.begins
    rw [hs]
    exact fun t ht => absurd ht List.not_mem_nil
  | succ n ih => exact ((R.moves n).forward ih (hk n)).2

/-- **Time only goes forward.** -/
theorem clock_forward (hk : R.KeepsTime) (hn : n ≤ t) :
    (R.store n).clock.Precedes (R.store t).clock := by
  induction t, hn using Nat.le_induction with
  | base => exact .refl _
  | succ t _ ih => exact ih.trans ((R.moves t).forward (punctual hk t) (hk t)).1

end Run

end Conductor
