import Conductor.Proofs.Account.Run

/-!
# First come, first served

Jobs are done in the order in which they come into the queue: a job only moves towards the head, new
ones line up behind it, and as long as it is there the clock stands still.

Main results: what becomes of a job in the queue (`Run.queued`), and that another job which comes to
the head before it was in front of it from the start (`Run.done_before`).
-/

namespace Conductor

namespace Schedule

variable {m m' : Schedule} {b d : Nat} {body : Procedure → Routine Value}

/-! ## Lining up -/

/-- Jobs have only been put at the end of the queue. -/
def Extends (m m' : Schedule) : Prop := ∃ new, m'.ready = m.ready ++ new

theorem Extends.of_eq (h : m'.ready = m.ready) : m.Extends m' := ⟨[], by rw [h, List.append_nil]⟩

theorem extends_joinOn (m : Schedule) (b : Nat) (kind : JoinKind) (bs : List Nat)
    (k : Outcome → Routine Value) : m.Extends (m.joinOn b kind bs k) :=
  ⟨_, ready_joinOn m b kind bs k⟩

theorem extends_startAndJoin (m : Schedule) (b : Nat) (kind : JoinKind) (ps : List Procedure)
    (k : Outcome → Routine Value) : m.Extends (m.startAndJoin body b kind ps k) := by
  by_cases hps : ps = []
  · subst hps
    exact .of_eq rfl
  · rw [startAndJoin_eq m b kind hps]
    obtain ⟨new, h⟩ := extends_joinOn (m.spawnAll (ps.map body)).2 b kind
      (List.range' m.branches.size ps.length) k
    rw [ready_spawnAll, List.append_assoc] at h
    exact ⟨_, h⟩

theorem extends_advance (body : Procedure → Routine Value) (m : Schedule) (b : Nat)
    (r : Routine Value) : m.Extends (m.advance body b r) := by
  cases r with
  | done v => exact ⟨_, ready_finish _ _ _⟩
  | fail f => exact ⟨_, ready_finish _ _ _⟩
  | get k => exact .of_eq rfl
  | put s r => exact .of_eq rfl
  | await w k =>
    cases w with
    | call p => exact .of_eq rfl
    | sleep seconds =>
      show m.Extends (m.sleep b seconds k)
      unfold sleep
      dsimp only
      split
      · exact .of_eq rfl
      · exact ⟨[.resume b], rfl⟩
    | all ps => exact extends_startAndJoin m b .all ps k
    | first ps => exact extends_startAndJoin m b .first ps k
    | detached =>
      show m.Extends (m.wait body b .detached k)
      unfold wait
      dsimp only
      split
      · exact .of_eq rfl
      · exact extends_joinOn m b .ended _ _

theorem extends_detachOpen (m : Schedule) (bs : List Nat) (b : Nat) (r : Routine Value) :
    m.Extends ((m.detachOpen bs).activate b r) := by
  have h := ready_watchAll .forget (bs.filter m.isOpen) m
  rw [detachOpen_eq]
  exact ⟨_, h⟩

theorem extends_count (m : Schedule) (j d : Nat) : m.Extends (m.count j d) := by
  unfold count
  dsimp only
  split
  · exact .of_eq rfl
  · split
    · exact ⟨[.wake j], rfl⟩
    · split
      · exact ⟨[.wake j], rfl⟩
      · exact .of_eq rfl
    · split
      · exact ⟨[.wake j], rfl⟩
      · split
        · exact ⟨[.wake j], rfl⟩
        · exact .of_eq rfl

theorem extends_doJob (m : Schedule) (job : Job) : m.Extends (m.doJob job) := by
  cases job with
  | resume d => exact .of_eq rfl
  | ring d => exact ⟨[.resume d], rfl⟩
  | notify d n =>
    cases n with
    | forget => exact .of_eq (ready_forget m d)
    | count j => exact extends_count m j d
  | wake j =>
    show m.Extends (m.wake j)
    unfold wake
    dsimp only
    split
    · exact .of_eq rfl
    · exact extends_detachOpen m _ _ _
    · split
      · exact .of_eq rfl
      · split
        · exact extends_detachOpen m _ _ _
        · exact .of_eq rfl

/-- A job in the queue moves towards the head, or it is at the head and is done. -/
theorem Moves.queue (h : Moves body m m') {job : Job} {pre post : List Job}
    (hr : m.ready = pre ++ job :: post) :
    (∃ pre' post', m'.ready = pre' ++ job :: post' ∧ pre' <:+ pre) ∨
      m.active = none ∧ m.ready = job :: post ∧ m' = (m.withReady post).doJob job := by
  have hne : m.ready ≠ [] := by simp [hr]
  cases h with
  | step hm =>
    rcases step_cases hm with ⟨d, r, -, rfl⟩ | ⟨x, rest, ha, hx, rfl⟩ | ⟨-, hx, -⟩
    · obtain ⟨new, hnew⟩ := extends_advance body m d r
      exact Or.inl ⟨pre, post ++ new, by rw [hnew, hr]; simp, List.suffix_refl pre⟩
    · obtain ⟨new, hnew⟩ := extends_doJob (m.withReady rest) x
      rw [hr] at hx
      cases pre with
      | nil =>
        cases hx
        exact Or.inr ⟨ha, hr, rfl⟩
      | cons y pre =>
        cases hx
        refine Or.inl ⟨pre, post ++ new, ?_, List.suffix_cons x pre⟩
        rw [hnew]
        simp [withReady]
    · exact absurd hx hne
  | launch ha r => exact Or.inl ⟨pre, post, hr, List.suffix_refl pre⟩
  | rest hm => exact Or.inl ⟨pre, post, hr, List.suffix_refl pre⟩

end Schedule

namespace Run

open Schedule

variable {body : Procedure → Routine Value} (R : Run body) {b d n t N : Nat} {job : Job}

/-! ## Waiting in the queue -/

/-- A job is in the queue, and only the given ones are in front of it. -/
def Queued (n : Nat) (job : Job) (before : List Job) : Prop :=
  ∃ pre post, (R.moment n).ready = pre ++ job :: post ∧ pre <:+ before

/-- A job is done in the step that follows a moment. -/
structure Does (n : Nat) (job : Job) : Prop where
  idle : (R.moment n).active = none
  done : ∃ rest, (R.moment n).ready = job :: rest ∧
    R.moment (n + 1) = ((R.moment n).withReady rest).doJob job

variable {R} {before : List Job}

theorem Queued.ready_ne (h : R.Queued n job before) : (R.moment n).ready ≠ [] := by
  obtain ⟨pre, post, hr, -⟩ := h
  simp [hr]

theorem Queued.mem (h : R.Queued n job before) : job ∈ (R.moment n).ready := by
  obtain ⟨pre, post, hr, -⟩ := h
  rw [hr]
  exact List.mem_append_right _ List.mem_cons_self

/-- **A job in the queue** stays there, among no more jobs in front of it, until it is done. -/
theorem queued (h : R.Queued n job before) (hN : n ≤ N) :
    (∀ i, n ≤ i → i ≤ N → R.Queued i job before) ∨
      ∃ u, n ≤ u ∧ u < N ∧ R.Does u job ∧ ∀ i, n ≤ i → i ≤ u → R.Queued i job before := by
  induction N, hN using Nat.le_induction with
  | base =>
    refine Or.inl fun i hi hi' => ?_
    obtain rfl : i = n := by omega
    exact h
  | succ N hN ih =>
    rcases ih with hq | ⟨u, hu, huN, hd, hq⟩
    · obtain ⟨pre, post, hr, hpre⟩ := hq N hN le_rfl
      rcases (R.moves N).queue hr with ⟨pre', post', hr', hpre'⟩ | ⟨ha, hr', hm⟩
      · refine Or.inl fun i hi hi' => ?_
        rcases Nat.le_succ_iff.1 hi' with hle | rfl
        · exact hq i hi hle
        · exact ⟨pre', post', hr', hpre'.trans hpre⟩
      · exact Or.inr ⟨N, hN, Nat.lt_succ_self N, ⟨ha, post, hr', hm⟩, hq⟩
    · exact Or.inr ⟨u, hu, Nat.lt_succ_of_lt huN, hd, hq⟩

/-- **First come, first served.** A job that was not in front of another one is not done before it. -/
theorem done_before {job' : Job} (h : R.Queued n job before) (hnot : job' ∉ before)
    (hne : job' ≠ job) (hN : n ≤ N) (hd : R.Does N job') : ∃ u, n ≤ u ∧ u < N ∧ R.Does u job ∧
      ∀ i, n ≤ i → i ≤ u → R.Queued i job before := by
  rcases queued h hN with hq | hdone
  · obtain ⟨pre, post, hr, hpre⟩ := hq N hN le_rfl
    obtain ⟨rest, hr', -⟩ := hd.done
    rw [hr] at hr'
    cases pre with
    | nil =>
      cases hr'
      exact absurd rfl hne
    | cons x pre =>
      cases hr'
      exact absurd (hpre.subset List.mem_cons_self) hnot
  · exact hdone

end Run

end Conductor
