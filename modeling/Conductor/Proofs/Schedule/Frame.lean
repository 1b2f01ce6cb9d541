import Conductor.Proofs.Schedule.Stepping

/-!
# What a step leaves alone

A branch that has the turn changes how it goes on itself, and may end; how all other branches go on,
and how they have ended, stays as it is. A job changes neither for any branch: it at most gives
somebody the turn, who then goes on in the way that was kept for the end of the wait.

Main results: `frame_turn` and `frame_job` for the two sorts of steps, and `outcome?_step`: a branch
that has ended stays so.
-/

namespace Conductor

namespace Schedule

variable {m m' : Schedule} {b d : Nat} {body : Procedure → Routine Value}

/-! ## The turn of a branch -/

theorem branch_suspend_of_ne (h : d ≠ b) (hb : b < m.branches.size)
    (resume : Outcome → Routine Value) : (m.suspend b resume).branch d = m.branch d := by
  show (m.updateBranch b _).branch d = _
  rw [branch_updateBranch m _ hb, if_neg h]

theorem resume_suspend (hb : b < m.branches.size) (resume : Outcome → Routine Value) :
    ((m.suspend b resume).branch b).resume = resume := by
  show ((m.updateBranch b _).branch b).resume = _
  rw [branch_updateBranch m _ hb, if_pos rfl]

@[simp] theorem outcome?_suspend (m : Schedule) (b : Nat) (resume : Outcome → Routine Value)
    (d : Nat) : (m.suspend b resume).outcome? d = m.outcome? d :=
  branch_updateBranch_eq Branch.outcome? (fun x => { x with resume }) (fun _ => rfl) m b d

theorem resume_joinOn_of_ne (h : d ≠ b) (hb : b < m.branches.size) (kind : JoinKind)
    (bs : List Nat) (resume : Outcome → Routine Value) :
    ((m.joinOn b kind bs resume).branch d).resume = (m.branch d).resume := by
  rw [joinOn_eq, branch_suspend_of_ne h (by rw [size_watchAll]; exact hb), resume_watchAll]
  rfl

theorem resume_joinOn (hb : b < m.branches.size) (kind : JoinKind) (bs : List Nat)
    (resume : Outcome → Routine Value) :
    ((m.joinOn b kind bs resume).branch b).resume = resume := by
  rw [joinOn_eq, resume_suspend (by rw [size_watchAll]; exact hb)]

/-- Only the active branch changes, and nobody else gets the turn. -/
structure Frame (b : Nat) (m m' : Schedule) : Prop where
  size : m.branches.size ≤ m'.branches.size
  active : m'.active = none ∨ ∃ r, m'.active = some (b, r)
  resume : ∀ d < m.branches.size, d ≠ b → (m'.branch d).resume = (m.branch d).resume
  outcome : ∀ d, d ≠ b → m'.outcome? d = m.outcome? d

theorem Frame.of_branches (h : m'.branches = m.branches)
    (ha : m'.active = none ∨ ∃ r, m'.active = some (b, r)) : Frame b m m' := by
  have hbranch : ∀ d, m'.branch d = m.branch d := fun d => by rw [branch, h]; rfl
  exact ⟨by rw [h], ha, fun d _ _ => by rw [hbranch], fun d _ => by rw [outcome?, hbranch]; rfl⟩

theorem frame_suspend (hb : b < m.branches.size) (resume : Outcome → Routine Value) :
    Frame b m (m.suspend b resume) :=
  ⟨(m.size_updateBranch b _).ge, Or.inl rfl, fun d _ h => by rw [branch_suspend_of_ne h hb],
    fun d _ => outcome?_suspend _ _ _ d⟩

theorem frame_startAndJoin (hb : b < m.branches.size) (kind : JoinKind) (ps : List Procedure)
    (resume : Outcome → Routine Value) : Frame b m (m.startAndJoin body b kind ps resume) := by
  by_cases hps : ps = []
  · subst hps
    exact Frame.of_branches rfl (Or.inr ⟨_, rfl⟩)
  · rw [startAndJoin_eq m b kind hps]
    refine ⟨?_, Or.inl rfl, fun d hd h => ?_, fun d _ => ?_⟩
    · rw [size_joinOn, size_spawnAll]
      exact Nat.le_add_right _ _
    · have hb' : b < (m.spawnAll (ps.map body)).2.branches.size := by
        rw [size_spawnAll]
        exact Nat.lt_add_right _ hb
      rw [resume_joinOn_of_ne h hb', branch_spawnAll, if_neg (fun hc => Nat.not_lt.2 hc.1 hd)]
    · rw [outcome?_joinOn, outcome?_spawnAll]

theorem frame_advance (hb : b < m.branches.size) (r : Routine Value) :
    Frame b m (m.advance body b r) := by
  have hfinish : ∀ o, Frame b m (m.finish b o) := fun o =>
    ⟨(m.size_finish b o).ge, Or.inl rfl, fun d _ h => by rw [m.branch_finish o hb, if_neg h],
      fun d h => by rw [m.outcome?_finish o hb, if_neg h]⟩
  cases r with
  | done v => exact hfinish _
  | fail f => exact hfinish _
  | get k => exact Frame.of_branches rfl (Or.inr ⟨_, rfl⟩)
  | put s r => exact Frame.of_branches rfl (Or.inr ⟨_, rfl⟩)
  | await w k =>
    cases w with
    | call p => exact Frame.of_branches rfl (Or.inr ⟨_, rfl⟩)
    | sleep seconds =>
      have h := frame_suspend (m := m) hb k
      show Frame b m (m.sleep b seconds k)
      unfold sleep
      dsimp only
      split
      · exact ⟨h.size, h.active, h.resume, h.outcome⟩
      · exact ⟨h.size, h.active, h.resume, h.outcome⟩
    | all ps => exact frame_startAndJoin hb .all ps k
    | first ps => exact frame_startAndJoin hb .first ps k
    | detached =>
      show Frame b m (m.wait body b .detached k)
      unfold wait
      dsimp only
      split
      · exact Frame.of_branches rfl (Or.inr ⟨_, rfl⟩)
      · exact ⟨(size_joinOn _ _ _ _ _).ge, Or.inl rfl, fun d _ h => resume_joinOn_of_ne h hb _ _ _,
          fun d _ => outcome?_joinOn _ _ _ _ _ d⟩

/-! ## Jobs -/

/-- No branch changes; whoever gets the turn goes on in the way that was kept. -/
structure Kept (m m' : Schedule) : Prop where
  size : m'.branches.size = m.branches.size
  active : m'.active = none ∨ ∃ b o, m'.active = some (b, (m.branch b).resume o)
  resume : ∀ d, (m'.branch d).resume = (m.branch d).resume
  outcome : ∀ d, m'.outcome? d = m.outcome? d

theorem Kept.of_branches (h : m'.branches = m.branches)
    (ha : m'.active = none ∨ ∃ b o, m'.active = some (b, (m.branch b).resume o)) : Kept m m' := by
  have hbranch : ∀ d, m'.branch d = m.branch d := fun d => by rw [branch, h]; rfl
  exact ⟨by rw [h], ha, fun d => by rw [hbranch], fun d => by rw [outcome?, hbranch]; rfl⟩

theorem kept_detachOpen (m : Schedule) (bs : List Nat) (b : Nat) (o : Outcome) :
    Kept m ((m.detachOpen bs).activate b ((m.branch b).resume o)) := by
  rw [detachOpen_eq]
  exact ⟨size_watchAll _ _ _, Or.inr ⟨b, o, rfl⟩, fun d => resume_watchAll _ _ _ d,
    fun d => outcome?_watchAll _ _ _ d⟩

theorem kept_wake (m : Schedule) (j : Nat) : Kept m (m.wake j) := by
  have hgo : ∀ b o, Kept m (m.activate b ((m.branch b).resume o)) := fun b o =>
    Kept.of_branches rfl (Or.inr ⟨b, o, rfl⟩)
  unfold wake
  dsimp only
  split
  · exact hgo _ _
  · exact kept_detachOpen m _ _ _
  · split
    · exact hgo _ _
    · split
      · exact kept_detachOpen m _ _ _
      · exact hgo _ _

theorem kept_doJob (ha : m.active = none) (job : Job) : Kept m (m.doJob job) := by
  cases job with
  | resume b => exact Kept.of_branches rfl (Or.inr ⟨b, .ok [], rfl⟩)
  | notify b n =>
    cases n with
    | count j => exact Kept.of_branches (branches_count _ _ _) (Or.inl ((active_count _ _ _).trans ha))
    | forget => exact Kept.of_branches (branches_forget _ _) (Or.inl ((active_forget _ _).trans ha))
  | wake j => exact kept_wake m j
  | ring b => exact Kept.of_branches rfl (Or.inl ha)

/-! ## Steps -/

/-- **The turn of a branch concerns nobody else.** -/
theorem frame_turn (hB : Balanced none m) {r : Routine Value} (ha : m.active = some (b, r))
    (hm : m.step body = some m') : Frame b m m' := by
  have hb : b < m.branches.size := (hB.take ha).of_held.1
  rcases step_cases hm with ⟨b', r', ha', rfl⟩ | ⟨_, _, ha', _⟩ | ⟨ha', _⟩
  · cases ha.symm.trans ha'
    exact frame_advance hb r
  · cases ha.symm.trans ha'
  · cases ha.symm.trans ha'

/-- **A job leaves every branch as it is.** -/
theorem kept_job (ha : m.active = none) (hm : m.step body = some m') : Kept m m' := by
  rcases step_cases hm with ⟨_, _, ha', _⟩ | ⟨job, rest, -, -, rfl⟩ | ⟨-, -, hm⟩
  · cases ha.symm.trans ha'
  · have h := kept_doJob (m := m.withReady rest) ha job
    exact ⟨h.size, h.active, h.resume, h.outcome⟩
  · obtain ⟨hb, -, -, ha', -⟩ := jump_eq hm
    exact Kept.of_branches hb (Or.inl (ha'.trans ha))

theorem size_le_step (hB : Balanced none m) (hm : m.step body = some m') :
    m.branches.size ≤ m'.branches.size := by
  cases ha : m.active with
  | none => exact (kept_job ha hm).size.ge
  | some t => exact (frame_turn hB ha hm).size

/-- A branch that has ended stays so. -/
theorem outcome?_step (hB : Balanced none m) (hm : m.step body = some m')
    {o : Except Failure Value} (h : m.outcome? d = some o) : m'.outcome? d = some o := by
  cases ha : m.active with
  | none => rw [(kept_job ha hm).outcome, h]
  | some t =>
    obtain ⟨b, r⟩ := t
    have hne : d ≠ b := by
      intro heq
      have ho : m.isOpen b = true := (hB.take ha).of_held.2.1
      rw [isOpen, ← heq, h] at ho
      cases ho
    rw [(frame_turn hB ha hm).outcome d hne, h]

end Schedule

end Conductor
