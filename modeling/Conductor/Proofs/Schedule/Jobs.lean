import Conductor.Schedule.Run
import Mathlib

/-!
# The jobs that a schedule owes

Notices reach the queue in two ways: at once, if the branch has ended already, or when it ends. For
counting them the difference does not matter. `owed p` counts the jobs of a kind `p` wherever they
are: in the queue, or still kept with a branch that will give notice.

Ending a branch moves its notices into the queue and leaves every such count as it is
(`owed_finish`); asking for a notice adds one (`owed_watch`), whether the branch is open or not.

The rest of this module says, for every operation on schedules, which branches, joins and jobs are
there afterwards.
-/

namespace Conductor

namespace Schedule

variable {m : Schedule} {b b' : BranchId} {j j' : JoinId}

/-! ## Branches and joins -/

theorem branch_updateBranch (m : Schedule) {b : BranchId} (f : Branch → Branch)
    (hb : b < m.branches.size) (b' : BranchId) :
    (m.updateBranch b f).branch b' = if b' = b then f (m.branch b) else m.branch b' := by
  unfold branch updateBranch
  by_cases h : b' = b
  · subst h
    simp [Array.getD, hb, Array.getElem_modify]
  · rw [if_neg h]
    by_cases hb' : b' < m.branches.size
    · simp [Array.getD, hb', Array.getElem_modify, Ne.symm h]
    · simp [Array.getD, hb']

@[simp] theorem size_updateBranch (m : Schedule) (b : BranchId) (f : Branch → Branch) :
    (m.updateBranch b f).branches.size = m.branches.size := by
  simp [updateBranch]

theorem join_updateJoin (m : Schedule) {j : JoinId} (f : Join → Join) (hj : j < m.joins.size)
    (j' : JoinId) : (m.updateJoin j f).join j' = if j' = j then f (m.join j) else m.join j' := by
  unfold join updateJoin
  by_cases h : j' = j
  · subst h
    simp [Array.getD, hj, Array.getElem_modify]
  · rw [if_neg h]
    by_cases hj' : j' < m.joins.size
    · simp [Array.getD, hj', Array.getElem_modify, Ne.symm h]
    · simp [Array.getD, hj']

@[simp] theorem size_updateJoin (m : Schedule) (j : JoinId) (f : Join → Join) :
    (m.updateJoin j f).joins.size = m.joins.size := by
  simp [updateJoin]

/-- Changing a branch keeps whatever the change keeps. -/
theorem branch_updateBranch_eq {α : Type} (g : Branch → α) (f : Branch → Branch)
    (hg : ∀ x, g (f x) = g x) (m : Schedule) (b b' : BranchId) :
    g ((m.updateBranch b f).branch b') = g (m.branch b') := by
  by_cases hb : b < m.branches.size
  · rw [branch_updateBranch m f hb]
    split
    · next h => rw [hg, h]
    · rfl
  · have : m.branches.modify b f = m.branches := by
      refine Array.ext (by simp) fun i _ hi => ?_
      have hne : b ≠ i := fun h => hb (h ▸ hi)
      rw [Array.getElem_modify, if_neg hne]
    simp [updateBranch, branch, this]

theorem join_updateJoin_eq {α : Type} (g : Join → α) (f : Join → Join)
    (hg : ∀ x, g (f x) = g x) (m : Schedule) (j j' : JoinId) :
    g ((m.updateJoin j f).join j') = g (m.join j') := by
  by_cases hj : j < m.joins.size
  · rw [join_updateJoin m f hj]
    split
    · next h => rw [hg, h]
    · rfl
  · have : m.joins.modify j f = m.joins := by
      refine Array.ext (by simp) fun i _ hi => ?_
      have hne : j ≠ i := fun h => hj (h ▸ hi)
      rw [Array.getElem_modify, if_neg hne]
    simp [updateJoin, join, this]

/-- A branch that is not there counts as open. -/
theorem outcome?_of_size_le (h : m.branches.size ≤ b) : m.outcome? b = none := by
  simp [outcome?, branch, Array.getD, Nat.not_lt.2 h, default]

theorem lt_size_of_closed (h : m.isOpen b = false) : b < m.branches.size := by
  by_contra hb
  rw [isOpen, outcome?_of_size_le (Nat.le_of_not_lt hb)] at h
  cases h

theorem isOpen_eq_false_iff : m.isOpen b = false ↔ ∃ o, m.outcome? b = some o := by
  rw [isOpen, Option.isNone_eq_false_iff, Option.isSome_iff_exists]

/-! ## Counting -/

/-- A job that counts a branch for a join. -/
def isCountFor (j : JoinId) : Job → Bool
  | .notify _ (.count j') => j' == j
  | _ => false

/-- A job that strikes a branch off the list of detached ones. -/
def isForgetOf (b : BranchId) : Job → Bool
  | .notify b' .forget => b' == b
  | _ => false

/-- How many jobs of a kind are in the queue or will come into it when branches end. -/
def owed (m : Schedule) (p : Job → Bool) : Nat :=
  m.ready.countP p +
    ∑ b ∈ Finset.range m.branches.size, (m.branch b).notices.countP fun n => p (.notify b n)

/-- Two sums that differ at one place only. -/
theorem sum_range_of_eq_off {n i : Nat} {f g : Nat → Nat} (hi : i < n)
    (h : ∀ k, k ≠ i → f k = g k) :
    ∑ k ∈ Finset.range n, f k + g i = ∑ k ∈ Finset.range n, g k + f i := by
  have hmem : i ∈ Finset.range n := Finset.mem_range.2 hi
  have hoff : ∑ k ∈ (Finset.range n).erase i, f k = ∑ k ∈ (Finset.range n).erase i, g k :=
    Finset.sum_congr rfl fun k hk => h k (Finset.ne_of_mem_erase hk)
  rw [← Finset.sum_erase_add _ _ hmem, ← Finset.sum_erase_add (Finset.range n) g hmem, hoff]
  ring

theorem owed_congr {k : Schedule} (hr : k.ready = m.ready)
    (hs : k.branches.size = m.branches.size)
    (hn : ∀ b, (k.branch b).notices = (m.branch b).notices) (p : Job → Bool) :
    k.owed p = m.owed p := by
  simp only [owed, hr, hs, hn]

theorem owed_updateBranch (m : Schedule) (b : BranchId) (f : Branch → Branch)
    (hf : ∀ x, (f x).notices = x.notices) (p : Job → Bool) :
    (m.updateBranch b f).owed p = m.owed p :=
  owed_congr (m := m) (k := m.updateBranch b f) rfl (m.size_updateBranch b f)
    (branch_updateBranch_eq Branch.notices f hf m b) p

theorem owed_enqueueAll (m : Schedule) (jobs : List Job) (p : Job → Bool) :
    (m.enqueueAll jobs).owed p = m.owed p + jobs.countP p := by
  simp only [owed, enqueueAll, List.countP_append]
  show _ + ∑ b ∈ Finset.range m.branches.size, (m.branch b).notices.countP _ = _
  omega

theorem owed_enqueue (m : Schedule) (job : Job) (p : Job → Bool) :
    (m.enqueue job).owed p = m.owed p + if p job then 1 else 0 := by
  have h := m.owed_enqueueAll [job] p
  rw [List.countP_singleton] at h
  exact h

/-- Doing the first job of the queue takes it off the count. -/
theorem owed_cons {job : Job} {rest : List Job} (h : m.ready = job :: rest) (p : Job → Bool) :
    m.owed p = { m with ready := rest }.owed p + if p job then 1 else 0 := by
  simp only [owed, h, List.countP_cons]
  show _ = _ + ∑ b ∈ Finset.range m.branches.size, (m.branch b).notices.countP _ + _
  omega

theorem owed_of_notices {k : Schedule} (hs : k.branches.size = m.branches.size)
    (hb : b < m.branches.size)
    (hn : ∀ b', b' ≠ b → (k.branch b').notices = (m.branch b').notices) (p : Job → Bool) :
    k.owed p + m.ready.countP p + (m.branch b).notices.countP (fun n => p (.notify b n)) =
      m.owed p + k.ready.countP p + (k.branch b).notices.countP (fun n => p (.notify b n)) := by
  have h := sum_range_of_eq_off (n := m.branches.size)
    (f := fun i => (k.branch i).notices.countP fun n => p (.notify i n))
    (g := fun i => (m.branch i).notices.countP fun n => p (.notify i n)) hb
    fun i hi => by rw [hn i hi]
  simp only [owed, hs]
  omega

/-- A job that is owed is in the queue, or kept with an existing branch. -/
theorem exists_of_owed_pos {p : Job → Bool} (h : 0 < m.owed p) :
    (∃ job ∈ m.ready, p job = true) ∨
      ∃ b < m.branches.size, ∃ n ∈ (m.branch b).notices, p (.notify b n) = true := by
  rcases Nat.eq_zero_or_pos (m.ready.countP p) with h₀ | h₀
  · right
    rw [owed, h₀, Nat.zero_add] at h
    obtain ⟨b, hb, hpos⟩ := Finset.exists_ne_zero_of_sum_ne_zero h.ne'
    obtain ⟨n, hn, hp⟩ := List.countP_pos_iff.1 (Nat.pos_of_ne_zero hpos)
    exact ⟨b, Finset.mem_range.1 hb, n, hn, hp⟩
  · exact Or.inl (List.countP_pos_iff.1 h₀)

theorem owed_pos_of_mem_ready {p : Job → Bool} {job : Job} (h : job ∈ m.ready)
    (hp : p job = true) : 0 < m.owed p :=
  Nat.add_pos_left (List.countP_pos_iff.2 ⟨job, h, hp⟩) _

theorem owed_pos_of_mem_notices {p : Job → Bool} {n : Notice} (hb : b < m.branches.size)
    (h : n ∈ (m.branch b).notices) (hp : p (.notify b n) = true) : 0 < m.owed p := by
  refine Nat.add_pos_right _ (Nat.lt_of_lt_of_le
    (List.countP_pos_iff (p := fun n => p (.notify b n)) |>.2 ⟨n, h, hp⟩) ?_)
  exact Finset.single_le_sum (f := fun b => (m.branch b).notices.countP fun n => p (.notify b n))
    (fun _ _ => Nat.zero_le _) (Finset.mem_range.2 hb)

/-! ## Ending a branch -/

@[simp] theorem ready_finish (m : Schedule) (b : BranchId) (o : Except Failure Value) :
    (m.finish b o).ready = m.ready ++ (m.branch b).notices.map (.notify b) := rfl

@[simp] theorem size_finish (m : Schedule) (b : BranchId) (o : Except Failure Value) :
    (m.finish b o).branches.size = m.branches.size := by
  simp [finish, updateBranch, enqueueAll]

theorem branch_finish (m : Schedule) (o : Except Failure Value) (hb : b < m.branches.size)
    (b' : BranchId) : (m.finish b o).branch b' =
      if b' = b then { m.branch b with outcome? := some o, notices := [] } else m.branch b' :=
  m.branch_updateBranch _ hb b'

/-- The notices of a branch that ends go into the queue, so none is lost and none comes in. -/
theorem owed_finish (m : Schedule) (o : Except Failure Value) (hb : b < m.branches.size)
    (p : Job → Bool) : (m.finish b o).owed p = m.owed p := by
  have h := owed_of_notices (k := m.finish b o) (m.size_finish b o) hb
    (fun b' hne => by rw [m.branch_finish o hb, if_neg hne]) p
  rw [m.branch_finish o hb, if_pos rfl, ready_finish, List.countP_append, List.countP_map] at h
  simp only [List.countP_nil] at h
  have hc : (p ∘ Job.notify b) = fun n => p (.notify b n) := rfl
  rw [hc] at h
  omega

/-! ## Asking for notice -/

theorem branch_watch (m : Schedule) (n : Notice) (hb : b < m.branches.size) (b' : BranchId) :
    (m.watch n b).branch b' =
      if b' = b ∧ m.isOpen b then { m.branch b with notices := (m.branch b).notices ++ [n] }
      else m.branch b' := by
  unfold watch
  split
  · next h => simp [branch_updateBranch m _ hb, h]
  · next h => simp [h, enqueue, branch]

@[simp] theorem size_watch (m : Schedule) (n : Notice) (b : BranchId) :
    (m.watch n b).branches.size = m.branches.size := by
  unfold watch
  split <;> simp [enqueue]

@[simp] theorem joins_watch (m : Schedule) (n : Notice) (b : BranchId) :
    (m.watch n b).joins = m.joins := by
  unfold watch
  split <;> rfl

@[simp] theorem timers_watch (m : Schedule) (n : Notice) (b : BranchId) :
    (m.watch n b).timers = m.timers := by
  unfold watch
  split <;> rfl

@[simp] theorem detached_watch (m : Schedule) (n : Notice) (b : BranchId) :
    (m.watch n b).detached = m.detached := by
  unfold watch
  split <;> rfl

@[simp] theorem active_watch (m : Schedule) (n : Notice) (b : BranchId) :
    (m.watch n b).active = m.active := by
  unfold watch
  split <;> rfl

@[simp] theorem store_watch (m : Schedule) (n : Notice) (b : BranchId) :
    (m.watch n b).store = m.store := by
  unfold watch
  split <;> rfl

theorem ready_watch (m : Schedule) (n : Notice) (b : BranchId) :
    (m.watch n b).ready = if m.isOpen b then m.ready else m.ready ++ [.notify b n] := by
  unfold watch
  split <;> rfl

@[simp] theorem outcome?_watch (m : Schedule) (n : Notice) (b b' : BranchId) :
    (m.watch n b).outcome? b' = m.outcome? b' := by
  unfold watch
  split
  · exact branch_updateBranch_eq Branch.outcome?
      (fun x => { x with notices := x.notices ++ [n] }) (fun _ => rfl) m b b'
  · rfl

@[simp] theorem isOpen_watch (m : Schedule) (n : Notice) (b b' : BranchId) :
    (m.watch n b).isOpen b' = m.isOpen b' := by
  simp only [isOpen, outcome?_watch]

@[simp] theorem resume_watch (m : Schedule) (n : Notice) (b b' : BranchId) :
    ((m.watch n b).branch b').resume = (m.branch b').resume := by
  unfold watch
  split
  · exact branch_updateBranch_eq Branch.resume
      (fun x => { x with notices := x.notices ++ [n] }) (fun _ => rfl) m b b'
  · rfl

theorem owed_watch (m : Schedule) (n : Notice) (hb : b < m.branches.size) (p : Job → Bool) :
    (m.watch n b).owed p = m.owed p + if p (.notify b n) then 1 else 0 := by
  by_cases ho : m.isOpen b
  · have h := owed_of_notices (k := m.watch n b) (m.size_watch n b) hb
      (fun b' hne => by rw [m.branch_watch n hb, if_neg (fun h => hne h.1)]) p
    rw [m.branch_watch n hb, if_pos ⟨rfl, ho⟩, ready_watch, if_pos ho] at h
    simp only [List.countP_append, List.countP_singleton] at h
    omega
  · rw [watch, if_neg ho, owed_enqueue]

theorem watchAll_cons (m : Schedule) (n : Notice) (b : BranchId) (bs : List BranchId) :
    m.watchAll n (b :: bs) = (m.watch n b).watchAll n bs := rfl

/-- Whatever a single notice keeps, a row of notices keeps. -/
theorem watchAll_eq {α : Type} (g : Schedule → α) (n : Notice)
    (hg : ∀ m b, g (watch m n b) = g m) (bs : List BranchId) :
    ∀ m : Schedule, g (m.watchAll n bs) = g m := by
  induction bs with
  | nil => exact fun _ => rfl
  | cons b bs ih => exact fun m => (ih _).trans (hg m b)

@[simp] theorem size_watchAll (m : Schedule) (n : Notice) (bs : List BranchId) :
    (m.watchAll n bs).branches.size = m.branches.size :=
  watchAll_eq (fun m => m.branches.size) n (fun m b => m.size_watch n b) bs m

@[simp] theorem joins_watchAll (m : Schedule) (n : Notice) (bs : List BranchId) :
    (m.watchAll n bs).joins = m.joins :=
  watchAll_eq Schedule.joins n (fun m b => m.joins_watch n b) bs m

@[simp] theorem timers_watchAll (m : Schedule) (n : Notice) (bs : List BranchId) :
    (m.watchAll n bs).timers = m.timers :=
  watchAll_eq Schedule.timers n (fun m b => m.timers_watch n b) bs m

@[simp] theorem detached_watchAll (m : Schedule) (n : Notice) (bs : List BranchId) :
    (m.watchAll n bs).detached = m.detached :=
  watchAll_eq Schedule.detached n (fun m b => m.detached_watch n b) bs m

@[simp] theorem active_watchAll (m : Schedule) (n : Notice) (bs : List BranchId) :
    (m.watchAll n bs).active = m.active :=
  watchAll_eq Schedule.active n (fun m b => m.active_watch n b) bs m

@[simp] theorem store_watchAll (m : Schedule) (n : Notice) (bs : List BranchId) :
    (m.watchAll n bs).store = m.store :=
  watchAll_eq Schedule.store n (fun m b => m.store_watch n b) bs m

@[simp] theorem outcome?_watchAll (m : Schedule) (n : Notice) (bs : List BranchId)
    (b' : BranchId) : (m.watchAll n bs).outcome? b' = m.outcome? b' :=
  watchAll_eq (fun m => m.outcome? b') n (fun m b => m.outcome?_watch n b b') bs m

@[simp] theorem isOpen_watchAll (m : Schedule) (n : Notice) (bs : List BranchId)
    (b' : BranchId) : (m.watchAll n bs).isOpen b' = m.isOpen b' := by
  simp only [isOpen, outcome?_watchAll]

@[simp] theorem resume_watchAll (m : Schedule) (n : Notice) (bs : List BranchId)
    (b' : BranchId) : ((m.watchAll n bs).branch b').resume = (m.branch b').resume :=
  watchAll_eq (fun m => (m.branch b').resume) n (fun m b => m.resume_watch n b b') bs m

theorem owed_watchAll (n : Notice) (p : Job → Bool) {bs : List BranchId} :
    ∀ {m : Schedule}, (∀ b ∈ bs, b < m.branches.size) →
      (m.watchAll n bs).owed p = m.owed p + bs.countP fun b => p (.notify b n) := by
  induction bs with
  | nil => exact fun _ => rfl
  | cons b bs ih =>
    intro m h
    rw [watchAll_cons, ih fun b' hb' => by simpa using h b' (List.mem_cons_of_mem b hb'),
      owed_watch m n (h b List.mem_cons_self), List.countP_cons]
    omega

theorem mem_notices_watch (m : Schedule) (n : Notice) (hb : b < m.branches.size) {b' : BranchId}
    {n' : Notice} : n' ∈ ((m.watch n b).branch b').notices ↔
      n' ∈ (m.branch b').notices ∨ (n' = n ∧ b' = b ∧ m.isOpen b = true) := by
  rw [m.branch_watch n hb]
  split
  · next h =>
    obtain ⟨rfl, ho⟩ := h
    simp [ho]
  · next h =>
    constructor
    · exact Or.inl
    · rintro (h' | ⟨-, rfl, ho⟩)
      · exact h'
      · exact absurd ⟨rfl, ho⟩ h

theorem mem_notices_watchAll {n n' : Notice} {bs : List BranchId} :
    ∀ {m : Schedule}, (∀ b ∈ bs, b < m.branches.size) → ∀ {b' : BranchId},
      (n' ∈ ((m.watchAll n bs).branch b').notices ↔
        n' ∈ (m.branch b').notices ∨ (n' = n ∧ b' ∈ bs ∧ m.isOpen b' = true)) := by
  induction bs with
  | nil => simp [watchAll]
  | cons b bs ih =>
    intro m h b'
    rw [watchAll_cons, ih fun b' hb' => by simpa using h b' (List.mem_cons_of_mem b hb'),
      mem_notices_watch m n (h b List.mem_cons_self)]
    simp only [isOpen_watch, List.mem_cons]
    constructor
    · rintro ((h₁ | ⟨h₁, rfl, h₂⟩) | ⟨h₁, h₂, h₃⟩)
      · exact Or.inl h₁
      · exact Or.inr ⟨h₁, Or.inl rfl, h₂⟩
      · exact Or.inr ⟨h₁, Or.inr h₂, h₃⟩
    · rintro (h₁ | ⟨h₁, rfl | h₂, h₃⟩)
      · exact Or.inl (Or.inl h₁)
      · exact Or.inl (Or.inr ⟨h₁, rfl, h₃⟩)
      · exact Or.inr ⟨h₁, h₂, h₃⟩

theorem ready_watchAll (n : Notice) (bs : List BranchId) :
    ∀ m : Schedule, (m.watchAll n bs).ready =
      m.ready ++ (bs.filter fun b => !m.isOpen b).map fun b => .notify b n := by
  induction bs with
  | nil => simp [watchAll]
  | cons b bs ih =>
    intro m
    rw [watchAll_cons, ih, ready_watch]
    simp only [isOpen_watch]
    by_cases ho : m.isOpen b
    · rw [if_pos ho, List.filter_cons_of_neg (by simp [ho])]
    · rw [if_neg ho, List.filter_cons_of_pos (by simp [ho])]
      simp

/-- The schedule with nobody's turn. -/
def idle (m : Schedule) : Schedule := { m with active := none }

theorem watch_idle (m : Schedule) (n : Notice) (b : BranchId) :
    m.idle.watch n b = (m.watch n b).idle := by
  unfold watch
  by_cases ho : m.isOpen b
  · rw [if_pos ho, if_pos (show m.idle.isOpen b = true from ho)]
    rfl
  · rw [if_neg ho, if_neg (show ¬m.idle.isOpen b = true from ho)]
    rfl

theorem watchAll_idle (n : Notice) (bs : List BranchId) :
    ∀ m : Schedule, m.idle.watchAll n bs = (m.watchAll n bs).idle := by
  induction bs with
  | nil => exact fun _ => rfl
  | cons b bs ih => exact fun m => by rw [watchAll_cons, watch_idle, ih, watchAll_cons]

/-! ## Leaving branches behind -/

/-- The schedule with other branches left behind. -/
def withDetached (m : Schedule) (bs : List BranchId) : Schedule := { m with detached := bs }

theorem watch_withDetached (m : Schedule) (ds : List BranchId) (n : Notice) (b : BranchId) :
    (m.withDetached ds).watch n b = (m.watch n b).withDetached ds := by
  unfold watch
  by_cases ho : m.isOpen b
  · rw [if_pos ho, if_pos (show (m.withDetached ds).isOpen b = true from ho)]
    rfl
  · rw [if_neg ho, if_neg (show ¬(m.withDetached ds).isOpen b = true from ho)]
    rfl

theorem watchAll_withDetached (ds : List BranchId) (n : Notice) (bs : List BranchId) :
    ∀ m : Schedule, (m.withDetached ds).watchAll n bs = (m.watchAll n bs).withDetached ds := by
  induction bs with
  | nil => exact fun _ => rfl
  | cons b bs ih => exact fun m => by rw [watchAll_cons, watch_withDetached, ih, watchAll_cons]

/-- Leaving branches behind puts them at the end of the list and asks for notice of each. -/
theorem foldl_detach_eq (bs : List BranchId) : ∀ m : Schedule,
    bs.foldl detach m = (m.watchAll .forget bs).withDetached (m.detached ++ bs) := by
  induction bs with
  | nil => intro m; simp [watchAll, withDetached]
  | cons b bs ih =>
    intro m
    have h : m.detach b = (m.watch .forget b).withDetached (m.detached ++ [b]) :=
      m.watch_withDetached _ _ _
    rw [List.foldl_cons, ih, h, watchAll_withDetached, watchAll_cons]
    simp [withDetached]

theorem detachOpen_eq (m : Schedule) (bs : List BranchId) :
    m.detachOpen bs = (m.watchAll .forget (bs.filter m.isOpen)).withDetached
      (m.detached ++ bs.filter m.isOpen) :=
  foldl_detach_eq _ m

/-! ## Counting and striking off -/

/-- Counting changes the join, and may wake its owner; whatever that keeps, counting keeps. -/
theorem count_eq {α : Type} (g : Schedule → α) (hu : ∀ m j f, g (updateJoin m j f) = g m)
    (he : ∀ m j, g (enqueue m (.wake j)) = g m) (m : Schedule) (j : JoinId) (b : BranchId) :
    g (m.count j b) = g m := by
  have hs : ∀ (m : Schedule) f?, g (m.settle j f?) = g m := fun m f? => (he _ _).trans (hu _ _ _)
  unfold count
  dsimp only
  split
  · exact hu _ _ _
  · split
    · exact (hs _ _).trans (hu _ _ _)
    · split
      · exact (hs _ _).trans (hu _ _ _)
      · exact hu _ _ _
    · split
      · exact (hs _ _).trans (hu _ _ _)
      · split
        · exact (hs _ _).trans (hu _ _ _)
        · exact hu _ _ _

@[simp] theorem branches_count (m : Schedule) (j : JoinId) (b : BranchId) :
    (m.count j b).branches = m.branches :=
  count_eq Schedule.branches (fun _ _ _ => rfl) (fun _ _ => rfl) m j b

@[simp] theorem active_count (m : Schedule) (j : JoinId) (b : BranchId) :
    (m.count j b).active = m.active :=
  count_eq Schedule.active (fun _ _ _ => rfl) (fun _ _ => rfl) m j b

@[simp] theorem detached_count (m : Schedule) (j : JoinId) (b : BranchId) :
    (m.count j b).detached = m.detached :=
  count_eq Schedule.detached (fun _ _ _ => rfl) (fun _ _ => rfl) m j b

@[simp] theorem branches_forget (m : Schedule) (b : BranchId) :
    (m.forget b).branches = m.branches := by
  unfold forget
  dsimp only
  split <;> rfl

@[simp] theorem active_forget (m : Schedule) (b : BranchId) : (m.forget b).active = m.active := by
  unfold forget
  dsimp only
  split <;> rfl

@[simp] theorem joins_forget (m : Schedule) (b : BranchId) : (m.forget b).joins = m.joins := by
  unfold forget
  dsimp only
  split <;> rfl

@[simp] theorem ready_forget (m : Schedule) (b : BranchId) : (m.forget b).ready = m.ready := by
  unfold forget
  dsimp only
  split <;> rfl

theorem timers_forget (m : Schedule) (b : BranchId) : (m.forget b).timers = m.timers := by
  unfold forget
  dsimp only
  split <;> rfl

@[simp] theorem detached_forget (m : Schedule) (b : BranchId) :
    (m.forget b).detached = m.detached.filter (· != b) := by
  unfold forget
  dsimp only
  split <;> rfl

/-- A jump of the clock only turns timers into jobs. -/
theorem jump_eq {m' : Schedule} (h : m.jump = some m') : m'.branches = m.branches ∧
    m'.joins = m.joins ∧ m'.detached = m.detached ∧ m'.active = m.active ∧
      ∃ ts : List Timer, m'.ready = ts.map fun t => .ring t.branch := by
  unfold jump at h
  split at h
  · cases h
  · cases h
    exact ⟨rfl, rfl, rfl, rfl, _, rfl⟩

/-! ## Starting branches -/

theorem branch_push (bs : Array Branch) (x : Branch) (b : Nat) :
    (bs.push x).getD b default = if b = bs.size then x else bs.getD b default := by
  by_cases h : b = bs.size
  · subst h
    simp [Array.getD]
  · rw [if_neg h]
    by_cases hb : b < bs.size
    · simp [Array.getD, hb, Array.getElem_push_lt hb, Nat.lt_succ_of_lt hb]
    · have : ¬b < bs.size + 1 := by omega
      simp [Array.getD, hb, this]

/-- The numbers of new branches follow those that are there. -/
theorem spawnAll_fst (rs : List (Routine Value)) :
    ∀ m : Schedule, (m.spawnAll rs).1 = List.range' m.branches.size rs.length := by
  induction rs with
  | nil => exact fun _ => rfl
  | cons r rs ih =>
    intro m
    have h := ih (m.spawn r).2
    rw [show (m.spawn r).2.branches.size = m.branches.size + 1 by simp [spawn]] at h
    show m.branches.size :: ((m.spawn r).2.spawnAll rs).1 = _
    rw [h]
    rfl

/-- Branches that start wait at the end of the queue. -/
theorem spawnAll_snd (rs : List (Routine Value)) :
    ∀ m : Schedule, (m.spawnAll rs).2 = { m with
      branches := m.branches ++ (rs.map fun r => (⟨fun _ => r, none, []⟩ : Branch)).toArray
      ready := m.ready ++ (List.range' m.branches.size rs.length).map .resume } := by
  induction rs with
  | nil => intro m; simp [spawnAll]
  | cons r rs ih =>
    intro m
    show ((m.spawn r).2.spawnAll rs).2 = _
    rw [ih]
    simp [spawn, List.range'_succ]

end Schedule

end Conductor
