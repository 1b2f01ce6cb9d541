import Conductor.Proofs.Schedule.Jobs

/-!
# Every open branch will go on in exactly one way

A branch that has not ended is active, or a job in the queue lets it go on, or a timer does, or it
owns a join that has not settled; and it is only one of these. A join that has not settled still
has branches to count, and for each of them a notice is on its way.

`Balanced held m` says all this of a schedule `m`. While a step is being made the branch whose turn
it is may be in none of the four places; `held` names that branch.

**Theorem (`Balanced.step`).** Every step keeps a schedule balanced.

The proof has one lemma for each operation. Most of them only say which count goes up and which goes
down; `count` is the one with an argument: when the last branch of a join has been counted, no
notice for the join is on its way any more, so none of its branches is open and none has failed.
-/

namespace Conductor

namespace Schedule

variable {m : Schedule} {held : Option Nat} {b : Nat}

/-! ## Prospects -/

/-- Whether a job lets a branch go on. -/
def lets (m : Schedule) (b : Nat) : Job → Bool
  | .resume b' | .ring b' => b' == b
  | .wake j => (m.join j).owner == b
  | .notify .. => false

/-- The joins that have not settled and that a branch owns. -/
def waitsIn (m : Schedule) (b : Nat) : Finset Nat :=
  (Finset.range m.joins.size).filter fun j =>
    (m.join j).settled = false ∧ (m.join j).owner = b

/-- One for the branch whose turn it is, and zero for all others. -/
def turn (m : Schedule) (b : Nat) : Nat :=
  match m.active with
  | some (b', _) => if b' = b then 1 else 0
  | none => 0

/-- In how many ways a branch is going on, or will be. -/
def prospects (m : Schedule) (b : Nat) : Nat :=
  m.turn b + m.ready.countP (m.lets b) + m.timers.countP (·.branch == b) + (m.waitsIn b).card

/-- What a join still waits for, by its kind. -/
def Waiting (x : Join) : Prop :=
  match x.kind with
  | .first => x.counted = 0 ∧ x.branches ≠ []
  | .all | .ended => x.counted < x.branches.length

/-- Every open branch will go on in exactly one way, apart from the one that is held, and every
join counts its branches. -/
structure Balanced (held : Option Nat) (m : Schedule) : Prop where
  prospects : ∀ b, m.prospects b + (if held = some b then 1 else 0) =
    if b < m.branches.size ∧ m.isOpen b then 1 else 0
  owner : ∀ j < m.joins.size, (m.join j).owner < m.branches.size
  counted : ∀ j < m.joins.size,
    (m.join j).counted + m.owed (isCountFor j) = (m.join j).branches.length
  branches : ∀ j < m.joins.size, ∀ b ∈ (m.join j).branches, b < m.branches.size
  asked : ∀ j < m.joins.size, ∀ b ∈ (m.join j).branches, m.isOpen b →
    .count j ∈ (m.branch b).notices
  asking : ∀ b < m.branches.size, ∀ j, .count j ∈ (m.branch b).notices →
    j < m.joins.size ∧ b ∈ (m.join j).branches
  silent : ∀ b, m.isOpen b = false → (m.branch b).notices = []
  noticed : ∀ b n, .notify b n ∈ m.ready → m.isOpen b = false ∧
    ∀ j, n = .count j → j < m.joins.size ∧ b ∈ (m.join j).branches
  waking : ∀ j, .wake j ∈ m.ready → j < m.joins.size ∧ (m.join j).settled
  waiting : ∀ j < m.joins.size, (m.join j).settled = false → Waiting (m.join j)
  failing : ∀ j < m.joins.size, (m.join j).kind = .all → (m.join j).settled = false →
    ∀ b ∈ (m.join j).branches, ∀ f, m.outcome? b = some (.error f) →
      .notify b (.count j) ∈ m.ready
  failed : ∀ j < m.joins.size, ∀ f, (m.join j).failure? = some f →
    ∃ b ∈ (m.join j).branches, m.outcome? b = some (.error f)
  succeeded : ∀ j < m.joins.size, (m.join j).kind = .all → (m.join j).settled →
    (m.join j).failure? = none → ∀ b ∈ (m.join j).branches, ∃ v, m.outcome? b = some (.ok v)
  decided : ∀ j < m.joins.size, (m.join j).kind = .first → (m.join j).settled →
    ∃ b ∈ (m.join j).branches, m.isOpen b = false
  left : ∀ b ∈ m.detached, b < m.branches.size

/-! ## Reading the balance -/

theorem lets_congr {k : Schedule} (h : ∀ j, (k.join j).owner = (m.join j).owner) (b : Nat) :
    k.lets b = m.lets b := by
  funext job
  cases job <;> simp [lets, h]

theorem mem_waitsIn {j : Nat} : j ∈ m.waitsIn b ↔
    j < m.joins.size ∧ (m.join j).settled = false ∧ (m.join j).owner = b := by
  simp [waitsIn]

/-- Notices let no branch go on. -/
theorem countP_lets_notify {α : Type} (m : Schedule) (b : Nat) (f : α → Nat) (g : α → Notice)
    (l : List α) : (l.map fun a => Job.notify (f a) (g a)).countP (m.lets b) = 0 := by
  rw [List.countP_map]
  exact List.countP_eq_zero.2 fun a _ => by simp [lets]

theorem waitsIn_congr {k : Schedule} (h : k.joins = m.joins) (b : Nat) :
    k.waitsIn b = m.waitsIn b := by
  ext j
  simp only [mem_waitsIn, join, h]

/-- A branch that will go on, or that is held, is open, and it has no second prospect. -/
theorem Balanced.of_pos (h : Balanced held m)
    (hb : 0 < m.prospects b + if held = some b then 1 else 0) :
    b < m.branches.size ∧ m.isOpen b = true ∧
      m.prospects b + (if held = some b then 1 else 0) = 1 := by
  have hp := h.prospects b
  by_cases ho : b < m.branches.size ∧ m.isOpen b = true
  · rw [if_pos ho] at hp
    exact ⟨ho.1, ho.2, hp⟩
  · rw [if_neg ho] at hp
    omega

theorem Balanced.of_held (h : Balanced (some b) m) :
    b < m.branches.size ∧ m.isOpen b = true ∧ m.prospects b = 0 := by
  obtain ⟨hb, ho, hp⟩ := h.of_pos (b := b) (by simp)
  rw [if_pos rfl] at hp
  exact ⟨hb, ho, by omega⟩

theorem countP_pos_of_mem {α : Type} {p : α → Bool} {l : List α} {a : α} (h : a ∈ l)
    (hp : p a = true) : 0 < l.countP p := List.countP_pos_iff.2 ⟨a, h, hp⟩

/-- A join that has settled without its owner going on yet keeps its owner waiting. -/
theorem prospects_pos_of_wake {j : Nat} (h : .wake j ∈ m.ready) :
    0 < m.prospects (m.join j).owner := by
  have := countP_pos_of_mem h (p := m.lets (m.join j).owner) (by simp [lets])
  unfold Schedule.prospects
  omega

theorem prospects_pos_of_unsettled {j : Nat} (hj : j < m.joins.size)
    (h : (m.join j).settled = false) : 0 < m.prospects (m.join j).owner := by
  have := Finset.card_pos.2 ⟨j, mem_waitsIn.2 ⟨hj, h, rfl⟩⟩
  unfold Schedule.prospects
  omega

/-- The queue does not wake a join that has not settled. -/
theorem Balanced.wake_notMem (h : Balanced held m) {j : Nat}
    (hs : (m.join j).settled = false) : .wake j ∉ m.ready := by
  intro hw
  have := (h.waking j hw).2
  rw [hs] at this
  cases this

/-- Branches end as before and joins stay as they are, and so do the notices for joins. What lets a
branch go on may move to another place, and the notices that strike branches off may change. -/
theorem Balanced.transfer {m' : Schedule} {held' : Option Nat} (h : Balanced held m)
    (hs : m'.branches.size = m.branches.size) (ho : ∀ b, m'.outcome? b = m.outcome? b)
    (hj : m'.joins = m.joins)
    (hp : ∀ b, m'.turn b + m'.ready.countP (m.lets b) + m'.timers.countP (·.branch == b) +
        (if held' = some b then 1 else 0) =
      m.turn b + m.ready.countP (m.lets b) + m.timers.countP (·.branch == b) +
        if held = some b then 1 else 0)
    (hc : ∀ b j, .notify b (.count j) ∈ m'.ready ↔ .notify b (.count j) ∈ m.ready)
    (hw : ∀ j, .wake j ∈ m'.ready → .wake j ∈ m.ready)
    (he : ∀ j, m'.owed (isCountFor j) = m.owed (isCountFor j))
    (hn : ∀ b j, .count j ∈ (m'.branch b).notices ↔ .count j ∈ (m.branch b).notices)
    (hq : ∀ b, m.isOpen b = false → (m'.branch b).notices = [])
    (hf : ∀ b, .notify b .forget ∈ m'.ready → m.isOpen b = false)
    (hd : ∀ b ∈ m'.detached, b < m.branches.size) : Balanced held' m' := by
  have hopen : ∀ b, m'.isOpen b = m.isOpen b := fun b => by simp only [isOpen, ho]
  have hjoin : ∀ j, m'.join j = m.join j := fun j => by simp only [join, hj]
  constructor
  case prospects =>
    intro b
    have hl : m'.lets b = m.lets b := lets_congr (fun j => congrArg Join.owner (hjoin j)) b
    have h₁ := h.prospects b
    have h₂ := hp b
    rw [Schedule.prospects, waitsIn_congr hj, hl, hs, hopen]
    rw [Schedule.prospects] at h₁
    omega
  case silent =>
    intro b hb
    rw [hopen] at hb
    exact hq b hb
  case noticed =>
    intro b n hb
    rw [hopen, hj]
    simp only [hjoin]
    cases n with
    | count j => exact h.noticed b _ ((hc b j).1 hb)
    | forget => exact ⟨hf b hb, fun j hj => by cases hj⟩
  case waking => intro j hw'; rw [hj, hjoin]; exact h.waking j (hw j hw')
  case left => intro b hb; rw [hs]; exact hd b hb
  all_goals
    simp only [hs, ho, hj, hopen, hjoin, he, hn, hc]
  exacts [h.owner, h.counted, h.branches, h.asked, h.asking, h.waiting, h.failing, h.failed,
    h.succeeded, h.decided]

/-- Whatever the balance does not speak of may change. -/
theorem Balanced.congr {m' : Schedule} (h : Balanced held m)
    (hs : m'.branches.size = m.branches.size) (ho : ∀ b, m'.outcome? b = m.outcome? b)
    (hn : ∀ b, (m'.branch b).notices = (m.branch b).notices) (hj : m'.joins = m.joins)
    (hr : m'.ready = m.ready) (ht : m'.timers = m.timers) (ha : m'.active = m.active)
    (hd : m'.detached = m.detached) : Balanced held m' := by
  refine h.transfer hs ho hj (fun b => by simp only [turn, hr, ht, ha]) (fun b j => by rw [hr])
    (fun j => by rw [hr]; exact id) (fun j => owed_congr hr hs hn _) (fun b j => by rw [hn])
    (fun b hb => by rw [hn]; exact h.silent b hb) (fun b hb => ?_) fun b hb => ?_
  · rw [hr] at hb
    exact (h.noticed b _ hb).1
  · rw [hd] at hb
    exact h.left b hb

/-! ## Turns, sleeps and jumps of the clock -/

/-- Branches and joins stay as they are, and so do the notices in the queue. What lets a branch go
on may move to another place. -/
theorem Balanced.move {m' : Schedule} {held' : Option Nat} (h : Balanced held m)
    (hb : m'.branches = m.branches) (hj : m'.joins = m.joins) (hd : m'.detached = m.detached)
    (hn : ∀ b n, .notify b n ∈ m'.ready ↔ .notify b n ∈ m.ready)
    (hw : ∀ j, .wake j ∈ m'.ready → .wake j ∈ m.ready)
    (hc : ∀ j, m'.ready.countP (isCountFor j) = m.ready.countP (isCountFor j))
    (hp : ∀ b, m'.turn b + m'.ready.countP (m.lets b) + m'.timers.countP (·.branch == b) +
        (if held' = some b then 1 else 0) =
      m.turn b + m.ready.countP (m.lets b) + m.timers.countP (·.branch == b) +
        if held = some b then 1 else 0) : Balanced held' m' := by
  have hbranch : ∀ b, m'.branch b = m.branch b := fun b => by simp only [branch, hb]
  refine h.transfer (by rw [hb]) (fun b => by simp only [outcome?, hbranch]) hj hp
    (fun b j => hn b _) hw (fun j => by simp only [owed, hb, hbranch, hc])
    (fun b j => by rw [hbranch]) (fun b hb' => by rw [hbranch]; exact h.silent b hb')
    (fun b hb' => (h.noticed b _ ((hn b _).1 hb')).1) fun b hb' => ?_
  rw [hd] at hb'
  exact h.left b hb'

/-- A step of the active branch has it in its hands. -/
theorem Balanced.take (h : Balanced none m) {r : Routine Value} (ha : m.active = some (b, r)) :
    Balanced (some b) m.idle := by
  refine h.move rfl rfl rfl (fun _ _ => Iff.rfl) (fun _ => id) (fun _ => rfl) fun b' => ?_
  simp only [turn, idle, ha, Option.some.injEq, reduceCtorEq, if_false]
  omega

theorem Balanced.activate (h : Balanced (some b) m) (ha : m.active = none) (r : Routine Value) :
    Balanced none (m.activate b r) := by
  refine h.move rfl rfl rfl (fun _ _ => Iff.rfl) (fun _ => id) (fun _ => rfl) fun b' => ?_
  simp only [turn, Schedule.activate, ha, Option.some.injEq, reduceCtorEq, if_false]
  omega

/-- How a branch goes on when its turn comes does not matter for the balance. -/
theorem Balanced.suspend (h : Balanced held m) (ha : m.active = none)
    (resume : Outcome → Routine Value) : Balanced held (m.suspend b resume) :=
  h.congr (m.size_updateBranch b _)
    (branch_updateBranch_eq Branch.outcome? (fun x => { x with resume }) (fun _ => rfl) m b)
    (branch_updateBranch_eq Branch.notices (fun x => { x with resume }) (fun _ => rfl) m b)
    rfl rfl rfl ha.symm rfl

/-- The held branch gets a place at the end of the queue. -/
theorem Balanced.enqueueResume (h : Balanced (some b) m) :
    Balanced none (m.enqueue (.resume b)) := by
  refine h.move rfl rfl rfl (fun _ _ => by simp [enqueue]) (fun _ => by simp [enqueue])
    (fun _ => by simp [enqueue, isCountFor]) fun b' => ?_
  simp only [turn, enqueue, List.countP_append, List.countP_singleton, lets, beq_iff_eq,
    Option.some.injEq, reduceCtorEq, if_false]
  omega

/-- The held branch gets a timer. -/
theorem Balanced.addTimer (h : Balanced (some b) m) (due : Binary64) :
    Balanced none { m with timers := m.timers ++ [⟨due, b⟩] } := by
  refine Balanced.move h rfl rfl rfl (fun _ _ => Iff.rfl) (fun _ => id) (fun _ => rfl) fun b' => ?_
  simp only [turn, List.countP_append, List.countP_singleton, beq_iff_eq, Option.some.injEq,
    reduceCtorEq, if_false]
  omega

theorem Balanced.sleep (h : Balanced (some b) m) (ha : m.active = none) (seconds : Binary64)
    (resume : Outcome → Routine Value) : Balanced none (m.sleep b seconds resume) := by
  unfold Schedule.sleep
  split
  · exact (h.suspend ha resume).addTimer _
  · exact (h.suspend ha resume).enqueueResume

/-- The schedule with other jobs in the queue. -/
def withReady (m : Schedule) (jobs : List Job) : Schedule := { m with ready := jobs }

/-- A job of the queue that is no notice hands over the branch that it lets go on. -/
theorem Balanced.pop {job : Job} {rest : List Job} (h : Balanced none m)
    (hr : m.ready = job :: rest) (hb : ∀ b', m.lets b' job = (b == b'))
    (hn : ∀ b n, job ≠ .notify b n) : Balanced (some b) (m.withReady rest) := by
  have hmem : ∀ x, x ∈ m.ready ↔ x = job ∨ x ∈ rest := fun x => by rw [hr, List.mem_cons]
  refine h.move rfl rfl rfl (fun b n => ?_) (fun j hj => (hmem _).2 (Or.inr hj)) (fun j => ?_)
    fun b' => ?_
  · rw [hmem]
    exact ⟨Or.inr, fun h => h.resolve_left (hn b n).symm⟩
  · rw [hr, List.countP_cons_of_neg]
    · rfl
    · cases job <;> simp [isCountFor]
      exact absurd rfl (hn _ _)
  · rw [hr, List.countP_cons, hb b']
    simp only [turn, withReady, beq_iff_eq, Option.some.injEq, reduceCtorEq, if_false]
    omega

/-- The timers of a branch are those that are due and those that are not. -/
theorem countP_timers_split (ts : List Timer) (d : Binary64) (b : Nat) :
    ts.countP (·.branch == b) = (ts.filter fun t => !d.lt t.due).countP (·.branch == b) +
      (ts.filter fun t => d.lt t.due).countP (·.branch == b) := by
  induction ts with
  | nil => rfl
  | cons t ts ih =>
    cases hd : d.lt t.due <;> simp only [List.filter_cons, hd, Bool.not_true, Bool.not_false,
      if_true, Bool.false_eq_true, if_false, List.countP_cons] <;> omega

/-- Every timer that is due becomes a job, and none is lost. -/
theorem Balanced.jump {m' : Schedule} (h : Balanced held m) (hr : m.ready = [])
    (hm : m.jump = some m') : Balanced held m' := by
  unfold Schedule.jump at hm
  split at hm
  · cases hm
  · next d _ =>
    cases hm
    refine h.move rfl rfl rfl (fun b n => by simp [hr]) (fun j hj => by simp at hj)
      (fun j => ?_) fun b' => ?_
    · rw [hr, List.countP_map]
      exact List.countP_eq_zero.2 fun t _ => by simp [isCountFor]
    · have hring : (m.lets b' ∘ fun t : Timer => Job.ring t.branch) = fun t => t.branch == b' :=
        rfl
      rw [countP_timers_split m.timers d b', hr]
      simp only [turn, List.countP_map, hring, List.countP_nil]
      omega

/-! ## Branches that end and branches that start -/

theorem outcome?_finish (m : Schedule) (o : Except Failure Value) (hb : b < m.branches.size)
    (b' : Nat) : (m.finish b o).outcome? b' = if b' = b then some o else m.outcome? b' := by
  rw [outcome?, m.branch_finish o hb]
  split <;> rfl

/-- An open branch that ends is not among those that have ended before. -/
theorem outcome?_finish_of_some (o : Except Failure Value) (hb : b < m.branches.size)
    (ho : m.isOpen b = true) {b' : Nat} {o' : Except Failure Value}
    (h : m.outcome? b' = some o') : (m.finish b o).outcome? b' = some o' := by
  rw [m.outcome?_finish o hb]
  split
  · next heq =>
    rw [isOpen, ← heq, h] at ho
    cases ho
  · exact h

theorem Balanced.finish (h : Balanced (some b) m) (ha : m.active = none)
    (o : Except Failure Value) : Balanced none (m.finish b o) := by
  obtain ⟨hb, ho, hp⟩ := h.of_held
  have hout := m.outcome?_finish o hb
  have hkeep : ∀ {b' : Nat} {o' : Except Failure Value}, m.outcome? b' = some o' →
      (m.finish b o).outcome? b' = some o' := outcome?_finish_of_some o hb ho
  have hopen : ∀ b', (m.finish b o).isOpen b' = (!decide (b' = b) && m.isOpen b') := by
    intro b'
    rw [isOpen, hout]
    by_cases hbb : b' = b <;> simp [hbb, isOpen]
  have hclosed : ∀ {b' : Nat}, m.isOpen b' = false → (m.finish b o).isOpen b' = false := by
    intro b' hc
    rw [hopen, hc, Bool.and_false]
  have hmem : ∀ {j : Nat}, j < m.joins.size → ∀ b' ∈ (m.join j).branches,
      (m.finish b o).isOpen b' = true → b' ≠ b ∧ m.isOpen b' = true := by
    intro j _ b' _ hop
    rw [hopen] at hop
    simpa using hop
  constructor
  case prospects =>
    intro b'
    have hl : (m.ready ++ (m.branch b).notices.map (Job.notify b)).countP (m.lets b') =
        m.ready.countP (m.lets b') := by
      rw [List.countP_append, countP_lets_notify, Nat.add_zero]
    have h₁ : (m.finish b o).prospects b' = m.prospects b' := by
      show (m.finish b o).turn b' + List.countP ((m.finish b o).lets b') _ + _ +
        ((m.finish b o).waitsIn b').card = _
      rw [lets_congr (k := m.finish b o) (m := m) (fun _ => rfl) b',
        waitsIn_congr (k := m.finish b o) (m := m) rfl b', ready_finish, hl, Schedule.prospects,
        turn, turn, ha]
      rfl
    have h₂ := h.prospects b'
    rw [h₁, size_finish, hopen]
    by_cases hbb : b' = b
    · subst hbb
      simpa using hp
    · rw [if_neg (by simpa using Ne.symm hbb)] at h₂
      simpa [hbb] using h₂
  case owner => intro j hj; rw [size_finish]; exact h.owner j hj
  case counted => intro j hj; rw [m.owed_finish o hb]; exact h.counted j hj
  case branches => intro j hj b' hb'; rw [size_finish]; exact h.branches j hj b' hb'
  case asked =>
    intro j hj b' hb' hop
    obtain ⟨hne, hop'⟩ := hmem hj b' hb' hop
    rw [m.branch_finish o hb, if_neg hne]
    exact h.asked j hj b' hb' hop'
  case asking =>
    intro b' hb' j hj
    rw [size_finish] at hb'
    rw [m.branch_finish o hb] at hj
    split at hj
    · cases hj
    · exact h.asking b' hb' j hj
  case silent =>
    intro b' hc
    rw [m.branch_finish o hb]
    split
    · rfl
    · next hne =>
      rw [hopen] at hc
      exact h.silent b' (by simpa [hne] using hc)
  case noticed =>
    intro b' n hn
    rw [ready_finish, List.mem_append] at hn
    rcases hn with hn | hn
    · exact ⟨hclosed (h.noticed b' n hn).1, (h.noticed b' n hn).2⟩
    · obtain ⟨n', hn', heq⟩ := List.mem_map.1 hn
      cases heq
      exact ⟨by simp [hopen], fun j hj => h.asking b hb j (hj ▸ hn')⟩
  case waking =>
    intro j hj
    rw [ready_finish, List.mem_append] at hj
    rcases hj with hj | hj
    · exact h.waking j hj
    · obtain ⟨_, _, heq⟩ := List.mem_map.1 hj
      cases heq
  case waiting => exact h.waiting
  case failing =>
    intro j hj hk hs b' hb' f hf
    rw [ready_finish, List.mem_append]
    rw [hout] at hf
    split at hf
    · next heq =>
      subst heq
      exact Or.inr (List.mem_map_of_mem (h.asked j hj b' hb' ho))
    · exact Or.inl (h.failing j hj hk hs b' hb' f hf)
  case failed =>
    intro j hj f hf
    obtain ⟨b', hb', hf'⟩ := h.failed j hj f hf
    exact ⟨b', hb', hkeep hf'⟩
  case succeeded =>
    intro j hj hk hs hf b' hb'
    obtain ⟨v, hv⟩ := h.succeeded j hj hk hs hf b' hb'
    exact ⟨v, hkeep hv⟩
  case decided =>
    intro j hj hk hs
    obtain ⟨b', hb', hc⟩ := h.decided j hj hk hs
    exact ⟨b', hb', hclosed hc⟩
  case left => intro b' hb'; rw [size_finish]; exact h.left b' hb'

end Schedule

end Conductor
