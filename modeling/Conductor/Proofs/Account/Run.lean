import Conductor.Proofs.Schedule.Lines

/-!
# Runs, moment by moment

A run lists the schedules of all moments: from each to the next a step is made, or a routine begins
while nobody has the turn, or nothing is left to do. An action takes one moment, so the number of a
moment tells what came before what.

Main results: a branch without the turn keeps waiting for what it waits for (`Awaits.next`), and
when it gets the turn, what it waited for explains how it goes on (`Resumes`, `Joined`).
-/

namespace Conductor

namespace Schedule

variable {m m' : Schedule} {b d : Nat} {body : Procedure → Routine Value}

/-! ## Waiting -/

/-- What can give a branch the turn that does not have it. -/
inductive Prospect where
  /-- The end of a sleep, or the beginning of the branch. -/
  | rest
  | join (j : JoinId)

/-- A branch waits for what its prospect says. -/
def Awaits (m : Schedule) (b : Nat) : Prospect → Prop
  | .rest => m.Resting b
  | .join j => j < m.joins.size ∧ m.Live j ∧ (m.join j).owner = b

/-- A branch gets the turn by its prospect. -/
def Resumes (m m' : Schedule) (b : Nat) : Prospect → Prop
  | .rest => m'.active = some (b, (m.branch b).resume (.ok []))
  | .join j => ∃ rest, m.ready = .wake j :: rest ∧ m' = (m.withReady rest).wake j

/-- A branch that waits does not have the turn. -/
theorem Awaits.not_active {x : Prospect} (h : m.Awaits b x) (hB : Balanced none m)
    (r : Routine Value) : m.active ≠ some (b, r) := by
  intro ha
  have hp := (hB.take ha).of_held.2.2
  cases x with
  | rest => exact not_resting hp h
  | join j => exact owner_ne hp h.1 h.2.1 h.2.2

/-- A branch that waits is open. -/
theorem Awaits.open {x : Prospect} (h : m.Awaits b x) (hB : Balanced none m) :
    b < m.branches.size ∧ m.isOpen b = true := by
  have hpos : 0 < m.prospects b := by
    by_contra hz
    have hp : m.prospects b = 0 := by omega
    cases x with
    | rest => exact not_resting hp h
    | join j => exact owner_ne hp h.1 h.2.1 h.2.2
  obtain ⟨hb, ho, -⟩ := hB.of_pos (b := b) (by omega)
  exact ⟨hb, ho⟩

/-! ## What steps do to joins, jobs and timers -/

/-- Joins and what makes branches go on are only added. -/
structure Grows (m m' : Schedule) : Prop where
  size : m.joins.size ≤ m'.joins.size
  join : ∀ j < m.joins.size, m'.join j = m.join j
  ready : ∀ job ∈ m.ready, job ∈ m'.ready
  timers : ∀ t ∈ m.timers, t ∈ m'.timers

theorem Grows.of_eq (hj : m'.joins = m.joins) (hr : m'.ready = m.ready)
    (ht : m'.timers = m.timers) : Grows m m' :=
  ⟨by rw [hj], fun _ _ => by rw [Schedule.join, hj]; rfl, fun _ h => by rwa [hr],
    fun _ h => by rwa [ht]⟩

theorem Grows.awaits (h : Grows m m') {x : Prospect} (hx : m.Awaits b x) : m'.Awaits b x := by
  cases x with
  | rest =>
    rcases hx with hx | hx | ⟨t, ht, hb⟩
    · exact Or.inl (h.ready _ hx)
    · exact Or.inr (Or.inl (h.ready _ hx))
    · exact Or.inr (Or.inr ⟨t, h.timers t ht, hb⟩)
  | join j =>
    obtain ⟨hj, hl, ho⟩ := hx
    refine ⟨Nat.lt_of_lt_of_le hj h.size, ?_, by rw [h.join j hj]; exact ho⟩
    rcases hl with hl | hl
    · exact Or.inl (by rw [h.join j hj]; exact hl)
    · exact Or.inr (h.ready _ hl)

theorem grows_joinOn (m : Schedule) (b : Nat) (kind : JoinKind) (bs : List Nat)
    (k : Outcome → Routine Value) : Grows m (m.joinOn b kind bs k) := by
  refine ⟨by simp, fun j hj => ?_, fun job hjob => ?_, fun t ht => ?_⟩
  · rw [join_joinOn, if_neg (Nat.ne_of_lt hj)]
  · rw [ready_joinOn]
    exact List.mem_append_left _ hjob
  · have htimers : (m.joinOn b kind bs k).timers = m.timers := timers_watchAll _ _ _
    rw [htimers]
    exact ht

theorem grows_startAndJoin (m : Schedule) (b : Nat) (kind : JoinKind) (ps : List Procedure)
    (k : Outcome → Routine Value) : Grows m (m.startAndJoin body b kind ps k) := by
  by_cases hps : ps = []
  · subst hps
    exact Grows.of_eq rfl rfl rfl
  · rw [startAndJoin_eq m b kind hps]
    have h := grows_joinOn (m.spawnAll (ps.map body)).2 b kind
      (List.range' m.branches.size ps.length) k
    have hjoins := m.joins_spawnAll (ps.map body)
    refine ⟨?_, fun j hj => ?_, fun job hjob => ?_, fun t ht => ?_⟩
    · rw [← hjoins]
      exact h.size
    · rw [h.join j (by rw [hjoins]; exact hj)]
      simp only [join, hjoins]
    · exact h.ready _ (by rw [ready_spawnAll]; exact List.mem_append_left _ hjob)
    · exact h.timers _ (by rw [spawnAll_snd]; exact ht)

theorem grows_advance (m : Schedule) (b : Nat) (r : Routine Value) :
    Grows m (m.advance body b r) := by
  have hfinish : ∀ o, Grows m (m.finish b o) := fun o =>
    ⟨le_rfl, fun _ _ => rfl, fun _ => List.mem_append_left _, fun _ => id⟩
  cases r with
  | done v => exact hfinish _
  | fail f => exact hfinish _
  | get k => exact Grows.of_eq rfl rfl rfl
  | put s r => exact Grows.of_eq rfl rfl rfl
  | await w k =>
    cases w with
    | call p => exact Grows.of_eq rfl rfl rfl
    | sleep seconds =>
      show Grows m (m.sleep b seconds k)
      unfold sleep
      dsimp only
      split
      · exact ⟨le_rfl, fun _ _ => rfl, fun _ => id, fun _ => List.mem_append_left _⟩
      · exact ⟨le_rfl, fun _ _ => rfl, fun _ => List.mem_append_left _, fun _ => id⟩
    | all ps => exact grows_startAndJoin m b .all ps k
    | first ps => exact grows_startAndJoin m b .first ps k
    | detached =>
      show Grows m (m.wait body b .detached k)
      unfold wait
      dsimp only
      split
      · exact Grows.of_eq rfl rfl rfl
      · exact grows_joinOn m b .ended _ _

theorem grows_detachOpen (m : Schedule) (bs : List Nat) (b : Nat) (r : Routine Value) :
    Grows m ((m.detachOpen bs).activate b r) := by
  rw [detachOpen_eq]
  refine ⟨?_, fun j _ => ?_, fun job hjob => ?_, fun t ht => ?_⟩
  · exact (congrArg Array.size (joins_watchAll m _ _)).ge
  · show (m.watchAll _ _).joins.getD j default = _
    rw [joins_watchAll]
    rfl
  · show job ∈ (m.watchAll _ _).ready
    rw [ready_watchAll]
    exact List.mem_append_left _ hjob
  · show t ∈ (m.watchAll _ _).timers
    rw [timers_watchAll]
    exact ht

theorem grows_wake (m : Schedule) (j : Nat) : Grows m (m.wake j) := by
  unfold wake
  dsimp only
  split
  · exact Grows.of_eq rfl rfl rfl
  · exact grows_detachOpen m _ _ _
  · split
    · exact Grows.of_eq rfl rfl rfl
    · split
      · exact grows_detachOpen m _ _ _
      · exact Grows.of_eq rfl rfl rfl

/-- Taking a job from the queue takes it from nobody whom it does not concern. -/
theorem Awaits.pop {job : Job} {rest : List Job} {x : Prospect} (h : m.Awaits b x)
    (hr : m.ready = job :: rest) (hresume : job ≠ .resume b) (hring : job ≠ .ring b)
    (hwake : ∀ j, x = .join j → job ≠ .wake j) : (m.withReady rest).Awaits b x := by
  have hmem : ∀ {y : Job}, y ≠ job → y ∈ m.ready → y ∈ rest := fun hne hy => by
    rw [hr] at hy
    exact (List.mem_cons.1 hy).resolve_left hne
  cases x with
  | rest =>
    rcases h with h | h | h
    · exact Or.inl (hmem hresume.symm h)
    · exact Or.inr (Or.inl (hmem hring.symm h))
    · exact Or.inr (Or.inr h)
  | join j =>
    refine ⟨h.1, h.2.1.imp id (hmem (hwake j rfl).symm), h.2.2⟩

theorem Awaits.notify {n : Notice} {rest : List Job} {x : Prospect} (h : m.Awaits b x)
    (hB : Balanced none m) (hr : m.ready = .notify d n :: rest) :
    ((m.withReady rest).doJob (.notify d n)).Awaits b x := by
  have hp : (m.withReady rest).Awaits b x := h.pop hr (by simp) (by simp) (by simp)
  cases n with
  | forget =>
    refine Grows.awaits ⟨?_, fun j _ => ?_, fun job hjob => ?_, fun t ht => ?_⟩ hp
    · exact (congrArg Array.size (joins_forget _ _)).ge
    · exact congrArg (·.getD j default) (joins_forget _ _)
    · exact (ready_forget _ _).symm ▸ hjob
    · exact (timers_forget _ _).symm ▸ ht
  | count j =>
    obtain ⟨hj, -⟩ := (hB.noticed d (.count j) (by rw [hr]; exact List.mem_cons_self)).2 j rfl
    obtain ⟨s, e, jobs, heq, hd⟩ := hB.count_cases hr
    show ((m.withReady rest).count j d).Awaits b x
    rw [heq]
    cases x with
    | rest =>
      rcases hp with hp | hp | hp
      · exact Or.inl (List.mem_append_left _ hp)
      · exact Or.inr (Or.inl (List.mem_append_left _ hp))
      · exact Or.inr (Or.inr hp)
    | join i =>
      exact ⟨by rw [size_recount]; exact h.1, (live_recount hj hr hd i).2 h.2.1,
        (owner_recount i).trans h.2.2⟩

theorem Awaits.doJob {job : Job} {rest : List Job} {x : Prospect} (h : m.Awaits b x)
    (hB : Balanced none m) (hr : m.ready = job :: rest) :
    ((m.withReady rest).doJob job).Awaits b x ∨
      m.Resumes ((m.withReady rest).doJob job) b x := by
  have hhead : job ∈ m.ready := by rw [hr]; exact List.mem_cons_self
  -- A branch has one prospect only, so a job that lets it go on is its prospect.
  have honly : ∀ {p : Job → Bool}, m.lets b job = true → p = m.lets b → rest.countP p = 0 ∧
      m.timers.countP (·.branch == b) = 0 ∧ m.waitsIn b = ∅ := by
    rintro p hl rfl
    have h₁ := (hB.of_pos (b := b) (by
      have := countP_pos_of_mem hhead hl
      rw [if_neg (by simp)]
      unfold prospects
      omega)).2.2
    rw [if_neg (by simp), prospects, hr, List.countP_cons_of_pos hl] at h₁
    refine ⟨by omega, by omega, Finset.card_eq_zero.1 (by omega)⟩
  have hjoin : m.lets b job = true → ∀ j, x = .join j → job = .wake j := by
    rintro hl j rfl
    obtain ⟨hz, -, hw⟩ := honly hl rfl
    rcases h.2.1 with hs | hw'
    · have : j ∈ m.waitsIn b := mem_waitsIn.2 ⟨h.1, hs, h.2.2⟩
      rw [hw] at this
      cases this
    · rw [hr] at hw'
      rcases List.mem_cons.1 hw' with heq | hmem
      · exact heq.symm
      · have := countP_pos_of_mem hmem (p := m.lets b) (by simp [lets, h.2.2])
        omega
  cases job with
  | notify d n => exact Or.inl (h.notify hB hr)
  | resume d =>
    by_cases hd : d = b
    · subst hd
      cases x with
      | rest => exact Or.inr rfl
      | join j => cases hjoin (by simp [lets]) j rfl
    · exact Or.inl (h.pop hr (by simpa using hd) (by simp) (by simp))
  | ring d =>
    by_cases hd : d = b
    · subst hd
      cases x with
      | rest => exact Or.inl (Or.inl (List.mem_append_right _ (List.mem_singleton_self _)))
      | join j => cases hjoin (by simp [lets]) j rfl
    · have hp := h.pop hr (by simp) (by simpa using hd) (by simp)
      have hg : Grows (m.withReady rest) ((m.withReady rest).doJob (.ring d)) :=
        ⟨le_rfl, fun _ _ => rfl, fun _ => List.mem_append_left _, fun _ => id⟩
      exact Or.inl (hg.awaits hp)
  | wake j =>
    by_cases hx : x = .join j
    · subst hx
      exact Or.inr ⟨rest, hr, rfl⟩
    · exact Or.inl ((grows_wake _ j).awaits (h.pop hr (by simp) (by simp) fun i hi heq => by
        cases heq
        exact hx hi))

theorem Awaits.jump {x : Prospect} (h : m.Awaits b x) (hr : m.ready = [])
    (hm : m.jump = some m') : m'.Awaits b x := by
  unfold Schedule.jump at hm
  split at hm
  · cases hm
  · next d _ =>
    cases hm
    cases x with
    | rest =>
      rcases h with h | h | ⟨t, ht, hb⟩
      · rw [hr] at h
        cases h
      · rw [hr] at h
        cases h
      · by_cases hlt : d.lt t.due = true
        · exact Or.inr (Or.inr ⟨t, List.mem_filter.2 ⟨ht, hlt⟩, hb⟩)
        · refine Or.inr (Or.inl (List.mem_map.2 ⟨t, List.mem_filter.2 ⟨ht, ?_⟩, by rw [hb]⟩))
          simpa using hlt
    | join j =>
      refine ⟨h.1, h.2.1.imp id fun hw => ?_, h.2.2⟩
      rw [hr] at hw
      cases hw

/-- A step lets a waiting branch wait, or gives it the turn by what it waited for. -/
theorem Awaits.step {x : Prospect} (h : m.Awaits b x) (hB : Balanced none m)
    (hm : m.step body = some m') : m'.Awaits b x ∨ m.Resumes m' b x := by
  rcases step_cases hm with ⟨d, r, -, rfl⟩ | ⟨job, rest, -, hr, rfl⟩ | ⟨-, hr, hm⟩
  · exact Or.inl ((grows_advance m d r).awaits h)
  · exact h.doJob hB hr
  · exact Or.inl (h.jump hr hm)

/-! ## Moves -/

/-- How one moment leads to the next. -/
inductive Moves (body : Procedure → Routine Value) (m : Schedule) : Schedule → Prop where
  | step {m' : Schedule} (h : m.step body = some m') : Moves body m m'
  | launch (h : m.active = none) (r : Routine Value) : Moves body m (m.launch r).2
  /-- Nothing is left to do. -/
  | rest (h : m.step body = none) : Moves body m m

theorem Moves.balanced (h : Moves body m m') (hB : Balanced none m) : Balanced none m' := by
  cases h with
  | step hm => exact hB.step hm
  | launch ha r => exact hB.launch ha r
  | rest => exact hB

theorem Moves.size_le (h : Moves body m m') (hB : Balanced none m) :
    m.branches.size ≤ m'.branches.size := by
  cases h with
  | step hm => exact size_le_step hB hm
  | launch ha r => exact (Array.size_push _).ge.trans' (Nat.le_succ _)
  | rest => exact le_rfl

theorem Moves.outcome?_eq (h : Moves body m m') (hB : Balanced none m)
    {o : Except Failure Value} (ho : m.outcome? d = some o) : m'.outcome? d = some o := by
  cases h with
  | step hm => exact outcome?_step hB hm ho
  | launch ha r => rw [outcome?_launch, ho]
  | rest => exact ho

/-- The active branch makes the next step. -/
theorem Moves.advance (h : Moves body m m') {r : Routine Value} (ha : m.active = some (b, r)) :
    m' = m.advance body b r := by
  have hstep : m.step body = some (m.advance body b r) := by rw [Schedule.step, ha]
  cases h with
  | step hm => exact Option.some.inj (hm.symm.trans hstep)
  | launch hn r => cases hn.symm.trans ha
  | rest hm => cases hm.symm.trans hstep

/-- How a branch without the turn goes on does not change. -/
theorem Moves.resume_eq (h : Moves body m m') (hB : Balanced none m) (hb : b < m.branches.size)
    (hne : ∀ r, m.active ≠ some (b, r)) : (m'.branch b).resume = (m.branch b).resume := by
  cases h with
  | step hm =>
    cases ha : m.active with
    | none => exact (kept_job ha hm).resume b
    | some t => exact (frame_turn hB ha hm).resume b hb fun heq => hne t.2 (by rw [ha, heq])
  | launch ha r =>
    exact congrArg Branch.resume
      ((branch_push m.branches default b).trans (if_neg (Nat.ne_of_lt hb)))
  | rest => rfl

theorem joins_step_kept (hB : Balanced none m) (hm : m.step body = some m') {j : Nat}
    (hj : j < m.joins.size) : j < m'.joins.size ∧ (m'.join j).kind = (m.join j).kind ∧
      (m'.join j).branches = (m.join j).branches := by
  have hgrow : ∀ {k : Schedule}, Grows m k → j < k.joins.size ∧ (k.join j).kind = (m.join j).kind ∧
      (k.join j).branches = (m.join j).branches := fun h =>
    ⟨Nat.lt_of_lt_of_le hj h.size, by rw [h.join j hj], by rw [h.join j hj]⟩
  rcases step_cases hm with ⟨d, r, -, rfl⟩ | ⟨job, rest, -, hr, rfl⟩ | ⟨-, -, hm⟩
  · exact hgrow (grows_advance m d r)
  · cases job with
    | resume d => exact ⟨hj, rfl, rfl⟩
    | ring d => exact ⟨hj, rfl, rfl⟩
    | wake i =>
      have h := grows_wake (m.withReady rest) i
      exact ⟨Nat.lt_of_lt_of_le hj h.size, congrArg Join.kind (h.join j hj),
        congrArg Join.branches (h.join j hj)⟩
    | notify d n =>
      cases n with
      | forget =>
        have h : ((m.withReady rest).forget d).joins = m.joins := joins_forget _ _
        refine ⟨by rw [← h] at hj; exact hj, ?_, ?_⟩
        · exact congrArg (fun js : Array Join => (js.getD j default).kind) h
        · exact congrArg (fun js : Array Join => (js.getD j default).branches) h
      | count i =>
        obtain ⟨s, e, jobs, heq, -⟩ := hB.count_cases hr
        have heq' : (m.withReady rest).doJob (.notify d (.count i)) = m.recount rest i s e jobs := heq
        rw [heq']
        exact ⟨by rw [size_recount]; exact hj, kind_recount j, branches_recount j⟩
  · obtain ⟨-, h, -⟩ := jump_eq hm
    refine ⟨by rw [h]; exact hj, ?_, ?_⟩
    · exact congrArg (fun js : Array Join => (js.getD j default).kind) h
    · exact congrArg (fun js : Array Join => (js.getD j default).branches) h

theorem Moves.join_kept (h : Moves body m m') (hB : Balanced none m) {j : Nat}
    (hj : j < m.joins.size) : j < m'.joins.size ∧ (m'.join j).kind = (m.join j).kind ∧
      (m'.join j).branches = (m.join j).branches := by
  cases h with
  | step hm => exact joins_step_kept hB hm hj
  | launch ha r => exact ⟨hj, rfl, rfl⟩
  | rest => exact ⟨hj, rfl, rfl⟩

/-- A branch that waits goes on waiting, or gets the turn by what it waited for. -/
theorem Awaits.next {x : Prospect} (h : m.Awaits b x) (hB : Balanced none m)
    (hm : Moves body m m') : m'.Awaits b x ∨ m.Resumes m' b x := by
  cases hm with
  | step hm => exact h.step hB hm
  | launch ha r =>
    have hg : Grows m (m.launch r).2 := Grows.of_eq rfl rfl rfl
    exact Or.inl (hg.awaits h)
  | rest => exact Or.inl h

/-! ## How a join is left -/

/-- The outcome of a join, by the outcomes of its branches. -/
def Decides (m : Schedule) (kind : JoinKind) (bs : List Nat) (o : Outcome) : Prop :=
  match kind with
  | .all => (o = .ok (m.resultsOf bs) ∧ ∀ d ∈ bs, ∃ v, m.outcome? d = some (.ok v)) ∨
      ∃ f, o = .error f ∧ ∃ d ∈ bs, m.outcome? d = some (.error f)
  | .first => ∃ d ∈ bs, ∃ x, m.outcome? d = some x ∧ o = x.map fun v => [v]
  | .ended => o = .ok []

/-- The outcome of the first branch that has ended is the outcome of a race. -/
theorem decides_winner (m : Schedule) {bs : List Nat} (hc : ∃ d ∈ bs, m.isOpen d = false) :
    m.Decides .first bs (m.winner bs) := by
  obtain ⟨d, hd, hc⟩ := hc
  obtain ⟨o, ho⟩ := isOpen_eq_false_iff.1 hc
  have hsome : (bs.findSome? m.outcome?).isSome = true :=
    List.findSome?_isSome_iff.2 ⟨d, hd, by rw [ho]; rfl⟩
  obtain ⟨x, hx⟩ := Option.isSome_iff_exists.1 hsome
  obtain ⟨e, he, hxe⟩ := List.exists_of_findSome?_eq_some hx
  refine ⟨e, he, x, hxe, ?_⟩
  unfold winner
  rw [hx]
  cases x <;> rfl

/-- What the owner of a join goes on with. -/
def verdict (m : Schedule) (j : Nat) : Outcome :=
  match (m.join j).kind with
  | .ended => .ok []
  | .first => m.winner (m.join j).branches
  | .all =>
    match (m.join j).failure? with
    | none => .ok (m.resultsOf (m.join j).branches)
    | some f => .error f

/-- The branches of a join decide what its owner goes on with. -/
theorem decides_verdict (hB : Balanced none m) {j : Nat} (h : .wake j ∈ m.ready) :
    m.Decides (m.join j).kind (m.join j).branches (m.verdict j) := by
  obtain ⟨hj, hsettled⟩ := hB.waking j h
  unfold verdict
  split
  · next hk => rw [hk]; rfl
  · next hk =>
    rw [hk]
    exact m.decides_winner (hB.decided j hj hk hsettled)
  · next hk =>
    rw [hk]
    split
    · next hf => exact Or.inl ⟨rfl, hB.succeeded j hj hk hsettled hf⟩
    · next f hf =>
      obtain ⟨d, hd, hfd⟩ := hB.failed j hj f hf
      exact Or.inr ⟨f, rfl, d, hd, hfd⟩

/-- The owner of a join goes on with its verdict, and the branches that have not ended are left
behind unless the verdict is an abort. -/
theorem wake_verdict (hB : Balanced none m) {j : Nat} {rest : List Job}
    (hr : m.ready = .wake j :: rest) :
    ((m.withReady rest).wake j).active =
        some ((m.join j).owner, (m.branch (m.join j).owner).resume (m.verdict j)) ∧
      ((m.join j).kind ≠ .ended → ∀ d ∈ (m.join j).branches, m.isOpen d = false ∨
        d ∈ ((m.withReady rest).wake j).detached ∨
          ∃ f, m.verdict j = .error f ∧ f.isCatchable = false) := by
  have hmem : .wake j ∈ m.ready := by rw [hr]; exact List.mem_cons_self
  obtain ⟨hj, hsettled⟩ := hB.waking j hmem
  have hdetach : ∀ (r : Routine Value) (d : Nat), d ∈ (m.join j).branches → m.isOpen d = false ∨
      d ∈ (((m.withReady rest).detachOpen (m.join j).branches).activate (m.join j).owner r).detached
      := by
    intro r d hd
    by_cases ho : m.isOpen d = true
    · refine Or.inr ?_
      rw [detachOpen_eq]
      exact List.mem_append_right _ (List.mem_filter.2 ⟨hd, ho⟩)
    · exact Or.inl (by simpa using ho)
  unfold wake verdict
  dsimp only
  split
  · next hk =>
    rw [show (m.join j).kind = .ended from hk]
    exact ⟨rfl, fun hc => absurd rfl hc⟩
  · next hk =>
    rw [show (m.join j).kind = .first from hk]
    exact ⟨rfl, fun _ d hd => (hdetach _ d hd).imp id Or.inl⟩
  · next hk =>
    rw [show (m.join j).kind = .all from hk]
    split
    · next hf =>
      rw [show (m.join j).failure? = none from hf]
      refine ⟨rfl, fun _ d hd => Or.inl ?_⟩
      obtain ⟨v, hv⟩ := hB.succeeded j hj hk hsettled hf d hd
      rw [isOpen, hv]
      rfl
    · next f hf =>
      rw [show (m.join j).failure? = some f from hf]
      split
      · exact ⟨rfl, fun _ d hd => (hdetach _ d hd).imp id Or.inl⟩
      · next hc => exact ⟨rfl, fun _ d _ => Or.inr (Or.inr ⟨f, rfl, by simpa using hc⟩)⟩

end Schedule

/-! ## Runs -/

/-- Everything that happens, moment by moment. -/
structure Run (body : Procedure → Routine Value) where
  moment : Nat → Schedule
  begins : ∃ s, moment 0 = .ofStore s
  moves : ∀ n, (moment n).Moves body (moment (n + 1))

namespace Run

variable {body : Procedure → Routine Value} (R : Run body) {b n t : Nat}

/-- The store at a moment. -/
def store (n : Nat) : Store := (R.moment n).store

/-- A branch has the turn at a moment. -/
def HasTurn (b n : Nat) : Prop := ∃ r, (R.moment n).active = some (b, r)

/-- A branch does not have the turn from one moment until another. -/
def Idle (b n t : Nat) : Prop := ∀ i, n ≤ i → i < t → ¬R.HasTurn b i

/-- At a moment the owner of a join goes on with an outcome. -/
def Woken (n : Nat) (o : Outcome) : Prop :=
  ∃ s j rest, n = s + 1 ∧ (R.moment s).ready = .wake j :: rest ∧ o = (R.moment s).verdict j

theorem Woken.eq {R : Run body} {o o' : Outcome} (h : R.Woken n o) (h' : R.Woken n o') : o = o' := by
  obtain ⟨s, j, rest, rfl, hr, rfl⟩ := h
  obtain ⟨s', j', rest', hs, hr', rfl⟩ := h'
  obtain rfl : s = s' := by omega
  rw [hr] at hr'
  cases hr'
  rfl

theorem balanced (n : Nat) : (R.moment n).Balanced none := by
  induction n with
  | zero =>
    obtain ⟨s, hs⟩ := R.begins
    rw [hs]
    exact Schedule.balanced_ofStore s
  | succ n ih => exact (R.moves n).balanced ih

theorem outcome?_of_le (h : n ≤ t) {o : Except Failure Value}
    (ho : (R.moment n).outcome? b = some o) : (R.moment t).outcome? b = some o := by
  induction t, h using Nat.le_induction with
  | base => exact ho
  | succ t _ ih => exact (R.moves t).outcome?_eq (R.balanced t) ih

theorem isOpen_of_hasTurn (h : R.HasTurn b n) : (R.moment n).isOpen b = true := by
  obtain ⟨r, hr⟩ := h
  exact ((R.balanced n).take hr).of_held.2.1

/-- A branch that is open has been open all the time. -/
theorem isOpen_of_le (h : n ≤ t) (ho : (R.moment t).isOpen b = true) :
    (R.moment n).isOpen b = true := by
  by_contra hc
  obtain ⟨o, ho'⟩ := Schedule.isOpen_eq_false_iff.1 (by simpa using hc)
  rw [Schedule.isOpen, R.outcome?_of_le h ho'] at ho
  cases ho

end Run

end Conductor
