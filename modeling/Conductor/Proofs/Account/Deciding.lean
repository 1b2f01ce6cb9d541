import Conductor.Proofs.Account.Existence
import Conductor.Proofs.Account.Queue

/-!
# Which branch decides

A branch that starts others side by side goes on when their join has been decided, by the notice of
one of them. Notices come into the queue when branches end, and are counted in the order in which
they have come (`Forks.counted_before`), so the branch that ends first decides a race, and the one
that fails first decides against those who wait for all.

Main results: `Forks.all_failed`, `Forks.first_ended`, and that nobody waits for branches that do not
decide: by the time nothing is ready to be done, a decided join has been left (`Forks.prompt`).
-/

namespace Conductor

namespace Schedule

variable {m m' : Schedule} {b d j : Nat} {body : Procedure → Routine Value}

/-- Only a count changes a join. -/
theorem Moves.join_eq (h : Moves body m m') (hB : Balanced none m) (hj : j < m.joins.size) :
    m'.join j = m.join j ∨ ∃ d rest, m.active = none ∧ m.ready = .notify d (.count j) :: rest ∧
      m' = (m.withReady rest).count j d := by
  have hjoins : ∀ {k : Schedule}, k.joins = m.joins → k.join j = m.join j := fun h =>
    congrArg (fun js : Array Join => js.getD j default) h
  cases h with
  | step hm =>
    rcases step_cases hm with ⟨d, r, -, rfl⟩ | ⟨job, rest, ha, hr, rfl⟩ | ⟨-, -, hm⟩
    · exact Or.inl ((grows_advance m d r).join j hj)
    · cases job with
      | resume d => exact Or.inl rfl
      | ring d => exact Or.inl rfl
      | wake i => exact Or.inl ((grows_wake (m.withReady rest) i).join j hj)
      | notify d n =>
        cases n with
        | forget => exact Or.inl (hjoins (joins_forget _ _))
        | count i =>
          by_cases hij : i = j
          · subst hij
            exact Or.inr ⟨d, rest, ha, hr, rfl⟩
          · obtain ⟨hi, -⟩ := (hB.noticed d (.count i) (by rw [hr]; exact List.mem_cons_self)).2 i rfl
            obtain ⟨s, e, jobs, heq, -⟩ := hB.count_cases hr
            refine Or.inl ?_
            show ((m.withReady rest).count i d).join j = m.join j
            rw [heq, join_recount hi, if_neg (Ne.symm hij)]
    · exact Or.inl (hjoins (jump_eq hm).2.1)
  | launch => exact Or.inl rfl
  | rest => exact Or.inl rfl

/-- Waiting ends no branch. -/
theorem outcome?_wait (m : Schedule) (b : Nat) (w : Wait) (k : Outcome → Routine Value) (d : Nat) :
    (m.wait body b w k).outcome? d = m.outcome? d := by
  have hstart : ∀ kind ps, (m.startAndJoin body b kind ps k).outcome? d = m.outcome? d := by
    intro kind ps
    by_cases hps : ps = []
    · subst hps
      rfl
    · rw [startAndJoin_eq m b kind hps, outcome?_joinOn, outcome?_spawnAll]
  cases w with
  | call p => rfl
  | sleep seconds =>
    show (m.sleep b seconds k).outcome? d = _
    unfold sleep
    dsimp only
    split
    · exact outcome?_suspend m b k d
    · exact outcome?_suspend m b k d
  | all ps => exact hstart .all ps
  | first ps => exact hstart .first ps
  | detached =>
    unfold wait
    dsimp only
    split
    · rfl
    · exact outcome?_joinOn _ _ _ _ _ d

/-- Only the active branch ends, and only when nothing is left of its turn. -/
theorem Moves.ended (h : Moves body m m') (hB : Balanced none m) {x : Except Failure Value}
    (ho : m.outcome? d = none) (ho' : m'.outcome? d = some x) :
    m.active = some (d, Routine.ofOutcome x) := by
  have hsame : m'.outcome? d ≠ m.outcome? d := fun heq => by
    rw [heq, ho] at ho'
    cases ho'
  cases h with
  | rest => exact absurd rfl hsame
  | launch => exact absurd (outcome?_launch _ _ _) hsame
  | step hm =>
    cases ha : m.active with
    | none => exact absurd ((kept_job ha hm).outcome d) hsame
    | some t =>
      obtain ⟨b, r⟩ := t
      have hb : b < m.branches.size := (hB.take ha).of_held.1
      by_cases hd : d = b
      · subst hd
        obtain rfl : m' = m.advance body d r := (Moves.step hm).advance ha
        cases r with
        | done v =>
          have := (outcome?_finish m (.ok v) hb d).symm.trans ho'
          rw [if_pos rfl] at this
          cases this
          rfl
        | fail f =>
          have := (outcome?_finish m (.error f) hb d).symm.trans ho'
          rw [if_pos rfl] at this
          cases this
          rfl
        | get k => exact absurd rfl hsame
        | put s r => exact absurd rfl hsame
        | await w k => exact absurd (outcome?_wait m d w k d) hsame
      · exact absurd ((frame_turn hB ha hm).outcome d hd) hsame

/-- What the count of a branch means for a join that has not been decided: it is decided, for a reason
that the branch gives, or it goes on waiting. -/
theorem Balanced.counting (hB : Balanced none m) {rest : List Job}
    (hr : m.ready = .notify d (.count j) :: rest) (hopen : (m.join j).settled = false) :
    let x := ((m.withReady rest).count j d).join j
    ((m.join j).kind = .first → x.settled = true) ∧
      (∀ f, (m.join j).kind = .all → m.outcome? d = some (.error f) →
        x.settled = true ∧ x.failure? = some f) ∧
      ∀ f, x.settled = true → x.failure? = some f → m.outcome? d = some (.error f) := by
  obtain ⟨hj, -⟩ := (hB.noticed d (.count j) (by rw [hr]; exact List.mem_cons_self)).2 j rfl
  obtain ⟨s, e, jobs, heq, hd⟩ := hB.count_cases hr
  have hx : ((m.withReady rest).count j d).join j = recounted s e (m.join j) := by
    rw [heq, join_recount hj, if_pos rfl]
  intro x
  have hsettled : x.settled = s := by rw [show x = _ from hx]; rfl
  have hfailure : x.failure? = e := by rw [show x = _ from hx]; rfl
  rw [hsettled, hfailure]
  cases s with
  | true =>
    obtain ⟨hfail, hall⟩ := hd.ends hopen rfl
    refine ⟨fun _ => rfl, fun f hk ho => ⟨rfl, ?_⟩, fun f _ => hfail f⟩
    cases e with
    | some g => exact congrArg some (Except.error.inj (Option.some.inj ((hfail g rfl).symm.trans ho)))
    | none =>
      obtain ⟨-, hbr⟩ := (hB.noticed d (.count j) (by rw [hr]; exact List.mem_cons_self)).2 j rfl
      obtain ⟨v, hv⟩ := hall hk rfl d hbr
      cases hv.symm.trans ho
  | false =>
    obtain ⟨hwait, -, hno⟩ := hd.waits rfl
    refine ⟨fun hk => ?_, fun f hk ho => absurd ho (hno hk f), fun f hs => nomatch hs⟩
    have hw : Waiting (recounted false e (m.join j)) := hwait
    unfold Waiting at hw
    rw [show (recounted false e (m.join j)).kind = .first from hk] at hw
    exact absurd hw.1 (Nat.succ_ne_zero _)

/-- A join that has been decided stays as it is, but for its count. -/
theorem Moves.decided (h : Moves body m m') (hB : Balanced none m) (hj : j < m.joins.size)
    (hs : (m.join j).settled = true) :
    (m'.join j).settled = true ∧ (m'.join j).failure? = (m.join j).failure? := by
  rcases h.join_eq hB hj with heq | ⟨d, rest, -, hr, rfl⟩
  · rw [heq]
    exact ⟨hs, rfl⟩
  · obtain ⟨s, e, jobs, heq, hd⟩ := hB.count_cases hr
    rw [heq, join_recount hj, if_pos rfl]
    exact hd.kept hs

end Schedule

namespace Run

open Schedule

variable {body : Procedure → Routine Value} (R : Run body) {b d n t u : Nat}

/-- The last action of a branch: it ends. -/
def Ended (d s : Nat) (x : Except Failure Value) : Prop :=
  (R.moment s).active = some (d, Routine.ofOutcome x)

/-- At a moment a branch starts parts side by side and waits for them. -/
structure Forks (n b : Nat) (kind : JoinKind) (ps : List Procedure)
    (k : Outcome → Routine Value) : Prop where
  waits : ∃ w, sides w = some (kind, ps) ∧ (R.moment n).active = some (b, .await w k)
  nonempty : ps ≠ []

/-- The first of the branches that are started at a moment. -/
def newBranch (n : Nat) : Nat := (R.moment n).branches.size

/-- The join in which a branch waits from a moment on. -/
def newJoin (n : Nat) : Nat := (R.moment n).joins.size

variable {R}

theorem Ended.hasTurn {s : Nat} {x : Except Failure Value} (h : R.Ended d s x) : R.HasTurn d s :=
  ⟨_, h⟩

theorem Ended.outcome? {s : Nat} {x : Except Failure Value} (h : R.Ended d s x) :
    (R.moment (s + 1)).outcome? d = some x := by
  have hb : d < (R.moment s).branches.size := ((R.balanced s).take h).of_held.1
  rw [(R.moves s).advance h]
  cases x with
  | ok v => exact (outcome?_finish _ _ hb _).trans (if_pos rfl)
  | error f => exact (outcome?_finish _ _ hb _).trans (if_pos rfl)

/-- A branch ends once. -/
theorem Ended.unique {s s' : Nat} {x x' : Except Failure Value} (h : R.Ended d s x)
    (h' : R.Ended d s' x') : s = s' ∧ x = x' := by
  have hne : ∀ {s s' : Nat} {x x' : Except Failure Value}, R.Ended d s x → R.Ended d s' x' →
      ¬s < s' := by
    intro s s' x x' h h' hlt
    have ho := R.isOpen_of_hasTurn h'.hasTurn
    rw [isOpen, R.outcome?_of_le hlt h.outcome?] at ho
    cases ho
  obtain rfl : s = s' := by
    have := hne h h'
    have := hne h' h
    omega
  have heq := h.outcome?.symm.trans h'.outcome?
  exact ⟨rfl, Option.some.inj heq⟩

/-- How a branch has ended says when. -/
theorem exists_ended {x : Except Failure Value} (h : (R.moment n).outcome? d = some x) :
    ∃ s < n, R.Ended d s x := by
  induction n with
  | zero =>
    obtain ⟨s, hs⟩ := R.begins
    rw [hs] at h
    cases (outcome?_of_size_le (m := ofStore s) (Nat.zero_le d)).symm.trans h
  | succ n ih =>
    cases ho : (R.moment n).outcome? d with
    | none => exact ⟨n, Nat.lt_succ_self n, (R.moves n).ended (R.balanced n) ho h⟩
    | some y =>
      have heq := (R.outcome?_of_le (Nat.le_succ n) ho).symm.trans h
      cases heq
      obtain ⟨s, hs, he⟩ := ih ho
      exact ⟨s, Nat.lt_succ_of_lt hs, he⟩

theorem size_mono (R : Run body) (h : n ≤ t) :
    (R.moment n).branches.size ≤ (R.moment t).branches.size := by
  induction t, h using Nat.le_induction with
  | base => exact le_rfl
  | succ t _ ih => exact ih.trans ((R.moves t).size_le (R.balanced t))

namespace Forks

variable {kind : JoinKind} {ps : List Procedure} {k : Outcome → Routine Value}

theorem next (h : R.Forks n b kind ps k) : b < (R.moment n).branches.size ∧
    R.moment (n + 1) = (R.moment n).startAndJoin body b kind ps k := by
  obtain ⟨w, hw, ha⟩ := h.waits
  refine ⟨((R.balanced n).take ha).of_held.1, ?_⟩
  rw [(R.moves n).advance ha]
  cases w <;> cases hw <;> rfl

/-- The owner waits in a new join for the new branches. -/
theorem begun (h : R.Forks n b kind ps k) :
    (R.moment (n + 1)).Awaits b (.join (R.newJoin n)) ∧
      (R.moment (n + 1)).join (R.newJoin n) =
        ⟨kind, b, List.range' (R.newBranch n) ps.length, 0, false, none⟩ ∧
      ((R.moment (n + 1)).branch b).resume = k := by
  obtain ⟨hb, hm⟩ := h.next
  rw [hm, startAndJoin_eq _ b kind h.nonempty]
  have hj := awaits_joinOn ((R.moment n).spawnAll (ps.map body)).2 b kind
    (List.range' (R.moment n).branches.size ps.length) k
  have hjoin := join_joinOn ((R.moment n).spawnAll (ps.map body)).2 b kind
    (List.range' (R.moment n).branches.size ps.length) k (R.moment n).joins.size
  rw [joins_spawnAll] at hj hjoin
  rw [if_pos rfl] at hjoin
  exact ⟨hj.1, hjoin, resume_joinOn (by rw [size_spawnAll]; omega) _ _ _⟩

/-- The branches that are started begin when they get the turn. -/
theorem part (h : R.Forks n b kind ps k) (i : Fin ps.length) :
    (R.moment (n + 1)).GoesOn (R.newBranch n + i) (body (ps.get i)) := by
  obtain ⟨hb, hm⟩ := h.next
  have hgo : ((R.moment n).startAndJoin body b kind ps k).GoesOn (R.newBranch n + i)
      (body (ps.get i)) := goesOn_startAndJoin hb kind k i
  rw [← hm] at hgo
  exact hgo

/-- What does not change about the join. -/
theorem join_at (h : R.Forks n b kind ps k) (ht : n < t) :
    R.newJoin n < (R.moment t).joins.size ∧ ((R.moment t).join (R.newJoin n)).kind = kind ∧
      ((R.moment t).join (R.newJoin n)).branches = List.range' (R.newBranch n) ps.length := by
  induction t, ht using Nat.le_induction with
  | base =>
    obtain ⟨ha, hj, -⟩ := h.begun
    rw [hj]
    exact ⟨ha.1, rfl, rfl⟩
  | succ t _ ih =>
    obtain ⟨hj, hk, hb⟩ := (R.moves t).join_kept (R.balanced t) ih.1
    exact ⟨hj, hk.trans ih.2.1, hb.trans ih.2.2⟩

theorem mem_branches (h : R.Forks n b kind ps k) (ht : n < t) (i : Fin ps.length) :
    R.newBranch n + i ∈ ((R.moment t).join (R.newJoin n)).branches := by
  rw [(h.join_at ht).2.2]
  exact mem_range'_iff_fin.2 ⟨i, rfl⟩

/-- As long as the owner does not go on it waits in the join. -/
theorem stays (h : R.Forks n b kind ps k) (ht : n < t) (hi : R.Idle b (n + 1) (t + 1)) :
    R.Stays b (n + 1) t (.join (R.newJoin n)) := by
  rcases R.waits h.begun.1 (N := t) ht with hs | ⟨u, hu, hut, hs, hr⟩
  · exact hs
  · obtain ⟨rest, hready, hm⟩ := hr
    have hturn : R.HasTurn b (u + 1) := ⟨_, by
      rw [hm, (wake_verdict (R.balanced u) hready).1, hs.awaits.2.2]⟩
    exact absurd hturn (hi (u + 1) (by omega) (by omega))

/-- How the owner goes on. -/
theorem resumed (h : R.Forks n b kind ps k) (ht : n < t) (hi : R.Idle b (n + 1) t)
    (hturn : R.HasTurn b t) : ∃ u, t = u + 1 ∧ n < u ∧ R.Stays b (n + 1) u (.join (R.newJoin n)) ∧
      ∃ rest, (R.moment u).ready = .wake (R.newJoin n) :: rest ∧
        R.moment t = ((R.moment u).withReady rest).wake (R.newJoin n) := by
  rcases R.waits h.begun.1 (N := t) ht with hs | ⟨u, hu, hut, hs, hr⟩
  · exact absurd hturn (hs.idle t ht (Nat.lt_succ_self t))
  · obtain ⟨rest, hready, hm⟩ := hr
    have hturn' : R.HasTurn b (u + 1) := ⟨_, by
      rw [hm, (wake_verdict (R.balanced u) hready).1, hs.awaits.2.2]⟩
    obtain rfl : t = u + 1 := by
      by_contra hne
      exact hi (u + 1) (by omega) (by omega) hturn'
    exact ⟨u, rfl, hu, hs, rest, hready, hm⟩

/-! ## Counting -/

/-- A new branch ends after it has begun. -/
theorem lt_of_ended (i : Fin ps.length) {s : Nat} {x : Except Failure Value}
    (he : R.Ended (R.newBranch n + i) s x) : n < s := by
  by_contra hle
  have hb : R.newBranch n + i < (R.moment s).branches.size := ((R.balanced s).take he).of_held.1
  have hmono := R.size_mono (Nat.le_of_not_lt hle)
  have hnew : R.newBranch n = (R.moment n).branches.size := rfl
  omega

/-- When a branch ends, its notice comes into the queue; in front of it there are only notices of
branches that have ended. -/
theorem notice (h : R.Forks n b kind ps k) (i : Fin ps.length) {s : Nat}
    {x : Except Failure Value} (he : R.Ended (R.newBranch n + i) s x) :
    ∃ before, R.Queued (s + 1) (.notify (R.newBranch n + i) (.count (R.newJoin n))) before ∧
      ∀ d n', .notify d n' ∈ before → (R.moment (s + 1)).isOpen d = false := by
  have hs := lt_of_ended i he
  have hmem : .notify (R.newBranch n + i) (.count (R.newJoin n)) ∈ (R.moment (s + 1)).ready := by
    have hasked := (R.balanced s).asked _ (h.join_at hs).1 _ (h.mem_branches hs i)
      (R.isOpen_of_hasTurn he.hasTurn)
    have hfinish : R.moment (s + 1) = (R.moment s).finish (R.newBranch n + i) x := by
      rw [(R.moves s).advance he]
      cases x <;> rfl
    rw [hfinish, ready_finish]
    exact List.mem_append_right _ (List.mem_map_of_mem hasked)
  obtain ⟨before, post, hr⟩ := List.append_of_mem hmem
  refine ⟨before, ⟨before, post, hr, List.suffix_refl before⟩, fun d n' hd => ?_⟩
  refine ((R.balanced (s + 1)).noticed d n' ?_).1
  rw [hr]
  exact List.mem_append_left _ hd

/-- **Branches are counted in the order in which they end.** -/
theorem counted_before (h : R.Forks n b kind ps k) {i i' : Fin ps.length} {s s' : Nat}
    {x x' : Except Failure Value} (he : R.Ended (R.newBranch n + i) s x)
    (he' : R.Ended (R.newBranch n + i') s' x') (hs : s' < s)
    (hd : R.Does u (.notify (R.newBranch n + i) (.count (R.newJoin n)))) :
    ∃ u', s' < u' ∧ u' < u ∧ R.Does u' (.notify (R.newBranch n + i') (.count (R.newJoin n))) ∧
      ∀ j, s' < j → j ≤ u' → (R.moment j).ready ≠ [] := by
  obtain ⟨before, hq, hbefore⟩ := h.notice i' he'
  have hopen : ∀ {t}, t ≤ s → (R.moment t).isOpen (R.newBranch n + i) = true := fun ht =>
    R.isOpen_of_le ht (R.isOpen_of_hasTurn he.hasTurn)
  -- A notice of a branch is not there before its end.
  have hlate : s < u := by
    by_contra hle
    obtain ⟨rest, hr, -⟩ := hd.done
    have hc := ((R.balanced u).noticed _ _ (by rw [hr]; exact List.mem_cons_self)).1
    rw [hopen (by omega)] at hc
    cases hc
  have hnot : .notify (R.newBranch n + i) (.count (R.newJoin n)) ∉ before := fun hmem => by
    have hc := hbefore _ _ hmem
    rw [hopen (by omega)] at hc
    cases hc
  have hne : Job.notify (R.newBranch n + i) (.count (R.newJoin n)) ≠
      .notify (R.newBranch n + i') (.count (R.newJoin n)) := by
    intro heq
    have hii : R.newBranch n + (i : Nat) = R.newBranch n + i' := by
      injection heq
    rw [hii] at he
    have := (he.unique he').1
    omega
  obtain ⟨u', hu, huu, hd', hq'⟩ := done_before hq hnot hne (by omega) hd
  exact ⟨u', by omega, huu, hd', fun j hj hj' => (hq' j (by omega) hj').ready_ne⟩

/-! ## Deciding -/

/-- What has been decided stays decided. -/
theorem decided_since (h : R.Forks n b kind ps k) (hu : n < u) (ht : u ≤ t)
    (hs : ((R.moment u).join (R.newJoin n)).settled = true) :
    ((R.moment t).join (R.newJoin n)).settled = true ∧
      ((R.moment t).join (R.newJoin n)).failure? = ((R.moment u).join (R.newJoin n)).failure? := by
  induction t, ht using Nat.le_induction with
  | base => exact ⟨hs, rfl⟩
  | succ t ht ih =>
    have hkept := (R.moves t).decided (R.balanced t) (h.join_at (by omega)).1 ih.1
    exact ⟨hkept.1, hkept.2.trans ih.2⟩

/-- **How a join has been decided**: by the count of one of its branches, before which it had not been
decided. -/
theorem decided (h : R.Forks n b kind ps k) (ht : n < t)
    (hs : ((R.moment t).join (R.newJoin n)).settled = true) : ∃ u, n < u ∧ u < t ∧
      (∀ j, n < j → j ≤ u → ((R.moment j).join (R.newJoin n)).settled = false) ∧
      ((R.moment (u + 1)).join (R.newJoin n)).settled = true ∧
      ∃ i : Fin ps.length, R.Does u (.notify (R.newBranch n + i) (.count (R.newJoin n))) := by
  induction t, ht using Nat.le_induction with
  | base =>
    rw [h.begun.2.1] at hs
    cases hs
  | succ t ht ih =>
    by_cases hs' : ((R.moment t).join (R.newJoin n)).settled = true
    · obtain ⟨u, hu, hut, hd⟩ := ih hs'
      exact ⟨u, hu, Nat.lt_succ_of_lt hut, hd⟩
    · have hjoin := h.join_at ht
      rcases (R.moves t).join_eq (R.balanced t) hjoin.1 with heq | ⟨d, rest, ha, hr, hm⟩
      · rw [heq] at hs
        exact absurd hs hs'
      · have hd := ((R.balanced t).noticed d _ (by rw [hr]; exact List.mem_cons_self)).2 _ rfl
        rw [hjoin.2.2] at hd
        obtain ⟨i, rfl⟩ := mem_range'_iff_fin.1 hd.2
        refine ⟨t, ht, Nat.lt_succ_self t, fun j hj hjt => ?_, hs, i, ha, rest, hr, hm⟩
        by_contra hc
        exact hs' (h.decided_since hj hjt (by simpa using hc)).1

/-- The count of a branch before the decision. -/
theorem counting (h : R.Forks n b kind ps k) (hu : n < u) {i : Fin ps.length}
    (hd : R.Does u (.notify (R.newBranch n + i) (.count (R.newJoin n))))
    (hopen : ((R.moment u).join (R.newJoin n)).settled = false) :
    (kind = .first → ((R.moment (u + 1)).join (R.newJoin n)).settled = true) ∧
      (∀ f, kind = .all → (R.moment u).outcome? (R.newBranch n + i) = some (.error f) →
        ((R.moment (u + 1)).join (R.newJoin n)).settled = true) ∧
      ∀ f, ((R.moment (u + 1)).join (R.newJoin n)).settled = true →
        ((R.moment (u + 1)).join (R.newJoin n)).failure? = some f →
          (R.moment u).outcome? (R.newBranch n + i) = some (.error f) := by
  obtain ⟨rest, hr, hm⟩ := hd.done
  have hcount := (R.balanced u).counting hr hopen
  have hm' : R.moment (u + 1) = ((R.moment u).withReady rest).count (R.newJoin n)
    (R.newBranch n + i) := hm
  rw [← hm', (h.join_at hu).2.1] at hcount
  exact ⟨hcount.1, fun f hk ho => (hcount.2.1 f hk ho).1, hcount.2.2⟩

/-- **The branch that fails first** gives the failure to the one who waits for all. -/
theorem all_failed (h : R.Forks n b .all ps k) (ht : n < t) {f : Failure}
    (hs : ((R.moment t).join (R.newJoin n)).settled = true)
    (hf : ((R.moment t).join (R.newJoin n)).failure? = some f) :
    ∃ (i : Fin ps.length) (s : Nat), s < t ∧ R.Ended (R.newBranch n + i) s (.error f) ∧
      ∀ (i' : Fin ps.length) (s' : Nat) (g : Failure),
        R.Ended (R.newBranch n + i') s' (.error g) → s ≤ s' := by
  obtain ⟨u, hu, hut, hbefore, hsu, i, hd⟩ := h.decided ht hs
  have hfu : ((R.moment (u + 1)).join (R.newJoin n)).failure? = some f := by
    rw [← hf, (h.decided_since (by omega) hut hsu).2]
  obtain ⟨s, hsu', he⟩ :=
    exists_ended ((h.counting hu hd (hbefore u hu le_rfl)).2.2 f hsu hfu)
  refine ⟨i, s, by omega, he, fun i' s' g he' => ?_⟩
  by_contra hlt
  -- An earlier failure would have been counted before, and would have decided.
  obtain ⟨u', hu', huu, hd', -⟩ := h.counted_before he he' (by omega) hd
  have hn := lt_of_ended i' he'
  have ho := R.outcome?_of_le hu' he'.outcome?
  have hs' := (h.counting (by omega) hd' (hbefore u' (by omega) huu.le)).2.1 g rfl ho
  rw [hbefore (u' + 1) (by omega) huu] at hs'
  cases hs'

/-- While a decision is being brought to the owner, there is something to do. -/
theorem busy_decided (h : R.Forks n b kind ps k) (hu : n < u) (hi : R.Idle b (n + 1) (u + 1))
    (hs : ((R.moment u).join (R.newJoin n)).settled = true) : (R.moment u).ready ≠ [] := by
  intro hr
  rcases (h.stays hu hi).awaits.2.1 with hl | hl
  · rw [hs] at hl
    cases hl
  · rw [hr] at hl
    cases hl

/-- What becomes of the notice of a branch that is able to decide: it is there, or the join has been
decided. -/
theorem noticed_or_decided (h : R.Forks n b kind ps k) {i : Fin ps.length} {s : Nat}
    {x : Except Failure Value} (he : R.Ended (R.newBranch n + i) s x)
    (hable : kind = .first ∨ kind = .all ∧ ∃ f, x = .error f) (ht : s < t) :
    (R.moment t).ready ≠ [] ∨ ((R.moment t).join (R.newJoin n)).settled = true := by
  have hn := lt_of_ended i he
  obtain ⟨before, hq, -⟩ := h.notice i he
  rcases queued hq ht with hq | ⟨u, hu, hut, hd, -⟩
  · exact Or.inl (hq t ht le_rfl).ready_ne
  · refine Or.inr ?_
    by_cases hopen : ((R.moment u).join (R.newJoin n)).settled = true
    · exact (h.decided_since (by omega) hut.le hopen).1
    · have hc := h.counting (by omega) hd (by simpa using hopen)
      have hs : ((R.moment (u + 1)).join (R.newJoin n)).settled = true := by
        rcases hable with hk | ⟨hk, f, rfl⟩
        · exact hc.1 hk
        · exact hc.2.1 f hk (R.outcome?_of_le hu he.outcome?)
      exact (h.decided_since (by omega) hut hs).1

/-- **The branch that ends first** decides a race. -/
theorem first_ended (h : R.Forks n b .first ps k) (ht : n < t)
    (hs : ((R.moment t).join (R.newJoin n)).settled = true) :
    ∃ (i : Fin ps.length) (s : Nat) (x : Except Failure Value), s < t ∧
      R.Ended (R.newBranch n + i) s x ∧
      ∀ (i' : Fin ps.length) (s' : Nat) (x' : Except Failure Value),
        R.Ended (R.newBranch n + i') s' x' → s ≤ s' := by
  obtain ⟨u, hu, hut, hbefore, hsu, i, hd⟩ := h.decided ht hs
  obtain ⟨rest, hr, -⟩ := hd.done
  have hclosed := ((R.balanced u).noticed _ _ (by rw [hr]; exact List.mem_cons_self)).1
  obtain ⟨x, hx⟩ := isOpen_eq_false_iff.1 hclosed
  obtain ⟨s, hsu', he⟩ := exists_ended hx
  refine ⟨i, s, x, by omega, he, fun i' s' x' he' => ?_⟩
  by_contra hlt
  -- An earlier end would have been counted before, and would have decided.
  obtain ⟨u', hu', huu, hd', -⟩ := h.counted_before he he' (by omega) hd
  have hn := lt_of_ended i' he'
  have hs' := (h.counting (by omega) hd' (hbefore u' (by omega) huu.le)).1 rfl
  rw [hbefore (u' + 1) (by omega) huu] at hs'
  cases hs'

/-- What suffices for the decision of a join. -/
def Enough (R : Run body) (n : Nat) (kind : JoinKind) (ps : List Procedure) (t : Nat) : Prop :=
  match kind with
  | .first => ∃ (i : Fin ps.length) (s : Nat) (x : Except Failure Value), s < t ∧
      R.Ended (R.newBranch n + i) s x
  | .all => (∃ (i : Fin ps.length) (s : Nat) (f : Failure), s < t ∧
        R.Ended (R.newBranch n + i) s (.error f)) ∨
      ∀ i : Fin ps.length, ∃ s < t, ∃ x, R.Ended (R.newBranch n + i) s x
  | .ended => False

/-- **Nobody waits for more than it takes.** By the time nothing is ready to be done any more, so that
only the clock could go on, the owner of a join for which there is enough has gone on. -/
theorem prompt (h : R.Forks n b kind ps k) (ht : n < t) (hready : (R.moment t).ready = [])
    (henough : Enough R n kind ps t) : ∃ t' ≤ t, n < t' ∧ R.HasTurn b t' := by
  by_contra hno
  have hidle : R.Idle b (n + 1) (t + 1) := fun i hi hi' hturn =>
    hno ⟨i, Nat.le_of_lt_succ hi', hi, hturn⟩
  have hopen : ((R.moment t).join (R.newJoin n)).settled = false := by
    rcases (h.stays ht hidle).awaits.2.1 with hl | hl
    · exact hl
    · rw [hready] at hl
      cases hl
  have hnot : ∀ {i : Fin ps.length} {s : Nat} {x : Except Failure Value}, s < t →
      R.Ended (R.newBranch n + i) s x → ¬(kind = .first ∨ kind = .all ∧ ∃ f, x = .error f) := by
    intro i s x hs he hable
    rcases h.noticed_or_decided he hable hs with hr | hd
    · exact hr hready
    · rw [hopen] at hd
      cases hd
  cases kind with
  | ended => exact henough
  | first =>
    obtain ⟨i, s, x, hs, he⟩ := henough
    exact hnot hs he (Or.inl rfl)
  | all =>
    rcases henough with ⟨i, s, f, hs, he⟩ | hall
    · exact hnot hs he (Or.inr ⟨rfl, f, rfl⟩)
    · -- All notices have been counted, so none is missing.
      obtain ⟨hj, hk, hb⟩ := h.join_at ht
      have hB := R.balanced t
      have hwait := hB.waiting _ hj hopen
      unfold Waiting at hwait
      rw [hk] at hwait
      have hcounted := hB.counted _ hj
      have howed : 0 < (R.moment t).owed (isCountFor (R.newJoin n)) := by
        dsimp only at hwait
        omega
      rcases exists_of_owed_pos howed with ⟨job, hjob, -⟩ | ⟨d, hd, x, hx, hp⟩
      · rw [hready] at hjob
        cases hjob
      · obtain rfl : x = .count (R.newJoin n) := by
          cases x with
          | forget => cases hp
          | count j' => exact congrArg Notice.count (by simpa [isCountFor] using hp)
        have hmem := (hB.asking d hd _ hx).2
        rw [hb] at hmem
        obtain ⟨i, rfl⟩ := mem_range'_iff_fin.1 hmem
        obtain ⟨s, hs, y, he⟩ := hall i
        have hclosed := isOpen_eq_false_iff.2 ⟨y, R.outcome?_of_le hs he.outcome?⟩
        rw [hB.silent _ hclosed] at hx
        cases hx

end Forks

end Run

end Conductor
