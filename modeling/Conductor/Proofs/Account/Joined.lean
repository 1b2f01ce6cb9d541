import Conductor.Proofs.Account.Running
import Conductor.Proofs.Account.Time
import Conductor.Proofs.Schedule.Session

/-!
# What comes of a join

What has been said of the branches of a join, said of the accounts of its parts. Who waits for all of
them goes on with all results in the order of the parts or with the failure that came first
(`Joins.all_ok`, `Joins.all_error`); a race is won by a part that ends no later than any other
(`Joins.first_won`, `Joins.first_time`); and nobody waits for more than it takes (`Joins.prompt`).

A branch that is left behind is not stopped. It stays among those that were left behind until it has
ended (`Run.cleared`).

**Theorem (`Deed.landed`).** By the time nobody is left behind, everything has ended that goes on inside
of what is over, to any depth.
-/

namespace Conductor

namespace Schedule

variable {m m' : Schedule} {d : Nat} {body : Procedure → Routine Value}

/-- Only a branch that has ended is struck off the list of those left behind. -/
theorem Moves.detached (h : Moves body m m') (hB : Balanced none m) (hd : d ∈ m.detached) :
    d ∈ m'.detached ∨ m.isOpen d = false := by
  cases h with
  | rest => exact Or.inl hd
  | launch => exact Or.inl hd
  | step hm =>
    rcases step_cases hm with ⟨b, r, -, rfl⟩ | ⟨job, rest, -, hr, rfl⟩ | ⟨-, -, hj⟩
    · rw [detached_advance]
      exact Or.inl hd
    · cases job with
      | resume b => exact Or.inl hd
      | ring b => exact Or.inl hd
      | wake j =>
        obtain ⟨ds, heq, -⟩ := detached_wake (m.withReady rest) j
        refine Or.inl ?_
        show d ∈ ((m.withReady rest).wake j).detached
        rw [heq]
        exact List.mem_append_left _ hd
      | notify b n =>
        cases n with
        | count j =>
          refine Or.inl ?_
          show d ∈ ((m.withReady rest).count j b).detached
          rw [detached_count]
          exact hd
        | forget =>
          by_cases hb : d = b
          · subst hb
            exact Or.inr (hB.noticed d .forget (by rw [hr]; exact List.mem_cons_self)).1
          · refine Or.inl ?_
            show d ∈ ((m.withReady rest).forget b).detached
            rw [detached_forget]
            exact List.mem_filter.2 ⟨hd, by simpa using hb⟩
    · rw [(jump_eq hj).2.2.1]
      exact Or.inl hd

end Schedule

variable {body : Procedure → Routine Value} {R : Run body} {run : Handlers}
  {plan : Procedure → Outline Value} {N : Nat} {α : Type} {b d n t : Nat} {ds : List Deed}

/-- **A branch that was left behind has ended** when it is no longer listed. -/
theorem Run.cleared (hd : d ∈ (R.moment t).detached) (ht : t ≤ N) :
    d ∈ (R.moment N).detached ∨ (R.moment N).isOpen d = false := by
  induction N, ht using Nat.le_induction with
  | base => exact Or.inl hd
  | succ N _ ih =>
    have hclosed : (R.moment N).isOpen d = false → (R.moment (N + 1)).isOpen d = false := fun h => by
      obtain ⟨o, ho⟩ := Schedule.isOpen_eq_false_iff.1 h
      exact Schedule.isOpen_eq_false_iff.2 ⟨o, R.outcome?_of_le (Nat.le_succ N) ho⟩
    rcases ih with ih | ih
    · exact ((R.moves N).detached (R.balanced N) ih).imp id hclosed
    · exact Or.inr (hclosed ih)

/-! ## The parts of a join -/

namespace Run.Joins

open Schedule

variable {kind : JoinKind} {ps : List Procedure} {k : Outcome → Routine Value}
  {dss : Fin ps.length → List Deed} {es : Fin ps.length → Ending Value} {e : Ending (List Value)}

theorem ended (h : R.Joins run plan N n b kind ps k dss es e) {i : Fin ps.length} {s : Nat}
    {x : Except Failure Value} (hi : es i = some (s, x)) :
    n < s ∧ s ≤ N ∧ R.Ended (R.newBranch n + i) s x := by
  have hend := h.ends i
  rw [hi] at hend
  exact hend

/-- A part that has ended in the run has ended in its account. -/
theorem of_ended (h : R.Joins run plan N n b kind ps k dss es e) {i : Fin ps.length} {s : Nat}
    {x : Except Failure Value} (hs : s < N) (he : R.Ended (R.newBranch n + i) s x) :
    es i = some (s, x) := by
  cases hi : es i with
  | some y =>
    obtain ⟨rfl, rfl⟩ := (h.ended hi).2.2.unique he
    rfl
  | none =>
    have hopen := h.ends i
    rw [hi] at hopen
    have hclosed := Schedule.isOpen_eq_false_iff.2 ⟨x, R.outcome?_of_le hs he.outcome?⟩
    exact absurd (hopen.symm.trans hclosed) (by simp)

theorem accounted (h : R.Joins run plan N n b kind ps k dss es e) :
    (Deed.fork n kind (Deed.parts n (R.newBranch n) ps dss es) e).Accounted R run plan N :=
  .fork kind h.parts fun t o he =>
    have hl := h.leaves t o he
    ⟨hl.later, hl.horizon, hl.left, hl.behind⟩

/-- No abort comes out of a join if none comes out of user code in its parts. -/
theorem tame (h : R.Joins run plan N n b kind ps k dss es e) (hplan : ∀ p, (plan p).Tame)
    (hc : Deed.Calm (Deed.parts n (R.newBranch n) ps dss es)) {o : Outcome} (he : e = some (t, o)) :
    Tame o := by
  rintro f rfl
  obtain ⟨i, s, -, hi⟩ := (h.leaves t _ he).left.error
  exact (tame_error f).1 ((h.parts i).tame hplan (hplan _)
    (hc.inner (Deed.mem_parts.2 ⟨i, rfl⟩)) hi)

/-- By the time nobody is left behind, all parts have ended of a join that has been left. -/
theorem landed (h : R.Joins run plan N n b kind ps k dss es e) {o : Outcome}
    (he : e = some (t, o)) (ho : Tame o) (hleft : (R.moment N).detached = []) (i : Fin ps.length) :
    ∃ s ≤ N, ∃ x, es i = some (s, x) := by
  have hl := h.leaves t o he
  rcases hl.behind i with ⟨s, hs, x, hx⟩ | hd | ⟨f, rfl, hf⟩
  · exact ⟨s, hs.le.trans hl.horizon, x, hx⟩
  · rcases R.cleared hd hl.horizon with hd | hclosed
    · rw [hleft] at hd
      cases hd
    · obtain ⟨x, hx⟩ := Schedule.isOpen_eq_false_iff.1 hclosed
      obtain ⟨s, hs, hend⟩ := exists_ended hx
      exact ⟨s, hs.le, x, h.of_ended hs hend⟩
  · rw [(tame_error f).1 ho] at hf
    cases hf

/-- The join is decided by the moment before its owner goes on. -/
theorem decided (h : R.Joins run plan N n b kind ps k dss es e) {o : Outcome}
    (he : e = some (t, o)) : ∃ u, t = u + 1 ∧ n < u ∧ R.Idle b (n + 1) (u + 1) ∧
      o = (R.moment u).verdict (R.newJoin n) ∧
      ((R.moment u).join (R.newJoin n)).settled = true := by
  have hl := h.leaves t o he
  obtain ⟨u, rfl, hu, -, rest, hr, -⟩ := h.forks.resumed hl.later hl.idle ⟨_, hl.active⟩
  have hw : R.Woken (u + 1) ((R.moment u).verdict (R.newJoin n)) := ⟨u, _, rest, rfl, hr, rfl⟩
  exact ⟨u, rfl, hu, hl.idle, hl.woken.eq hw,
    ((R.balanced u).waking _ (by rw [hr]; exact List.mem_cons_self)).2⟩

/-- Who waits for all and goes on with results has one of each part, in the order of the parts. -/
theorem all_ok (h : R.Joins run plan N n b .all ps k dss es e) {vs : List Value}
    (he : e = some (t, .ok vs)) : vs.length = ps.length ∧
      ∀ i : Fin ps.length, ∃ v, vs[(i : Nat)]? = some v ∧ ∃ s < t, es i = some (s, .ok v) := by
  rcases (h.leaves t _ he).left with ⟨ws, heq, hall⟩ | ⟨f, heq, -⟩
  · cases heq
    exact ⟨List.length_ofFn, fun i => ⟨ws i, by simp, hall i⟩⟩
  · cases heq

/-- Who waits for all and goes on with a failure has it from the part that failed first. -/
theorem all_error (h : R.Joins run plan N n b .all ps k dss es e) {f : Failure}
    (he : e = some (t, .error f)) : ∃ (i : Fin ps.length) (s : Nat), s < t ∧
      es i = some (s, .error f) ∧
      ∀ (i' : Fin ps.length) (s' : Nat) (g : Failure), es i' = some (s', .error g) → s ≤ s' := by
  obtain ⟨u, rfl, hu, -, ho, hs⟩ := h.decided he
  have hfailure : ((R.moment u).join (R.newJoin n)).failure? = some f := by
    unfold verdict at ho
    rw [(h.forks.join_at hu).2.1] at ho
    dsimp only at ho
    split at ho
    · cases ho
    · next f' hf' =>
      cases ho
      exact hf'
  obtain ⟨i, s, hsu, hend, hfirst⟩ := h.forks.all_failed hu hs hfailure
  have huN := (h.leaves _ _ he).horizon
  exact ⟨i, s, by omega, h.of_ended (by omega) hend, fun i' s' g hi' =>
    hfirst i' s' g (h.ended hi').2.2⟩

/-- The owner of a race goes on with the outcome of the first part, in the order of the parts, that has
ended by then. -/
theorem first_won (h : R.Joins run plan N n b .first ps k dss es e) {o : Outcome}
    (he : e = some (t, o)) : ∃ (i : Fin ps.length) (s : Nat) (x : Except Failure Value),
      s < t ∧ es i = some (s, x) ∧ o = Routine.only x ∧
      ∀ i' < i, ∀ s' x', es i' = some (s', x') → t ≤ s' := by
  obtain ⟨u, rfl, hu, -, ho, hs⟩ := h.decided he
  have hl := h.leaves _ _ he
  obtain ⟨hj, hk, hb⟩ := h.forks.join_at hu
  have hfound : (R.moment u).verdict (R.newJoin n) =
      (R.moment u).winner (List.range' (R.newBranch n) ps.length) := by
    unfold verdict
    rw [hk, hb]
  obtain ⟨d, hd, hclosed⟩ := (R.balanced u).decided _ hj hk hs
  rw [hb] at hd
  have hsome : ((List.range' (R.newBranch n) ps.length).findSome?
      (R.moment u).outcome?).isSome = true :=
    List.findSome?_isSome_iff.2 ⟨d, hd, by
      obtain ⟨x, hx⟩ := isOpen_eq_false_iff.1 hclosed
      rw [hx]
      rfl⟩
  obtain ⟨x, hx⟩ := Option.isSome_iff_exists.1 hsome
  obtain ⟨pre, c, post, hlist, hc, hpre⟩ := List.findSome?_eq_some_iff.1 hx
  have hmem : c ∈ List.range' (R.newBranch n) ps.length := by
    rw [hlist]
    exact List.mem_append_right _ List.mem_cons_self
  obtain ⟨i, rfl⟩ := mem_range'_iff_fin.1 hmem
  obtain ⟨s, hsu, hend⟩ := exists_ended hc
  refine ⟨i, s, x, by omega, h.of_ended (by have := hl.horizon; omega) hend, ?_,
    fun i' hi' s' x' hx' => ?_⟩
  · rw [ho, hfound, winner, hx]
    cases x <;> rfl
  · -- It comes before the winner in the list, so it was open in the step before.
    have hbefore : R.newBranch n + i' ∈ pre := by
      have hlen : pre.length = i := by
        have hget : (List.range' (R.newBranch n) ps.length)[pre.length]? =
            some (R.newBranch n + i) := by
          rw [hlist]
          simp
        obtain ⟨hlt, hget⟩ := List.getElem?_eq_some_iff.1 hget
        rw [List.getElem_range'] at hget
        omega
      have hget : (List.range' (R.newBranch n) ps.length)[(i' : Nat)]? =
          some (R.newBranch n + i') := by
        rw [List.getElem?_eq_getElem (by simp)]
        simp
      rw [hlist, List.getElem?_append_left (by rw [hlen]; exact hi')] at hget
      exact List.mem_of_getElem? hget
    have hopen := hpre _ hbefore
    have hend' := (h.ended hx').2.2
    by_contra hlt
    have hne : s' ≠ u := by
      rintro rfl
      have hnone : (R.moment (s' + 1)).active = none := by
        rw [(R.moves s').advance hend']
        cases x' <;> rfl
      rw [hl.active] at hnone
      cases hnone
    rw [R.outcome?_of_le (by omega : s' + 1 ≤ u) hend'.outcome?] at hopen
    cases hopen

/-- **A race is won by a part that ends no later than any other.** -/
theorem first_time (h : R.Joins run plan N n b .first ps k dss es e) (hk : R.KeepsTime)
    {o : Outcome} (he : e = some (t, o)) {i i' : Fin ps.length} {s s' : Nat}
    {x x' : Except Failure Value} (hi : es i = some (s, x)) (hs : s < t)
    (hi' : es i' = some (s', x')) : (R.store s).clock.Precedes (R.store s').clock := by
  obtain ⟨u, rfl, hu, hidle, -, hset⟩ := h.decided he
  obtain ⟨i₀, s₀, x₀, hs₀, hend₀, hfirst⟩ := h.forks.first_ended hu hset
  have hle := hfirst i s x (h.ended hi).2.2
  have hle' := hfirst i' s' x' (h.ended hi').2.2
  -- From the first end on there is something to do until the owner goes on.
  have hbusy : ∀ j, s₀ ≤ j → j < s → (R.moment j).Busy := by
    intro j hj hjs
    rcases Nat.eq_or_lt_of_le hj with rfl | hlt
    · exact Or.inl (by rw [hend₀]; simp)
    · have hnj : n < j := (Forks.lt_of_ended i₀ hend₀).trans hlt
      rcases h.forks.noticed_or_decided hend₀ (Or.inl rfl) hlt with hr | hd
      · exact Or.inr hr
      · exact Or.inr (h.forks.busy_decided hnj
          (fun a ha ha' => hidle a ha (by omega)) hd)
  have hstands := Run.clock_stands hk hle hbusy
  show (R.store s).clock.Precedes _
  rw [show (R.store s).clock = (R.store s₀).clock from hstands]
  exact Run.clock_forward hk hle'

/-- What suffices for a part of those waited for to go on, told by the accounts of the parts. -/
def Enough (kind : JoinKind) {size : Nat} (es : Fin size → Ending Value) (t : Nat) : Prop :=
  match kind with
  | .first => ∃ i, ∃ s < t, ∃ x, es i = some (s, x)
  | .all => (∃ i, ∃ s < t, ∃ f, es i = some (s, .error f)) ∨ ∀ i, ∃ s < t, ∃ x, es i = some (s, x)
  | .ended => False

/-- **Nobody waits for more than it takes**: once there is enough, the owner goes on before time
passes. -/
theorem prompt (h : R.Joins run plan N n b kind ps k dss es e) {u : Nat} (hu : n < u) (huN : u ≤ N)
    (hready : (R.moment u).ready = []) (henough : Enough kind es u) :
    ∃ t ≤ u, ∃ o, e = some (t, o) := by
  have hforks : Forks.Enough R n kind ps u := by
    cases kind with
    | ended => exact henough
    | first =>
      obtain ⟨i, s, hs, x, hx⟩ := henough
      exact ⟨i, s, x, hs, (h.ended hx).2.2⟩
    | all =>
      rcases henough with ⟨i, s, hs, f, hf⟩ | hall
      · exact Or.inl ⟨i, s, f, hs, (h.ended hf).2.2⟩
      · refine Or.inr fun i => ?_
        obtain ⟨s, hs, x, hx⟩ := hall i
        exact ⟨s, hs, x, (h.ended hx).2.2⟩
  obtain ⟨t', ht', hn, hturn⟩ := h.forks.prompt hu hready hforks
  cases he : e with
  | none => exact absurd hturn (h.waiting he t' hn (by omega))
  | some y =>
    refine ⟨y.1, ?_, y.2, rfl⟩
    by_contra hlt
    exact (h.leaves y.1 y.2 he).idle t' hn (by omega) hturn

end Run.Joins

theorem Deed.AllJoined.of_occurs {ds' : List Deed} (h : Deed.AllJoined R run plan N ds)
    (hs : ∀ {d}, Occurs d ds' → Occurs d ds) : Deed.AllJoined R run plan N ds' :=
  ⟨fun hd => h.joined (hs hd)⟩

/-! ## Landing -/

/-- **By the time nobody is left behind everything has ended** that goes on inside of what is over. -/
theorem Deed.landed (hplan : ∀ p, (plan p).Tame) (hleft : (R.moment N).detached = [])
    (h : ∀ d ∈ ds, d.Accounted R run plan N ∧ ∃ i, d.end? = some i ∧ i ≤ N)
    (hj : Deed.AllJoined R run plan N ds) (hc : Deed.Calm ds) {d : Deed} (hd : Occurs d ds) :
    d.Accounted R run plan N ∧ ∃ i, d.end? = some i ∧ i ≤ N := by
  refine (hd.all (P := fun x => Occurs x ds ∧ x.Accounted R run plan N ∧
    ∃ i, x.end? = some i ∧ i ≤ N) (fun x hx => ⟨.here hx, h x hx⟩) ?_).2
  rintro x ⟨hx, hacc, i, hi, hiN⟩ y hy
  refine ⟨.trans (.here hy) hx, (Account.inside hacc hy).2, ?_⟩
  have hcx : Deed.Calm x.inner := hc.of_occurs fun hz => .trans hz hx
  rcases Account.inside_ended hplan hacc hcx hy hi with
    ⟨j, hj', hji⟩ | ⟨m, kind, inner, t, o, _, _, _, _, _, rfl, -, -, -⟩
  · exact ⟨j, hj', hji.trans hiN⟩
  · -- What a fork has left behind has ended since.
    have htame := Account.fork_tame hplan hacc hcx
    obtain ⟨b', ps, k, dss, es, rfl, hjoin⟩ := hj.joined hx
    obtain ⟨a, rfl⟩ := Deed.mem_parts.1 hy
    obtain ⟨s, hs, z, hz⟩ := hjoin.landed rfl htame hleft a
    exact ⟨s, by rw [Deed.end?, hz]; rfl, hs⟩

end Conductor
