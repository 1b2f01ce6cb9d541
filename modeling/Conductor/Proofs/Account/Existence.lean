import Conductor.Proofs.Account.History

/-!
# Whatever runs has an account

**Theorem (`Run.exists_account`).** When a branch has the turn and goes on with an outline, then up
to every later moment there is an account of what it does; and if the account says that the outline
has ended, then the branch goes on at that moment with what comes behind the outline.

The induction is on the time that is left up to the horizon. An action of the branch takes one
moment, and so does the beginning of the branches that it starts; a wait ends at the first moment at
which the branch has the turn again (`Run.waits`). Remarks and calls of user code take no time by
themselves: they are parts of the outline, which is finite.
-/

namespace Conductor

namespace Schedule

variable {m m' : Schedule} {b : Nat} {body : Procedure → Routine Value}

/-! ## How waits begin -/

/-- The branch waits, and will go on with a routine when the wait is over. -/
def GoesOn (m : Schedule) (b : Nat) (r : Routine Value) : Prop :=
  ∃ x, m.Awaits b x ∧ (m.branch b).resume (.ok []) = r ∧ ∀ j, x = .join j → (m.join j).kind = .ended

/-- A branch that sleeps rests. -/
theorem awaits_sleep (m : Schedule) (b : Nat) (x : Binary64) (k : Outcome → Routine Value) :
    (m.sleep b x k).Awaits b .rest := by
  unfold sleep
  dsimp only
  split
  · exact Or.inr (Or.inr ⟨_, List.mem_append_right _ (List.mem_singleton_self _), rfl⟩)
  · exact Or.inl (List.mem_append_right _ (List.mem_singleton_self _))

theorem goesOn_sleep (m : Schedule) (hb : b < m.branches.size) (x : Binary64)
    (k : Outcome → Routine Value) : (m.sleep b x k).GoesOn b (k (.ok [])) := by
  have hresume := congrFun (resume_suspend hb k) (.ok [])
  refine ⟨.rest, awaits_sleep m b x k, ?_, nofun⟩
  unfold sleep
  dsimp only
  split
  · exact hresume
  · exact hresume

theorem awaits_joinOn (m : Schedule) (b : Nat) (kind : JoinKind) (bs : List Nat)
    (k : Outcome → Routine Value) :
    (m.joinOn b kind bs k).Awaits b (.join m.joins.size) ∧
      ((m.joinOn b kind bs k).join m.joins.size).kind = kind ∧
      ((m.joinOn b kind bs k).join m.joins.size).branches = bs := by
  have h := join_joinOn m b kind bs k m.joins.size
  rw [if_pos rfl] at h
  refine ⟨⟨by simp, Or.inl (by rw [h]), by rw [h]⟩, by rw [h], by rw [h]⟩

/-- The branches that are started begin when they get the turn. -/
theorem goesOn_startAndJoin (hb : b < m.branches.size) (kind : JoinKind) {ps : List Procedure}
    (k : Outcome → Routine Value) (i : Fin ps.length) :
    (m.startAndJoin body b kind ps k).GoesOn (m.branches.size + i) (body ps[i]) := by
  have hps : ps ≠ [] := by
    rintro rfl
    exact i.elim0
  rw [startAndJoin_eq m b kind hps]
  refine ⟨.rest, Or.inl ?_, ?_, nofun⟩
  · rw [ready_joinOn, ready_spawnAll]
    refine List.mem_append_left _ (List.mem_append_right _ (List.mem_map_of_mem ?_))
    rw [List.length_map, List.mem_range'_1]
    exact ⟨Nat.le_add_right _ _, Nat.add_lt_add_left i.isLt _⟩
  · rw [resume_joinOn_of_ne (by omega) (by rw [size_spawnAll]; omega), branch_spawnAll,
      if_pos ⟨Nat.le_add_right _ _, by rw [List.length_map]; omega⟩]
    simp

end Schedule

namespace Run

open Schedule

variable {body : Procedure → Routine Value} (R : Run body) {b n N t : Nat}

/-! ## How waits end -/

/-- A branch waits up to a moment for what it waited for from the start, and has not changed. -/
structure Stays (b n t : Nat) (x : Prospect) : Prop where
  idle : R.Idle b n (t + 1)
  awaits : (R.moment t).Awaits b x
  resume : ((R.moment t).branch b).resume = ((R.moment n).branch b).resume
  join : ∀ j, x = .join j → ((R.moment t).join j).kind = ((R.moment n).join j).kind ∧
    ((R.moment t).join j).branches = ((R.moment n).join j).branches

/-- A branch that waits goes on doing so up to the horizon, or it gets the turn before. -/
theorem waits {x : Prospect} (h : (R.moment n).Awaits b x) (hN : n ≤ N) :
    R.Stays b n N x ∨ ∃ t, n ≤ t ∧ t < N ∧ R.Stays b n t x ∧
      (R.moment t).Resumes (R.moment (t + 1)) b x := by
  induction N, hN using Nat.le_induction with
  | base =>
    refine Or.inl ⟨?_, h, rfl, fun _ _ => ⟨rfl, rfl⟩⟩
    rintro i hi hi' ⟨r, hr⟩
    obtain rfl : i = n := by omega
    exact h.not_active (R.balanced i) r hr
  | succ N hN ih =>
    rcases ih with hs | ⟨t, hn, ht, hs, hr⟩
    · have hB := R.balanced N
      rcases hs.awaits.next hB (R.moves N) with hw | hr
      · refine Or.inl ⟨?_, hw, ?_, fun j hj => ?_⟩
        · rintro i hi hi' ⟨r, hr⟩
          rcases Nat.lt_succ_iff_lt_or_eq.1 hi' with hlt | rfl
          · exact hs.idle i hi hlt ⟨r, hr⟩
          · exact hw.not_active (R.balanced (N + 1)) r hr
        · rw [(R.moves N).resume_eq hB (hs.awaits.open hB).1 fun r => hs.awaits.not_active hB r,
            hs.resume]
        · subst hj
          obtain ⟨-, hk, hbs⟩ := (R.moves N).join_kept hB hs.awaits.1
          exact ⟨hk.trans (hs.join j rfl).1, hbs.trans (hs.join j rfl).2⟩
      · exact Or.inr ⟨N, hN, Nat.lt_succ_self N, hs, hr⟩
    · exact Or.inr ⟨t, hn, Nat.lt_succ_of_lt ht, hs, hr⟩

/-- A branch that will go on with a routine waits up to the horizon, or has the turn before and goes
on with it. -/
theorem goesOn {r : Routine Value} (h : (R.moment n).GoesOn b r) (hN : n ≤ N) :
    (R.Idle b n (N + 1) ∧ (R.moment N).isOpen b = true) ∨
      ∃ t, n < t ∧ t ≤ N ∧ R.Idle b n t ∧ (R.moment t).active = some (b, r) := by
  obtain ⟨x, hx, hr, hk⟩ := h
  rcases R.waits hx hN with hs | ⟨t, hn, ht, hs, hres⟩
  · exact Or.inl ⟨hs.idle, (hs.awaits.open (R.balanced N)).2⟩
  · refine Or.inr ⟨t + 1, Nat.lt_succ_of_le hn, ht, hs.idle, ?_⟩
    cases x with
    | rest =>
      have hres : (R.moment (t + 1)).active = some (b, ((R.moment t).branch b).resume (.ok [])) :=
        hres
      rw [hres, hs.resume, hr]
    | join j =>
      obtain ⟨rest, hready, hm⟩ := hres
      have hv : (R.moment t).verdict j = .ok [] := by
        rw [verdict, (hs.join j rfl).1, hk j rfl]
      rw [hm, (wake_verdict (R.balanced t) hready).1, hs.awaits.2.2, hs.resume, hv, hr]

/-! ## Accounts -/

/-- What an ending says about the run: the branch goes on behind the outline at the given moment, or
it is still open at the horizon. -/
def Ends {α : Type} (N b n : Nat) (g : Except Failure α → Routine Value) : Ending α → Prop
  | some (t, o) => n ≤ t ∧ t ≤ N ∧ (R.moment t).active = some (b, g o)
  | none => (R.moment N).isOpen b = true

theorem Ends.mono {R : Run body} {α : Type} {n' : Nat} {g : Except Failure α → Routine Value}
    {e : Ending α} (h : R.Ends N b n' g e) (hn : n ≤ n') : R.Ends N b n g e := by
  cases e with
  | none => exact h
  | some x => exact ⟨hn.trans h.1, h.2⟩

variable (N) (run : Handlers) (plan : Procedure → Outline Value)

/-- From a moment on, whatever is about to run has an account. -/
def Told (n : Nat) : Prop :=
  ∀ ⦃α : Type⦄ (x : Outline α) (g : Except Failure α → Routine Value) (b : Nat),
    (R.moment n).active = some (b, (x.erase run).thenOn g) →
      ∃ ds e, Account R run plan N b n (.now x) ds e ∧ R.Ends N b n g e

variable {run plan N}

/-- What is about to run when a wait is over has an account from the beginning of the wait. -/
theorem later_told (h : ∀ t, n < t → t ≤ N → R.Told N run plan t) (hN : n ≤ N) {α : Type}
    {x : Outline α} {g : Except Failure α → Routine Value}
    (hg : (R.moment n).GoesOn b ((x.erase run).thenOn g)) :
    ∃ ds e, Account R run plan N b n (.later x) ds e ∧ R.Ends N b n g e := by
  rcases R.goesOn hg hN with ⟨hi, ho⟩ | ⟨t, hn, ht, hi, ha⟩
  · exact ⟨[], none, .rest x hN hi, ho⟩
  · obtain ⟨ds, e, hacc, he⟩ := h t hn ht x g b ha
    exact ⟨ds, e, .resume hn.le ht hi ⟨_, ha⟩ hacc, he.mono hn.le⟩

/-- A branch that has ended did so where its account says. -/
theorem ending_of_outcome? {s : Nat} (hsN : s ≤ N) {e : Ending Value} {o : Except Failure Value}
    (he : R.Ends N b n Routine.ofOutcome e) (ho : (R.moment s).outcome? b = some o) :
    ∃ t < s, e = some (t, o) := by
  cases e with
  | none =>
    have := R.isOpen_of_le hsN he
    rw [isOpen, ho] at this
    cases this
  | some y =>
    obtain ⟨-, -, ha⟩ := he
    have hopen := R.isOpen_of_hasTurn ⟨_, ha⟩
    have hlt : y.1 < s := by
      by_contra hge
      rw [isOpen, R.outcome?_of_le (Nat.le_of_not_lt hge) ho] at hopen
      cases hopen
    -- The branch ends in the step that follows.
    have hb : b < (R.moment y.1).branches.size := ((R.balanced y.1).take ha).of_held.1
    have hout : (R.moment (y.1 + 1)).outcome? b = some y.2 := by
      rw [(R.moves y.1).advance ha]
      cases y.2 with
      | ok v => exact (outcome?_finish _ _ hb _).trans (if_pos rfl)
      | error f => exact (outcome?_finish _ _ hb _).trans (if_pos rfl)
    have := R.outcome?_of_le hlt hout
    rw [ho] at this
    cases this
    exact ⟨y.1, hlt, rfl⟩

theorem mem_range'_iff_fin {first k d : Nat} :
    d ∈ List.range' first k ↔ ∃ i : Fin k, d = first + i := by
  rw [List.mem_range'_1]
  constructor
  · rintro ⟨hle, hlt⟩
    exact ⟨⟨d - first, by omega⟩, by simp only; omega⟩
  · rintro ⟨i, rfl⟩
    exact ⟨Nat.le_add_right _ _, Nat.add_lt_add_left i.isLt _⟩

/-- How a join is left, told by the accounts of its parts. -/
theorem left_of_decides {k first s : Nat} {kind : JoinKind} (hkind : kind ≠ .ended)
    {es : Fin k → Ending Value} {o : Outcome} (hsN : s ≤ N)
    (hes : ∀ i : Fin k, R.Ends N (first + i) n Routine.ofOutcome (es i))
    (hd : (R.moment s).Decides kind (List.range' first k) o) : kind.Left es (s + 1) o := by
  have hend : ∀ (i : Fin k) {x : Except Failure Value},
      (R.moment s).outcome? (first + i) = some x → ∃ t < s + 1, es i = some (t, x) := by
    intro i x hx
    obtain ⟨t, ht, he⟩ := R.ending_of_outcome? hsN (hes i) hx
    exact ⟨t, Nat.lt_succ_of_lt ht, he⟩
  cases kind with
  | ended => exact absurd rfl hkind
  | all =>
    rcases hd with ⟨rfl, hok⟩ | ⟨f, rfl, d, hdm, hf⟩
    · have hv : ∀ i : Fin k, ∃ v, (R.moment s).outcome? (first + i) = some (.ok v) := fun i =>
        hok _ (mem_range'_iff_fin.2 ⟨i, rfl⟩)
      choose vs hvs using hv
      refine Or.inl ⟨vs, ?_, fun i => hend i (hvs i)⟩
      congr 1
      refine List.ext_getElem (by simp [resultsOf]) fun i h₁ h₂ => ?_
      have hi : i < k := by simpa using h₂
      have := hvs ⟨i, hi⟩
      simp only at this
      simp [resultsOf, this]
    · obtain ⟨i, rfl⟩ := mem_range'_iff_fin.1 hdm
      obtain ⟨t, ht, he⟩ := hend i hf
      exact Or.inr ⟨f, rfl, i, t, ht, he⟩
  | first =>
    obtain ⟨d, hdm, x, hx, rfl⟩ := hd
    obtain ⟨i, rfl⟩ := mem_range'_iff_fin.1 hdm
    obtain ⟨t, ht, he⟩ := hend i hx
    exact ⟨i, t, ht, x, he, rfl⟩

/-! ## Actions -/

section Actions

variable (hplan : ∀ p, (plan p).erase run = body p)
  (h : ∀ t, n < t → t ≤ N → R.Told N run plan t) (hn : n < N)

include h hn

/-- What a branch does that goes on at once with what comes after an action. -/
theorem next_told {α : Type} {x : Outline α} {g : Except Failure α → Routine Value}
    {r : Routine Value} (ha : (R.moment n).active = some (b, r))
    (hadv : (R.moment n).advance body b r =
      (R.moment n).activate b ((x.erase run).thenOn g)) :
    R.store (n + 1) = R.store n ∧ ∃ ds e, Account R run plan N b (n + 1) (.now x) ds e ∧
      R.Ends N b (n + 1) g e := by
  have hm := ((R.moves n).advance ha).trans hadv
  obtain ⟨ds, e, hacc, he⟩ := h (n + 1) (Nat.lt_succ_self n) hn x g b (by rw [hm]; rfl)
  exact ⟨by rw [store, hm]; rfl, ds, e, hacc, he⟩

include hplan

theorem call_told {α : Type} {p : Procedure} {k : Outcome → Outline α}
    {g : Except Failure α → Routine Value}
    (ha : (R.moment n).active =
      some (b, .await (.call p) fun o => ((k o).erase run).thenOn g)) :
    ∃ ds e, Account R run plan N b n (.now (.await (.call p) k)) ds e ∧ R.Ends N b n g e := by
  have hadv : (R.moment n).advance body b (.await (.call p) fun o => ((k o).erase run).thenOn g) =
      (R.moment n).activate b (((plan p).erase run).thenOn
        fun x => ((k (Routine.only x)).erase run).thenOn g) := by
    rw [hplan, ← Routine.continueWith_eq_thenOn _ fun o => ((k o).erase run).thenOn g]
    rfl
  obtain ⟨hs, ds, e, hacc, he⟩ := R.next_told h hn ha hadv
  cases e with
  | none => exact ⟨_, none, .calling hn ⟨_, ha⟩ hs hacc, he⟩
  | some y =>
    have hlt : n < y.1 := he.1
    obtain ⟨ds', e', hacc', he'⟩ := h y.1 hlt he.2.1 _ g b he.2.2
    exact ⟨_, e', .call hn ⟨_, ha⟩ hs hacc hacc', he'.mono hlt.le⟩

theorem fork_told {α : Type} {w : Wait} {kind : JoinKind} {ps : List Procedure}
    (hw : sides w = some (kind, ps)) {k : Outcome → Outline α}
    {g : Except Failure α → Routine Value}
    (ha : (R.moment n).active = some (b, .await w fun o => ((k o).erase run).thenOn g)) :
    ∃ ds e, Account R run plan N b n (.now (.await w k)) ds e ∧ R.Ends N b n g e := by
  have hB := R.balanced n
  have hb : b < (R.moment n).branches.size := (hB.take ha).of_held.1
  set r : Outcome → Routine Value := fun o => ((k o).erase run).thenOn g with hr
  have hadv : (R.moment n).advance body b (.await w r) =
      (R.moment n).startAndJoin body b kind ps r := by
    cases w <;> cases hw <;> rfl
  have hkind : kind ≠ .ended := by
    cases w <;> cases hw <;> nofun
  by_cases hps : ps = []
  · subst hps
    obtain ⟨hs, ds, e, hacc, he⟩ := R.next_told h hn ha hadv
    exact ⟨ds, e, .skip hw hn ⟨_, ha⟩ hs hacc, he.mono (Nat.le_succ n)⟩
  · have hm : R.moment (n + 1) = (R.moment n).startAndJoin body b kind ps r :=
      ((R.moves n).advance ha).trans hadv
    -- Each of the new branches has an account from now on.
    have hpart : ∀ i : Fin ps.length, ∃ ds e,
        Account R run plan N ((R.moment n).branches.size + i) (n + 1) (.later (plan (ps.get i))) ds e ∧
          R.Ends N ((R.moment n).branches.size + i) (n + 1) Routine.ofOutcome e := by
      intro i
      refine R.later_told (fun t ht => h t (Nat.lt_of_succ_lt ht)) hn ?_
      rw [Routine.thenOn_ofOutcome, hplan, hm]
      exact goesOn_startAndJoin hb kind r i
    choose dss es hacc hes using hpart
    -- The owner waits in the new join.
    have hwait : (R.moment (n + 1)).Awaits b (.join (R.moment n).joins.size) ∧
        ((R.moment (n + 1)).join (R.moment n).joins.size).kind = kind ∧
        ((R.moment (n + 1)).join (R.moment n).joins.size).branches =
          List.range' (R.moment n).branches.size ps.length ∧
        ((R.moment (n + 1)).branch b).resume = r := by
      rw [hm, startAndJoin_eq _ b kind hps]
      have hj := awaits_joinOn ((R.moment n).spawnAll (ps.map body)).2 b kind
        (List.range' (R.moment n).branches.size ps.length) r
      rw [joins_spawnAll] at hj
      exact ⟨hj.1, hj.2.1, hj.2.2, resume_joinOn (by rw [size_spawnAll]; omega) _ _ _⟩
    obtain ⟨hwait, hk, hbs, hresume⟩ := hwait
    rcases R.waits hwait hn with hs | ⟨t, hnt, htN, hs, hres⟩
    · exact ⟨_, none, .forking hw hps hn ⟨_, ha⟩ hs.idle hacc, (hs.awaits.open (R.balanced N)).2⟩
    · obtain ⟨rest, hready, hmt⟩ := hres
      have ho := decides_verdict (R.balanced t) (by rw [hready]; exact List.mem_cons_self)
      obtain ⟨hat, hleft⟩ := wake_verdict (R.balanced t) hready
      obtain ⟨hk', hbs'⟩ := hs.join _ rfl
      rw [hk', hk, hbs', hbs] at ho hleft
      rw [← hmt, hs.awaits.2.2, hs.resume, hresume] at hat
      rw [← hmt] at hleft
      have hlt : n < t + 1 := by omega
      obtain ⟨ds, e, hacc', he⟩ := h (t + 1) hlt htN (k _) g b hat
      refine ⟨_, e, .fork hw hps hlt htN ⟨_, ha⟩ hs.idle ⟨_, hat⟩ hacc ⟨t, _, rest, rfl, hready, rfl⟩
        (R.left_of_decides hkind htN.le hes ho) (fun i => ?_) hacc', he.mono hlt.le⟩
      rcases hleft hkind _ (mem_range'_iff_fin.2 ⟨i, rfl⟩) with hc | hd | hf
      · obtain ⟨x, hx⟩ := isOpen_eq_false_iff.1 hc
        obtain ⟨s, hst, hes'⟩ := R.ending_of_outcome? htN.le (hes i) hx
        exact Or.inl ⟨s, Nat.lt_succ_of_lt hst, x, hes'⟩
      · exact Or.inr (Or.inl hd)
      · exact Or.inr (Or.inr hf)

theorem await_told {α : Type} (w : Wait) {k : Outcome → Outline α}
    {g : Except Failure α → Routine Value}
    (ha : (R.moment n).active = some (b, .await w fun o => ((k o).erase run).thenOn g)) :
    ∃ ds e, Account R run plan N b n (.now (.await w k)) ds e ∧ R.Ends N b n g e := by
  have hB := R.balanced n
  have hb : b < (R.moment n).branches.size := (hB.take ha).of_held.1
  cases w with
  | call p => exact R.call_told hplan h hn ha
  | all ps => exact R.fork_told hplan h hn rfl ha
  | first ps => exact R.fork_told hplan h hn rfl ha
  | sleep x =>
    have hm : R.moment (n + 1) = (R.moment n).sleep b x _ := (R.moves n).advance ha
    obtain ⟨ds, e, hacc, he⟩ := R.later_told (x := k (.ok [])) (g := g)
      (fun t ht => h t (Nat.lt_of_succ_lt ht)) hn (by rw [hm]; exact goesOn_sleep _ hb x _)
    exact ⟨ds, e, .sleep hn ⟨_, ha⟩ hacc, he.mono (Nat.le_succ n)⟩
  | detached =>
    have hm := (R.moves n).advance ha
    by_cases hd : (R.moment n).detached.isEmpty = true
    · obtain ⟨hs, ds, e, hacc, he⟩ := R.next_told (x := k (.ok [])) (g := g) h hn ha (by
        show (R.moment n).wait body b .detached _ = _
        rw [wait, if_pos hd])
      exact ⟨ds, e, .drained hn ⟨_, ha⟩ (by simpa using hd) hs hacc, he.mono (Nat.le_succ n)⟩
    · have hm' : R.moment (n + 1) = (R.moment n).joinOn b .ended (R.moment n).detached
          fun _ => .await .detached fun o => ((k o).erase run).thenOn g := by
        rw [hm]
        show (R.moment n).wait body b .detached _ = _
        rw [wait, if_neg hd]
      obtain ⟨hj, hk, -⟩ := awaits_joinOn (R.moment n) b .ended (R.moment n).detached
        fun _ => .await .detached fun o => ((k o).erase run).thenOn g
      obtain ⟨ds, e, hacc, he⟩ := R.later_told (x := .await .detached k) (g := g)
        (fun t ht => h t (Nat.lt_of_succ_lt ht)) hn (by
          rw [hm']
          exact ⟨_, hj, congrFun (resume_joinOn hb _ _ _) (.ok []), fun j hj' => by
            cases hj'
            exact hk⟩)
      exact ⟨ds, e, .drain hn ⟨_, ha⟩ (by simpa using hd) hacc, he.mono (Nat.le_succ n)⟩

end Actions

/-- An outline that begins with an action has an account, if whatever comes later has one. -/
theorem acting_told (hplan : ∀ p, (plan p).erase run = body p)
    (h : ∀ t, n < t → t ≤ N → R.Told N run plan t) (hN : n ≤ N) {α : Type} {x : Outline α}
    (hx : x.Acts) {g : Except Failure α → Routine Value}
    (ha : (R.moment n).active = some (b, (x.erase run).thenOn g)) :
    ∃ ds e, Account R run plan N b n (.now x) ds e ∧ R.Ends N b n g e := by
  rcases Nat.lt_or_eq_of_le hN with hn | rfl
  · cases x with
    | get k =>
      obtain ⟨hs, ds, e, hacc, he⟩ := R.next_told (x := k (R.store n)) (g := g) h hn ha rfl
      exact ⟨ds, e, .get hn ⟨_, ha⟩ hs hacc, he.mono (Nat.le_succ n)⟩
    | put s x =>
      have hm : R.moment (n + 1) =
          ((R.moment n).withStore s).activate b ((x.erase run).thenOn g) := (R.moves n).advance ha
      obtain ⟨ds, e, hacc, he⟩ := h (n + 1) (Nat.lt_succ_self n) hn x g b (by rw [hm]; rfl)
      exact ⟨ds, e, .put hn ⟨_, ha⟩ (by rw [store, hm]; rfl) hacc, he.mono (Nat.le_succ n)⟩
    | await w k => exact R.await_told hplan h hn w ha
    | done | fail | remark | ask => exact hx.elim
  · exact ⟨[], none, .stop x hx ⟨_, ha⟩, R.isOpen_of_hasTurn ⟨_, ha⟩⟩

/-- **Whatever runs has an account.** -/
theorem exists_account (hplan : ∀ p, (plan p).erase run = body p) (hN : n ≤ N) :
    R.Told N run plan n := by
  induction hk : N - n using Nat.strong_induction_on generalizing n with
  | _ k ih =>
  subst hk
  have h : ∀ t, n < t → t ≤ N → R.Told N run plan t := fun t ht htN => ih (N - t) (by omega) htN rfl
  intro α x g b ha
  induction x with
  | done a => exact ⟨[], _, .done a, le_rfl, hN, ha⟩
  | fail f => exact ⟨[], _, .fail f, le_rfl, hN, ha⟩
  | get k => exact R.acting_told (x := .get k) hplan h hN trivial ha
  | put s x => exact R.acting_told (x := .put s x) hplan h hN trivial ha
  | await w k => exact R.acting_told (x := .await w k) hplan h hN trivial ha
  | remark l x ihx =>
    obtain ⟨ds, e, hacc, he⟩ := ihx ha
    exact ⟨_, e, .remark l hacc, he⟩
  | ask u c args k ihk =>
    have ha' : (R.moment n).active =
        some (b, ((Outline.plain (run c args)).erase run).thenOn
          fun o => ((k o).erase run).thenOn g) := by
      rw [ha, Outline.erase_plain, ← Routine.thenOn_thenOn]
      rfl
    -- User code is a routine without remarks and calls of its own.
    have hinner : ∃ ds e, Account R run plan N b n (.now (.plain (run c args))) ds e ∧
        R.Ends N b n (fun o => ((k o).erase run).thenOn g) e := by
      cases hr : run c args with
      | done v =>
        rw [hr] at ha'
        exact ⟨[], _, .done v, le_rfl, hN, ha'⟩
      | fail f =>
        rw [hr] at ha'
        exact ⟨[], _, .fail f, le_rfl, hN, ha'⟩
      | get k' =>
        rw [hr] at ha'
        exact R.acting_told (x := .plain (.get k')) hplan h hN trivial ha'
      | put s r =>
        rw [hr] at ha'
        exact R.acting_told (x := .plain (.put s r)) hplan h hN trivial ha'
      | await w k' =>
        rw [hr] at ha'
        exact R.acting_told (x := .plain (.await w k')) hplan h hN trivial ha'
    obtain ⟨ds, e, hacc, he⟩ := hinner
    cases e with
    | none => exact ⟨_, none, .asking u c args hacc, he⟩
    | some y =>
      obtain ⟨hn, hyN, hay⟩ := he
      have hk : ∃ ds e, Account R run plan N b y.1 (.now (k y.2)) ds e ∧ R.Ends N b y.1 g e := by
        rcases Nat.lt_or_eq_of_le hn with hlt | heq
        · exact h y.1 hlt hyN _ g b hay
        · rw [← heq] at hay ⊢
          exact ihk y.2 hay
      obtain ⟨ds', e', hacc', he'⟩ := hk
      exact ⟨_, e', .ask u c args hacc hacc', he'.mono hn⟩

end Run

end Conductor
