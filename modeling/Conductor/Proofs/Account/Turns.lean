import Conductor.Proofs.Account.Running

/-!
# Turns and pauses

What is running goes from one piece to the next (`Account.attempt_runs`, `Account.straight_runs`), and
whether it waits in between can be told moment by moment. Code that neither waits nor says anything
keeps the turn (`Run.Awake`). A pause gives it away once, for a sleep of the length in question, and
does nothing if the length is not positive (`Run.Pauses`).

**Theorem (`Account.pause_runs`).** At the horizon a pause is over in this way, or goes on.
-/

namespace Conductor

open Schedule

variable {body : Procedure → Routine Value} {R : Run body} {run : Handlers}
  {plan : Procedure → Outline Value} {N : Nat} {α β : Type} {b n m t : Nat} {ds : List Deed}

namespace Stretch.Runs

variable {x : Outline α} {g : Except Failure α → Routine Value}

theorem hasTurn (h : (now x).Runs R run b n g) : R.HasTurn b n := ⟨_, h⟩

/-- A remark takes no time. -/
theorem said {l : Remark} (h : (now (.remark l x)).Runs R run b n g) : (now x).Runs R run b n g := h

end Stretch.Runs

namespace Run

/-! ## Keeping the turn -/

/-- A branch has the turn from one moment to another, both included. -/
def Awake (R : Run body) (b n m : Nat) : Prop := ∀ i, n ≤ i → i ≤ m → R.HasTurn b i

/-- Straight code keeps the turn, and what comes behind it goes on in the store that it has made. -/
theorem straight {r : Routine α} {g : Except Failure α → Routine Value} {i : Nat}
    {o : Except Failure α} {s : Store} (hr : r.eval (R.store n) = some (i, o, s))
    (ha : (R.moment n).active = some (b, r.thenOn g)) :
    R.Awake b n (n + i) ∧ (R.moment (n + i)).active = some (b, g o) ∧ R.store (n + i) = s := by
  -- One step is taken at the first moment, and the rest from the next one on.
  have hcons : ∀ {j : Nat}, R.Awake b (n + 1) (n + 1 + j) → R.Awake b n (n + (j + 1)) := by
    intro j hj k hk hk'
    by_cases hkn : k = n
    · exact hkn ▸ ⟨_, ha⟩
    · exact hj k (by omega) (by omega)
  induction r generalizing n i with
  | done a =>
    cases hr
    refine ⟨fun k hk hk' => ?_, ha, rfl⟩
    obtain rfl : k = n := Nat.le_antisymm hk' hk
    exact ⟨_, ha⟩
  | fail f =>
    cases hr
    refine ⟨fun k hk hk' => ?_, ha, rfl⟩
    obtain rfl : k = n := Nat.le_antisymm hk' hk
    exact ⟨_, ha⟩
  | get k ih =>
    simp only [Routine.eval, Option.map_eq_some_iff] at hr
    obtain ⟨⟨j, x⟩, hr, heq⟩ := hr
    cases heq
    have hstore : R.store (n + 1) = R.store n := by
      rw [Run.store, (R.moves n).advance ha]
      rfl
    have hnext : (R.moment (n + 1)).active = some (b, (k (R.store n)).thenOn g) :=
      R.active_next ha rfl
    obtain ⟨hawake, hgo, hs⟩ := ih (R.store n) (by rw [hstore]; exact hr) hnext
      fun hj l hl hl' => by
        by_cases hln : l = n + 1
        · exact hln ▸ ⟨_, hnext⟩
        · exact hj l (by omega) (by omega)
    rw [Nat.add_right_comm, Nat.add_assoc] at hgo hs
    exact ⟨hcons hawake, hgo, hs⟩
  | put u r ih =>
    simp only [Routine.eval, Option.map_eq_some_iff] at hr
    obtain ⟨⟨j, x⟩, hr, heq⟩ := hr
    cases heq
    have hstore : R.store (n + 1) = u := by
      rw [Run.store, (R.moves n).advance ha]
      rfl
    have hnext : (R.moment (n + 1)).active = some (b, r.thenOn g) := by
      rw [(R.moves n).advance ha]
      rfl
    obtain ⟨hawake, hgo, hs⟩ := ih (by rw [hstore]; exact hr) hnext
      fun hj l hl hl' => by
        by_cases hln : l = n + 1
        · exact hln ▸ ⟨_, hnext⟩
        · exact hj l (by omega) (by omega)
    rw [Nat.add_right_comm, Nat.add_assoc] at hgo hs
    exact ⟨hcons hawake, hgo, hs⟩
  | await w k => cases hr

/-! ## Sleeping -/

/-- A branch sleeps once for a time, and then has the turn again. -/
structure Sleeps (R : Run body) (b n : Nat) (x : Binary64) (m : Nat) : Prop where
  later : n < m
  calls : ∃ k, (R.moment n).active = some (b, .await (.sleep x) k)
  idle : R.Idle b (n + 1) m
  back : R.HasTurn b m

/-- A branch pauses: it sleeps once if the time is positive, and goes on at once otherwise. -/
inductive Pauses (R : Run body) (b n : Nat) (d : Number) : Nat → Prop
  | slept {x : Binary64} {m : Nat} (hd : d.isPositive = true) (hx : d.toBinary64 = .ok x)
    (h : R.Sleeps b n x m) : Pauses R b n d m
  | skipped (hd : d.isPositive = false) : Pauses R b n d n

end Run

/-! ## Piece by piece -/

namespace Account

/-- **An account of what is running** behind something that is over. -/
theorem thenOn_runs (hplan : ∀ p, (plan p).erase run = body p) {x : Outline α}
    {k : Except Failure α → Outline β} {e : Ending β}
    (h : Account R run plan N b n (.now (x.thenOn k)) ds e) (hN : n ≤ N)
    {g : Except Failure β → Routine Value} (hr : (Stretch.now (x.thenOn k)).Runs R run b n g) :
    (∃ ds₁ t o ds₂, Account R run plan N b n (.now x) ds₁ (some (t, o)) ∧ t ≤ N ∧
        Account R run plan N b t (.now (k o)) ds₂ e ∧ (Stretch.now (k o)).Runs R run b t g ∧
        ds = ds₁ ++ ds₂) ∨
      (Account R run plan N b n (.now x) ds none ∧ e = none) := by
  have hx : (Stretch.now x).Runs R run b n fun o => ((k o).erase run).thenOn g := by
    show (R.moment n).active = _
    rw [← Routine.thenOn_thenOn, ← Outline.erase_thenOn]
    exact hr
  rcases h.thenOn with ⟨ds₁, t, o, ds₂, h₁, h₂, rfl⟩ | h
  · obtain ⟨⟨-, htN, ha⟩, -⟩ := h₁.runs hplan hN hx
    exact Or.inl ⟨ds₁, t, o, ds₂, h₁, htN, h₂, ha, rfl⟩
  · exact Or.inr h

/-- **An account of what is running** behind a handler, if no abort comes out of user code. -/
theorem attempt_runs (hplan : ∀ p, (plan p).erase run = body p) (htame : ∀ p, (plan p).Tame)
    {x : Outline α} {k : Except Failure α → Outline β} {e : Ending β}
    (h : Account R run plan N b n (.now (x.attempt >>= k)) ds e) (hN : n ≤ N)
    {g : Except Failure β → Routine Value}
    (hr : (Stretch.now (x.attempt >>= k)).Runs R run b n g) (hx : x.Tame) (hc : Deed.Calm ds) :
    (∃ ds₁ t o ds₂, Account R run plan N b n (.now x) ds₁ (some (t, o)) ∧ t ≤ N ∧
        Account R run plan N b t (.now (k o)) ds₂ e ∧ (Stretch.now (k o)).Runs R run b t g ∧
        ds = ds₁ ++ ds₂) ∨
      (Account R run plan N b n (.now x) ds none ∧ e = none) := by
  rw [Outline.bind_eq, Outline.attempt, Outline.thenOn_thenOn] at h hr
  rcases h.thenOn_runs hplan hN hr with ⟨ds₁, t, o, ds₂, h₁, ht, h₂, hr₂, rfl⟩ | h
  · have ho : Tame o := h₁.tame htame hx hc.append.1 rfl
    have hcaught : (Outline.caught o).thenOn (Outline.onward k) = k o := by
      cases o with
      | ok a => rfl
      | error f =>
        rw [Outline.caught, if_pos ((tame_error f).1 ho)]
        rfl
    rw [hcaught] at h₂ hr₂
    exact Or.inl ⟨ds₁, t, o, ds₂, h₁, ht, h₂, hr₂, rfl⟩
  · exact Or.inr h

/-- **An account of what is running** behind straight code: the turn is not given away before. -/
theorem straight_runs (hplan : ∀ p, (plan p).erase run = body p) {r : Routine α}
    {k : α → Outline β} {e : Ending β}
    (h : Account R run plan N b n (.now (.plain r >>= k)) ds e) (hN : n ≤ N)
    {g : Except Failure β → Routine Value} (hr : (Stretch.now (.plain r >>= k)).Runs R run b n g)
    {i : Nat} {a : α} {s : Store} (heval : r.eval (R.store n) = some (i, .ok a, s)) :
    (ds = [] ∧ e = none ∧ R.HasTurn b N) ∨
      (R.Awake b n (n + i) ∧ R.store (n + i) = s ∧ n + i ≤ N ∧
        Account R run plan N b (n + i) (.now (k a)) ds e ∧
        (Stretch.now (k a)).Runs R run b (n + i) g) := by
  obtain ⟨g', hx, hcases⟩ := h.bind_runs hplan hN hr
  obtain ⟨hawake, -, hs⟩ := R.straight heval (Stretch.runs_plain run |>.1 hx)
  rcases hcases with ⟨ds₁, t, a', ds₂, h₁, ht, h₂, hr₂, rfl⟩ | ⟨t, f, h₁, -⟩ | ⟨h₁, rfl⟩
  · obtain ⟨rfl, he | ⟨he, -⟩⟩ := h₁.straight heval
    · cases he
    · cases he
      exact Or.inr ⟨hawake, hs, ht, h₂, hr₂⟩
  · obtain ⟨-, he | ⟨he, -⟩⟩ := h₁.straight heval
    · cases he
    · cases he
  · refine Or.inl ⟨(h₁.straight heval).1, rfl, hawake N hN ?_⟩
    by_contra hlt
    cases h₁.straight_over heval (by omega)

/-- What is running and fails straight away does so without giving the turn away. -/
theorem straight_runs_error (hplan : ∀ p, (plan p).erase run = body p) {r : Routine α}
    {k : α → Outline β} {e : Ending β}
    (h : Account R run plan N b n (.now (.plain r >>= k)) ds e) (hN : n ≤ N)
    {g : Except Failure β → Routine Value} (hr : (Stretch.now (.plain r >>= k)).Runs R run b n g)
    {i : Nat} {f : Failure} {s : Store} (heval : r.eval (R.store n) = some (i, .error f, s)) :
    ds = [] ∧ ((e = none ∧ R.HasTurn b N) ∨ e = some (n + i, .error f)) := by
  obtain ⟨g', hx, hcases⟩ := h.bind_runs hplan hN hr
  obtain ⟨hawake, -, -⟩ := R.straight heval (Stretch.runs_plain run |>.1 hx)
  rcases hcases with ⟨ds₁, t, a', ds₂, h₁, -⟩ | ⟨t, f', h₁, rfl⟩ | ⟨h₁, rfl⟩
  · obtain ⟨-, he | ⟨he, -⟩⟩ := h₁.straight heval
    · cases he
    · cases he
  · obtain ⟨rfl, he | ⟨he, -⟩⟩ := h₁.straight heval
    · cases he
    · cases he
      exact ⟨rfl, Or.inr rfl⟩
  · refine ⟨(h₁.straight heval).1, Or.inl ⟨rfl, hawake N hN ?_⟩⟩
    by_contra hlt
    cases h₁.straight_over heval (by omega)

/-! ## Pauses -/

/-- **A pause** that is over was one, and one that goes on has the turn or sleeps. -/
theorem pause_runs (hplan : ∀ p, (plan p).erase run = body p) {d : Number} {e : Ending Unit}
    (h : Account R run plan N b n (.now (.plain (Visit.Scene.pause d))) ds e) (hN : n ≤ N)
    {g : Except Failure Unit → Routine Value}
    (hr : (Stretch.now (.plain (Visit.Scene.pause d))).Runs R run b n g) :
    (e = none → ds = [] ∧ (R.HasTurn b N ∨ (R.moment N).Resting b)) ∧
      ∀ m, e = some (m, .ok ()) → R.Pauses b n d m := by
  by_cases hpos : d.isPositive = true
  · rw [Visit.Scene.pause, if_pos hpos] at h hr
    cases hx : d.toBinary64 with
    | error c =>
      rw [hx, Outline.plain_bind] at h hr
      obtain ⟨rfl, ⟨rfl, ht⟩ | rfl⟩ := h.straight_runs_error hplan hN hr (Routine.eval_raise c _)
      · exact ⟨fun _ => ⟨rfl, Or.inl ht⟩, nofun⟩
      · exact ⟨nofun, fun m hm => by cases hm⟩
    | ok x =>
      rw [hx] at h hr
      have ha := (Stretch.runs_plain run).1 hr
      cases h with
      | stop _ _ ht => exact ⟨fun _ => ⟨rfl, Or.inl ht⟩, nofun⟩
      | sleep hn ht h =>
        cases h with
        | rest _ _ hi =>
          have hrest : (R.moment (n + 1)).Awaits b .rest := by
            rw [(R.moves n).advance ha]
            exact awaits_sleep _ b x _
          refine ⟨fun _ => ⟨rfl, Or.inr ?_⟩, nofun⟩
          rcases R.waits hrest hn with hs | ⟨t, hnt, htN, -, hres⟩
          · exact hs.awaits
          · exact absurd ⟨_, hres⟩ (hi (t + 1) (by omega) (by omega))
        | resume hn' hN' hi ht' h =>
          obtain ⟨-, rfl⟩ := h.done_iff
          refine ⟨nofun, fun m hm => ?_⟩
          cases hm
          exact .slept hpos hx ⟨hn', ⟨_, ha⟩, hi, ht'⟩
      | skip hw | fork hw | forking hw => cases hw
  · rw [Visit.Scene.pause, if_neg hpos] at h
    obtain ⟨-, rfl⟩ := h.done_iff
    refine ⟨nofun, fun m hm => ?_⟩
    cases hm
    exact .skipped (by simpa using hpos)

end Account

end Conductor
