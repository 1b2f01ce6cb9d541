import Conductor.Proofs.Account.Deciding
import Conductor.Proofs.Account.Inside

/-!
# Accounts of what is running

An account follows an outline through a run. When the branch really runs the routine of that outline,
this says more: where the account ends the branch goes on behind the outline, and whenever the account
tells of parts that are started side by side, the branch does start them, and waits for them in a join
of their branches.

**Theorem (`Account.runs`).** Both, to any depth.
-/

namespace Conductor

open Schedule

variable {body : Procedure → Routine Value} {R : Run body} {run : Handlers}
  {plan : Procedure → Outline Value} {N : Nat} {α : Type} {b n t : Nat} {ds : List Deed}

/-- The branch is about to run an outline and what comes behind it, or will run it in its next turn. -/
def Stretch.Runs (R : Run body) (run : Handlers) (b n : Nat) (g : Except Failure α → Routine Value) :
    Stretch α → Prop
  | .now x => (R.moment n).active = some (b, (x.erase run).thenOn g)
  | .later x => (R.moment n).GoesOn b ((x.erase run).thenOn g)

/-- Model code runs when it has the turn. -/
theorem Stretch.runs_plain (run : Handlers) {r : Routine α}
    {g : Except Failure α → Routine Value} :
    (Stretch.now (.plain r)).Runs R run b n g ↔ (R.moment n).active = some (b, r.thenOn g) := by
  show _ = some (b, _) ↔ _
  rw [Outline.erase_plain]

/-- How a branch goes on that has waited for parts: it is woken, has seen the branches end that it
goes on with, and leaves those behind that are still open. -/
structure Run.Leaves (R : Run body) (N n b : Nat) (kind : JoinKind) (k : Outcome → Routine Value)
    {size : Nat} (es : Fin size → Ending Value) (t : Nat) (o : Outcome) : Prop where
  later : n < t
  horizon : t ≤ N
  idle : R.Idle b (n + 1) t
  woken : R.Woken t o
  active : (R.moment t).active = some (b, k o)
  left : kind.Left es t o
  behind : ∀ i : Fin size, (∃ s < t, ∃ x, es i = some (s, x)) ∨
    R.newBranch n + i ∈ (R.moment t).detached ∨ ∃ f, o = .error f ∧ f.isCatchable = false

/-- A branch has started parts side by side, and waits for them in a join of their branches. -/
structure Run.Joins (R : Run body) (run : Handlers) (plan : Procedure → Outline Value) (N n b : Nat)
    (kind : JoinKind) (ps : List Procedure) (k : Outcome → Routine Value)
    (dss : Fin ps.length → List Deed) (es : Fin ps.length → Ending Value)
    (e : Ending (List Value)) : Prop where
  forks : R.Forks n b kind ps k
  parts : ∀ i : Fin ps.length, Account R run plan N (R.newBranch n + i) (n + 1)
    (.later (plan (ps.get i))) (dss i) (es i)
  ends : ∀ i : Fin ps.length, R.Ends N (R.newBranch n + i) (n + 1) Routine.ofOutcome (es i)
  leaves : ∀ t o, e = some (t, o) → R.Leaves N n b kind k es t o
  waiting : e = none → R.Idle b (n + 1) (N + 1)

/-- A fork that is told of has happened. -/
def Deed.Joined (R : Run body) (run : Handlers) (plan : Procedure → Outline Value) (N n : Nat)
    (kind : JoinKind) (inner : List Deed) (e : Ending (List Value)) : Prop :=
  ∃ (b : Nat) (ps : List Procedure) (k : Outcome → Routine Value)
    (dss : Fin ps.length → List Deed) (es : Fin ps.length → Ending Value),
    inner = Deed.parts n (R.newBranch n) ps dss es ∧ R.Joins run plan N n b kind ps k dss es e

theorem Deed.occurs_parts {first m : Nat} {ps : List Procedure} {dss : Fin ps.length → List Deed}
    {es : Fin ps.length → Ending Value} {kind : JoinKind} {inner : List Deed}
    {e : Ending (List Value)} (h : Occurs (.fork m kind inner e) (Deed.parts n first ps dss es)) :
    ∃ i, Occurs (.fork m kind inner e) (dss i) := by
  cases h with
  | here h =>
    obtain ⟨i, hi⟩ := Deed.mem_parts.1 h
    cases hi
  | inside h hd =>
    obtain ⟨i, rfl⟩ := Deed.mem_parts.1 h
    exact ⟨i, hd⟩

/-- Forks that occur in deeds have happened. -/
structure Deed.AllJoined (R : Run body) (run : Handlers) (plan : Procedure → Outline Value) (N : Nat)
    (ds : List Deed) : Prop where
  joined : ∀ {m kind inner e'}, Occurs (.fork m kind inner e') ds →
    Deed.Joined R run plan N m kind inner e'

namespace Deed.AllJoined

theorem nil : AllJoined R run plan N [] := ⟨fun h => absurd h Occurs.not_nil⟩

theorem cons {d : Deed} (hd : ∀ m kind inner e', d ≠ .fork m kind inner e')
    (hi : AllJoined R run plan N d.inner) (ht : AllJoined R run plan N ds) :
    AllJoined R run plan N (d :: ds) := by
  refine ⟨fun {m kind inner e'} h => ?_⟩
  rcases Occurs.cons.1 h with rfl | h | h
  · exact absurd rfl (hd _ _ _ _)
  · exact hi.joined h
  · exact ht.joined h

theorem fork {m : Nat} {kind : JoinKind} {ps : List Procedure} {k : Outcome → Routine Value}
    {dss : Fin ps.length → List Deed} {es : Fin ps.length → Ending Value} {e : Ending (List Value)}
    (h : R.Joins run plan N m b kind ps k dss es e) (hi : ∀ i, AllJoined R run plan N (dss i))
    (ht : AllJoined R run plan N ds) :
    AllJoined R run plan N (.fork m kind (Deed.parts m (R.newBranch m) ps dss es) e :: ds) := by
  refine ⟨fun {m' kind' inner' e'} hd => ?_⟩
  rcases Occurs.cons.1 hd with heq | hd | hd
  · cases heq
    exact ⟨b, ps, k, dss, es, rfl, h⟩
  · obtain ⟨i, hd⟩ := Deed.occurs_parts hd
    exact (hi i).joined hd
  · exact ht.joined hd

end Deed.AllJoined

/-- A branch whose action only takes a moment goes on in the next one. -/
theorem Run.active_next {r r' : Routine Value} (ha : (R.moment n).active = some (b, r))
    (hadv : (R.moment n).advance body b r = (R.moment n).activate b r') :
    (R.moment (n + 1)).active = some (b, r') := by
  rw [(R.moves n).advance ha, hadv]
  rfl

/-- A procedure that is called runs in the next moment. -/
theorem Stretch.Runs.call (hplan : ∀ p, (plan p).erase run = body p) {p : Procedure}
    {k : Outcome → Outline α} {g : Except Failure α → Routine Value}
    (h : (Stretch.now (.await (.call p) k)).Runs R run b n g) :
    (Stretch.now (plan p)).Runs R run b (n + 1)
      fun x => ((k (Routine.only x)).erase run).thenOn g := by
  refine R.active_next h ?_
  rw [hplan, ← Routine.continueWith_eq_thenOn _ fun o => ((k o).erase run).thenOn g]
  rfl

namespace Account

/-- **An account of what is running** ends where the branch goes on, and its forks have happened. -/
theorem runs (hplan : ∀ p, (plan p).erase run = body p) {s : Stretch α} {e : Ending α}
    (h : Account R run plan N b n s ds e) (hN : n ≤ N) {g : Except Failure α → Routine Value}
    (hs : s.Runs R run b n g) : R.Ends N b n g e ∧ Deed.AllJoined R run plan N ds := by
  induction h with
  | done a => exact ⟨⟨le_rfl, hN, hs⟩, .nil⟩
  | fail f => exact ⟨⟨le_rfl, hN, hs⟩, .nil⟩
  | stop x hx ht => exact ⟨R.isOpen_of_hasTurn ht, .nil⟩
  | remark l h ih =>
    obtain ⟨he, hj⟩ := ih hN hs
    exact ⟨he, .cons (by simp) .nil hj⟩
  | get hn ht hst h ih =>
    obtain ⟨he, hj⟩ := ih hn (R.active_next hs rfl)
    exact ⟨he.mono (Nat.le_succ _), hj⟩
  | @put _ b n s x _ _ hn ht hst h ih =>
    have ha : (R.moment (n + 1)).active = some (b, (x.erase run).thenOn g) := by
      rw [(R.moves n).advance hs]
      rfl
    obtain ⟨he, hj⟩ := ih hn ha
    exact ⟨he.mono (Nat.le_succ _), hj⟩
  | @ask _ b n t u c args o k _ _ _ h hk ih ihk =>
    have ha : (R.moment n).active = some (b, ((Outline.plain (run c args)).erase run).thenOn
        fun o => ((k o).erase run).thenOn g) := by
      rw [hs, Outline.erase_plain, ← Routine.thenOn_thenOn]
      rfl
    obtain ⟨⟨hle, hle', ha'⟩, hj⟩ := ih hN ha
    obtain ⟨he, hj'⟩ := ihk hle' ha'
    exact ⟨he.mono hle, .cons (by simp) hj hj'⟩
  | @asking _ b n u c args k _ h ih =>
    have ha : (R.moment n).active = some (b, ((Outline.plain (run c args)).erase run).thenOn
        fun o => ((k o).erase run).thenOn g) := by
      rw [hs, Outline.erase_plain, ← Routine.thenOn_thenOn]
      rfl
    obtain ⟨he, hj⟩ := ih hN ha
    exact ⟨he, .cons (by simp) hj .nil⟩
  | @call _ b n t p k o _ _ _ hn ht hst h hk ih ihk =>
    obtain ⟨⟨hle, hle', ha'⟩, hj⟩ := ih hn (hs.call hplan)
    obtain ⟨he, hj'⟩ := ihk hle' ha'
    exact ⟨he.mono (Nat.le_of_succ_le hle), .cons (by simp) hj hj'⟩
  | @calling _ b n p k _ hn ht hst h ih =>
    obtain ⟨he, hj⟩ := ih hn (hs.call hplan)
    exact ⟨he, .cons (by simp) hj .nil⟩
  | @sleep _ b n x k _ _ hn ht h ih =>
    have hb : b < (R.moment n).branches.size := ((R.balanced n).take hs).of_held.1
    have hm : R.moment (n + 1) = (R.moment n).sleep b x
      fun o => ((k o).erase run).thenOn g := (R.moves n).advance hs
    have hgo : (Stretch.later (k (.ok []))).Runs R run b (n + 1) g := by
      show (R.moment (n + 1)).GoesOn b _
      rw [hm]
      exact goesOn_sleep _ hb x _
    obtain ⟨he, hj⟩ := ih hn hgo
    exact ⟨he.mono (Nat.le_succ _), hj⟩
  | @resume _ b n t x _ _ hn hN' hi ht h ih =>
    rcases R.goesOn hs hN with ⟨hi', -⟩ | ⟨t', hn', ht', hi', ha⟩
    · exact absurd ht (hi' t hn (Nat.lt_succ_of_le hN'))
    · cases turn_eq hi hn ht hi' hn'.le ⟨_, ha⟩
      obtain ⟨he, hj⟩ := ih hN' ha
      exact ⟨he.mono hn, hj⟩
  | @rest _ b n x hn hi =>
    rcases R.goesOn hs hN with ⟨-, ho⟩ | ⟨t', hn', ht', hi', ha⟩
    · exact ⟨ho, .nil⟩
    · exact absurd ⟨_, ha⟩ (hi t' hn'.le (Nat.lt_succ_of_le ht'))
  | @skip _ b n w kind k _ _ hw hn ht hst h ih =>
    have ha : (R.moment (n + 1)).active = some (b, ((k (.ok [])).erase run).thenOn g) :=
      R.active_next hs (by cases w <;> cases hw <;> rfl)
    obtain ⟨he, hj⟩ := ih hn ha
    exact ⟨he.mono (Nat.le_succ _), hj⟩
  | @fork _ b n t w kind ps k o _ _ dss es hw hps hn hN' ht hi ht' h hv ho hd hk ih ihk =>
    have hf : R.Forks n b kind ps fun o => ((k o).erase run).thenOn g := ⟨⟨w, hw, hs⟩, hps⟩
    have hparts := fun i => ih i (Nat.le_trans hn hN') (g := Routine.ofOutcome) (by
      show (R.moment (n + 1)).GoesOn _ _
      rw [Routine.thenOn_ofOutcome, hplan]
      exact hf.part i)
    have ha : (R.moment t).active = some (b, ((k o).erase run).thenOn g) := by
      obtain ⟨u, rfl, hu, hst, rest, hr, hm⟩ := hf.resumed hn hi ht'
      have hv' : R.Woken (u + 1) ((R.moment u).verdict (R.newJoin n)) := ⟨u, _, rest, rfl, hr, rfl⟩
      rw [hv.eq hv', hm, (wake_verdict (R.balanced u) hr).1, hst.awaits.2.2, hst.resume,
        hf.begun.2.2]
    obtain ⟨he, hj⟩ := ihk hN' ha
    refine ⟨he.mono hn.le, .fork (k := fun o => ((k o).erase run).thenOn g)
      ⟨hf, h, fun i => (hparts i).1, fun t' o' heq => ?_, nofun⟩ (fun i => (hparts i).2) hj⟩
    cases heq
    exact ⟨hn, hN', hi, hv, ha, ho, hd⟩
  | @forking _ b n w kind ps k dss es hw hps hn ht hi h ih =>
    have hf : R.Forks n b kind ps fun o => ((k o).erase run).thenOn g := ⟨⟨w, hw, hs⟩, hps⟩
    have hparts := fun i => ih i hn (g := Routine.ofOutcome) (by
      show (R.moment (n + 1)).GoesOn _ _
      rw [Routine.thenOn_ofOutcome, hplan]
      exact hf.part i)
    refine ⟨?_, .fork (k := fun o => ((k o).erase run).thenOn g)
      ⟨hf, h, fun i => (hparts i).1, nofun, fun _ => hi⟩ (fun i => (hparts i).2) .nil⟩
    exact ((hf.stays hn hi).awaits.open (R.balanced N)).2
  | @drain _ b n k _ _ hn ht hd h ih =>
    have hb : b < (R.moment n).branches.size := ((R.balanced n).take hs).of_held.1
    have hm : R.moment (n + 1) = (R.moment n).joinOn b .ended (R.moment n).detached
        fun _ => .await .detached fun o => ((k o).erase run).thenOn g := by
      rw [(R.moves n).advance hs]
      show (R.moment n).wait body b .detached _ = _
      rw [wait, if_neg (by simpa using hd)]
    obtain ⟨hj, hk, -⟩ := awaits_joinOn (R.moment n) b .ended (R.moment n).detached
      fun _ => .await .detached fun o => ((k o).erase run).thenOn g
    have hgo : (Stretch.later (.await .detached k)).Runs R run b (n + 1) g := by
      show (R.moment (n + 1)).GoesOn b _
      rw [hm]
      refine ⟨_, hj, congrFun (resume_joinOn hb _ _ _) (.ok []), fun j hj' => ?_⟩
      cases hj'
      exact hk
    obtain ⟨he, hj⟩ := ih hn hgo
    exact ⟨he.mono (Nat.le_succ _), hj⟩
  | @drained _ b n k _ _ hn ht hd hst h ih =>
    have ha : (R.moment (n + 1)).active = some (b, ((k (.ok [])).erase run).thenOn g) := by
      refine R.active_next hs ?_
      show (R.moment n).wait body b .detached _ = _
      rw [wait, if_pos (by simpa using hd)]
    obtain ⟨he, hj⟩ := ih hn ha
    exact ⟨he.mono (Nat.le_succ _), hj⟩

/-- **An account of what is running**, piece by piece: behind the first piece the second one is
running. -/
theorem bind_runs {β : Type} (hplan : ∀ p, (plan p).erase run = body p) {x : Outline α}
    {f : α → Outline β} {e : Ending β} (h : Account R run plan N b n (.now (x >>= f)) ds e)
    (hN : n ≤ N) {g : Except Failure β → Routine Value}
    (hr : (Stretch.now (x >>= f)).Runs R run b n g) :
    ∃ g' : Except Failure α → Routine Value, (Stretch.now x).Runs R run b n g' ∧
      ((∃ ds₁ t a ds₂, Account R run plan N b n (.now x) ds₁ (some (t, .ok a)) ∧ t ≤ N ∧
          Account R run plan N b t (.now (f a)) ds₂ e ∧ (Stretch.now (f a)).Runs R run b t g ∧
          ds = ds₁ ++ ds₂) ∨
        (∃ t f, Account R run plan N b n (.now x) ds (some (t, .error f)) ∧ e = some (t, .error f)) ∨
        (Account R run plan N b n (.now x) ds none ∧ e = none)) := by
  have hx : (Stretch.now x).Runs R run b n
      fun o => ((Outline.onward f o).erase run).thenOn g := by
    show (R.moment n).active = _
    rw [← Routine.thenOn_thenOn, ← Outline.erase_thenOn]
    exact hr
  refine ⟨_, hx, ?_⟩
  rcases h.bind with ⟨ds₁, t, a, ds₂, h₁, h₂, rfl⟩ | h' | h'
  · obtain ⟨⟨-, htN, ha⟩, -⟩ := h₁.runs hplan hN hx
    exact Or.inl ⟨ds₁, t, a, ds₂, h₁, htN, h₂, ha, rfl⟩
  · exact Or.inr (Or.inl h')
  · exact Or.inr (Or.inr h')

end Account

end Conductor
