import Conductor.Proofs.Schedule.Frame
import Conductor.Proofs.Schedule.Ownership
import Conductor.Setup

/-!
# Sessions

A session is everything that happens between the start of a program and now: routines begin, each on
a top-level branch of its own, and the schedule makes its steps. A routine may begin whenever nobody
has the turn, so several of them can run side by side, and waiting until no branch is left behind is
one of them. The steps made so far are kept, the last one first.

**Theorem (`Session.no_branch_escapes`).** If user code fails only with failures that can be handled,
then at every moment of a session each open branch that is not a top-level one is awaited by the
owner of a live join, or it is listed as detached. When all top-level routines are over, the last of
them being a wait for the detached branches, then no branch at all is open, and for every branch
that was detached at any time and has failed there is exactly one step that logged its failure.

The first half is `Owned.awaited`. For the second half, `Accounted` says of every branch that was
ever detached that it either still is, or was struck off in exactly one step; and `Drains` follows
the waiting routine from its beginning to its end, which it reaches only while nobody is detached.
-/

namespace Conductor

namespace Schedule

variable {m m' : Schedule} {b d : Nat} {body : Procedure → Routine Value}

/-! ## Striking branches off -/

/-- Whether a step strikes a branch off the list of detached ones. A step is given by the schedules
before and after it. -/
def strikes (b : Nat) (t : Schedule × Schedule) : Bool :=
  t.1.active.isNone && t.1.ready.head? == some (.notify b .forget)

/-- The branches that were detached after one of several steps. -/
def everDetached (trace : List (Schedule × Schedule)) : Set Nat :=
  {b | ∃ t ∈ trace, b ∈ t.2.detached}

theorem everDetached_cons (t : Schedule × Schedule) (trace : List (Schedule × Schedule)) :
    everDetached (t :: trace) = everDetached trace ∪ {b | b ∈ t.2.detached} := by
  ext b
  simp [everDetached, or_comm]

theorem strikes_iff : strikes b (m, m') = true ↔
    m.active = none ∧ ∃ rest, m.ready = .notify b .forget :: rest := by
  rw [strikes, Bool.and_eq_true, Option.isNone_iff_eq_none, beq_iff_eq, List.head?_eq_some_iff]

theorem step_of_strikes (h : strikes b (m, m') = true) (hm : m.step body = some m') :
    ∃ rest, m.ready = .notify b .forget :: rest ∧ m' = (m.withReady rest).forget b := by
  obtain ⟨ha, rest, hr⟩ := strikes_iff.1 h
  rcases step_cases hm with ⟨_, _, ha', _⟩ | ⟨job, rest', -, hr', rfl⟩ | ⟨-, hr', _⟩
  · cases ha.symm.trans ha'
  · cases hr.symm.trans hr'
    exact ⟨rest, hr, rfl⟩
  · cases hr.symm.trans hr'

theorem detached_startAndJoin (m : Schedule) (b : Nat) (kind : JoinKind) (ps : List Procedure)
    (resume : Outcome → Routine Value) :
    (m.startAndJoin body b kind ps resume).detached = m.detached := by
  by_cases hps : ps = []
  · subst hps
    rfl
  · rw [startAndJoin_eq m b kind hps, detached_joinOn, spawnAll_snd]

/-- The active branch neither detaches branches nor strikes them off. -/
theorem detached_advance (m : Schedule) (b : Nat) (r : Routine Value) :
    (m.advance body b r).detached = m.detached := by
  cases r with
  | done v => rfl
  | fail f => rfl
  | get k => rfl
  | put s r => rfl
  | await w k =>
    cases w with
    | call p => rfl
    | sleep seconds =>
      show (m.sleep b seconds k).detached = _
      unfold sleep
      dsimp only
      split <;> rfl
    | all ps => exact detached_startAndJoin m b .all ps k
    | first ps => exact detached_startAndJoin m b .first ps k
    | detached =>
      show (m.wait body b .detached k).detached = _
      unfold wait
      dsimp only
      split
      · rfl
      · exact detached_joinOn _ _ _ _ _

/-- An owner that goes on detaches branches of its join only. -/
theorem detached_wake (m : Schedule) (j : Nat) : ∃ ds, (m.wake j).detached = m.detached ++ ds ∧
    ∀ b ∈ ds, (m.join j).kind ≠ .ended ∧ b ∈ (m.join j).branches := by
  have hnone : m.detached = m.detached ++ [] ∧
      ∀ b ∈ ([] : List Nat), (m.join j).kind ≠ .ended ∧ b ∈ (m.join j).branches :=
    ⟨(List.append_nil _).symm, by simp⟩
  have hopen : (m.join j).kind ≠ .ended → (m.detachOpen (m.join j).branches).detached =
      m.detached ++ (m.join j).branches.filter m.isOpen ∧
      ∀ b ∈ (m.join j).branches.filter m.isOpen,
        (m.join j).kind ≠ .ended ∧ b ∈ (m.join j).branches := by
    intro hk
    rw [detachOpen_eq]
    exact ⟨rfl, fun b hb => ⟨hk, (List.mem_filter.1 hb).1⟩⟩
  unfold wake
  dsimp only
  split
  · exact ⟨_, hnone⟩
  · next hk => exact ⟨_, hopen (by rw [hk]; nofun)⟩
  · next hk =>
    split
    · exact ⟨_, hnone⟩
    · split
      · exact ⟨_, hopen (by rw [hk]; nofun)⟩
      · exact ⟨_, hnone⟩

section Steps

variable {tops : List Nat} {ever : Set Nat}

theorem Owned.mem_of_strikes (h : Owned tops ever m) (hs : strikes b (m, m') = true) :
    b ∈ m.detached := by
  obtain ⟨-, rest, hr⟩ := strikes_iff.1 hs
  have hpos := owed_pos_of_mem_ready (m := m) (p := isForgetOf b)
    (by rw [hr]; exact List.mem_cons_self) (by simp [isForgetOf])
  rw [h.struck] at hpos
  exact List.count_pos_iff.1 hpos

/-- A branch that was detached before leaves the list when it is struck off, and not otherwise; and
it never comes back. -/
theorem Owned.count_step (h : Owned tops ever m) (hB : Balanced none m)
    (hm : m.step body = some m') (hb : b ∈ ever) :
    m'.detached.count b = if strikes b (m, m') then 0 else m.detached.count b := by
  have hsame : m'.detached = m.detached → strikes b (m, m') = false →
      m'.detached.count b = if strikes b (m, m') then 0 else m.detached.count b := by
    intro hd hs
    rw [hd, hs]
    rfl
  rcases step_cases hm with ⟨c, r, ha, rfl⟩ | ⟨job, rest, ha, hr, rfl⟩ | ⟨ha, hr, hm⟩
  · exact hsame (detached_advance m c r) (by simp [strikes, ha])
  · have hs : strikes b (m, (m.withReady rest).doJob job) = (job == .notify b .forget) := by
      simp [strikes, ha, hr]
    cases job with
    | resume c => exact hsame rfl (hs.trans rfl)
    | ring c => exact hsame rfl (hs.trans rfl)
    | notify c n =>
      cases n with
      | count j => exact hsame (detached_count _ _ _) (by rw [hs]; simp)
      | forget =>
        have hd : ((m.withReady rest).doJob (.notify c .forget)).detached =
            m.detached.filter (· != c) := detached_forget _ _
        rw [hd, hs]
        by_cases hcb : c = b
        · rw [hcb, if_pos (by simp), List.count_eq_zero_of_not_mem (by simp)]
        · rw [if_neg (by simpa using hcb), List.count_filter (by simpa using Ne.symm hcb)]
    | wake j =>
      obtain ⟨hj, -⟩ := hB.waking j (by rw [hr]; exact List.mem_cons_self)
      obtain ⟨ds, hd, hds⟩ := detached_wake (m.withReady rest) j
      have hnot : b ∉ ds := fun hmem =>
        h.unlisted j hj (hds b hmem).1 (Or.inr (by rw [hr]; exact List.mem_cons_self)) b
          (hds b hmem).2 hb
      have hd' : ((m.withReady rest).doJob (.wake j)).detached = m.detached ++ ds := hd
      rw [hd', hs, List.count_append, List.count_eq_zero_of_not_mem hnot]
      rfl
  · obtain ⟨-, -, hd, -, -⟩ := jump_eq hm
    exact hsame hd (by simp [strikes, hr])

end Steps

/-- Every branch that was ever detached still is, or was struck off in exactly one step, and that
step logged its failure if it had failed. -/
structure Accounted (trace : List (Schedule × Schedule)) (m : Schedule) : Prop where
  once : ∀ b ∈ everDetached trace, trace.countP (strikes b) + m.detached.count b = 1
  never : ∀ b ∉ everDetached trace, trace.countP (strikes b) = 0
  logged : ∀ t ∈ trace, ∀ b, strikes b t = true → m.isOpen b = false ∧
    ∀ f, m.outcome? b = some (.error f) → t.2.store = t.1.store.write (lateFailure f)

theorem Accounted.step {trace : List (Schedule × Schedule)} {tops : List Nat}
    (h : Accounted trace m) (hO : Owned tops (everDetached trace) m) (hB : Balanced none m)
    (hO' : Owned tops (everDetached ((m, m') :: trace)) m') (hm : m.step body = some m') :
    Accounted ((m, m') :: trace) m' := by
  have hkeep : ∀ {b}, m.isOpen b = false → m'.outcome? b = m.outcome? b := fun hc => by
    obtain ⟨o, ho⟩ := isOpen_eq_false_iff.1 hc
    rw [ho, outcome?_step hB hm ho]
  have hmem : ∀ {b}, b ∈ everDetached ((m, m') :: trace) ↔
      b ∈ everDetached trace ∨ b ∈ m'.detached := fun {b} => by rw [everDetached_cons]; rfl
  have hstrike : ∀ {b}, strikes b (m, m') = true → b ∈ everDetached trace := fun hs =>
    hO.known _ (hO.mem_of_strikes hs)
  constructor
  case once =>
    intro b hb
    rw [List.countP_cons]
    by_cases hever : b ∈ everDetached trace
    · have h₁ := h.once b hever
      have h₂ := hO.count_step hB hm hever
      by_cases hs : strikes b (m, m') = true
      · have := List.count_pos_iff.2 (hO.mem_of_strikes hs)
        rw [if_pos hs] at h₂ ⊢
        omega
      · rw [if_neg hs] at h₂ ⊢
        omega
    · have hnew : b ∈ m'.detached := (hmem.1 hb).resolve_left hever
      rw [h.never b hever, if_neg (fun hs => hever (hstrike hs)),
        List.count_eq_one_of_mem hO'.listed hnew]
  case never =>
    intro b hb
    have hever : b ∉ everDetached trace := fun hever => hb (hmem.2 (Or.inl hever))
    rw [List.countP_cons, h.never b hever, if_neg fun hs => hever (hstrike hs)]
  case logged =>
    intro t ht b hs
    rcases List.mem_cons.1 ht with rfl | ht
    · obtain ⟨rest, hr, heq⟩ := step_of_strikes hs hm
      obtain ⟨hc, -⟩ := hB.noticed b .forget (by rw [hr]; exact List.mem_cons_self)
      refine ⟨by rw [isOpen, hkeep hc]; exact hc, fun f hf => ?_⟩
      rw [hkeep hc] at hf
      show m'.store = m.store.write _
      rw [heq]
      exact store_forget (m := m.withReady rest) hf
    · obtain ⟨hc, hlog⟩ := h.logged t ht b hs
      refine ⟨by rw [isOpen, hkeep hc]; exact hc, fun f hf => hlog f ?_⟩
      rwa [hkeep hc] at hf

/-! ## Waiting until no branch is left behind -/

/-- What a drain does behind its wait. -/
def drained (o : Outcome) : Routine Value :=
  ((Routine.ofOutcome o).bind fun _ => .done ()).bind fun _ => .done .null

/-- What may be left of the turn of a drain. It is only over when nobody is detached. -/
inductive DrainTurn (detached : List Nat) : Routine Value → Prop where
  | begun : DrainTurn detached drain
  | marked (s : Store) : DrainTurn detached (.put s (.await .detached drained))
  | waits : DrainTurn detached (.await .detached drained)
  | finished (h : detached = []) : DrainTurn detached (.done .null)

/-- A branch that runs a drain: it is somewhere in its turn, or it will ask again who is detached. -/
structure Drains (d : Nat) (m : Schedule) : Prop where
  begun : d < m.branches.size
  turn : ∀ r, m.active = some (d, r) → DrainTurn m.detached r
  asks : m.isOpen d = true → (∀ r, m.active ≠ some (d, r)) →
    ∀ o, (m.branch d).resume o = .await .detached drained
  ended : m.isOpen d = false → m.outcome? d = some (.ok .null)

theorem drains_launch (m : Schedule) : Drains m.branches.size (m.launch drain).2 := by
  have hsize : (m.launch drain).2.branches.size = m.branches.size + 1 := Array.size_push _
  refine ⟨by omega, fun r hr => ?_, fun _ hne => absurd rfl (hne drain), fun hc => ?_⟩
  · cases hr
    exact .begun
  · rw [isOpen, outcome?_launch, outcome?_of_size_le le_rfl] at hc
    cases hc

/-- Waiting goes on until nobody is detached. -/
theorem Drains.wait (hB : Balanced (some d) m) :
    Drains d (m.wait body d .detached drained) := by
  obtain ⟨hd, ho, -⟩ := hB.of_held
  unfold Schedule.wait
  dsimp only
  split
  · next he =>
    refine ⟨hd, fun r hr => ?_, fun _ hne => absurd rfl (hne _), fun hc => ?_⟩
    · cases hr
      exact .finished (List.isEmpty_iff.1 he)
    · exact nomatch ho.symm.trans hc
  · refine ⟨?_, nofun, fun _ _ o => ?_, fun hc => ?_⟩
    · rw [size_joinOn]
      exact hd
    · rw [resume_joinOn hd]
    · rw [isOpen_joinOn] at hc
      exact nomatch ho.symm.trans hc

theorem Drains.advance (hB : Balanced (some d) m) {r : Routine Value}
    (hr : DrainTurn m.detached r) : Drains d (m.advance body d r) := by
  obtain ⟨hd, ho, -⟩ := hB.of_held
  have hgo : ∀ (s : Store) r, DrainTurn m.detached r → Drains d ((m.withStore s).activate d r) := by
    intro s r hr
    refine ⟨hd, fun r' hr' => ?_, fun _ hne => absurd rfl (hne r), fun hc => ?_⟩
    · cases hr'
      exact hr
    · exact nomatch ho.symm.trans hc
  cases hr with
  | begun => exact hgo m.store _ (.marked _)
  | marked s => exact hgo s _ .waits
  | waits =>
    have hw : Drains d (m.wait body d .detached drained) := Drains.wait hB
    exact hw
  | finished _ =>
    have hout := m.outcome?_finish (.ok .null) hd d
    rw [if_pos rfl] at hout
    refine ⟨(m.size_finish d _).symm ▸ hd, nofun, fun hopen => ?_, fun _ => hout⟩
    change ((m.finish d (.ok .null)).outcome? d).isNone = true at hopen
    rw [hout] at hopen
    cases hopen

theorem Drains.step (h : Drains d m) (hB : Balanced none m) (hm : m.step body = some m') :
    Drains d m' := by
  have hsize : m.branches.size ≤ m'.branches.size := size_le_step hB hm
  cases ha : m.active with
  | none =>
    have hk := kept_job ha hm
    have hopen : m'.isOpen d = m.isOpen d := by rw [isOpen, hk.outcome, isOpen]
    have hne : ∀ r, m.active ≠ some (d, r) := fun r => by simp [ha]
    refine ⟨h.begun.trans_le hsize, fun r hr => ?_, fun ho hne' o => ?_, fun hc => ?_⟩
    · rcases hk.active with hn | ⟨b, o, hb⟩
      · cases hn.symm.trans hr
      · cases hb.symm.trans hr
        have ho : m.isOpen d = true := by
          rw [← hopen]
          exact ((hB.step hm).take hr).of_held.2.1
        rw [h.asks ho hne]
        exact .waits
    · rw [hk.resume]
      exact h.asks (hopen ▸ ho) hne o
    · rw [hk.outcome]
      exact h.ended (hopen ▸ hc)
  | some t =>
    obtain ⟨b, r⟩ := t
    by_cases hbd : b = d
    · subst hbd
      rcases step_cases hm with ⟨b', r', ha', rfl⟩ | ⟨_, _, ha', _⟩ | ⟨ha', _⟩
      · cases ha.symm.trans ha'
        rw [advance_idle]
        exact Drains.advance (hB.take ha) (h.turn r ha)
      · cases ha.symm.trans ha'
      · cases ha.symm.trans ha'
    · have hf := frame_turn hB ha hm
      have hne : ∀ r', m.active ≠ some (d, r') := fun r' heq => by
        cases ha.symm.trans heq
        exact hbd rfl
      have hout := hf.outcome d (Ne.symm hbd)
      have hopen : m'.isOpen d = m.isOpen d := by rw [isOpen, hout, isOpen]
      refine ⟨h.begun.trans_le hsize, fun r' hr' => ?_, fun ho _ o => ?_, fun hc => ?_⟩
      · rcases hf.active with hn | ⟨r'', hb⟩
        · cases hn.symm.trans hr'
        · cases hb.symm.trans hr'
          exact absurd rfl hbd
      · rw [hf.resume d h.begun (Ne.symm hbd)]
        exact h.asks (hopen ▸ ho) hne o
      · rw [hout]
        exact h.ended (hopen ▸ hc)

/-- What has happened since the start: the routines that have begun with their branches, the steps
that were made, and the schedule as it is now. Between steps of a turn no routine begins; before a
routine begins the store may change. -/
inductive Session (body : Procedure → Routine Value) :
    List (Nat × Routine Value) → List (Schedule × Schedule) → Schedule → Prop where
  | start (s : Store) : Session body [] [] (ofStore s)
  | begin {tops trace m} (h : Session body tops trace m) (ha : m.active = none) (s : Store)
    {r : Routine Value} (hr : r.Tame) :
    Session body ((m.branches.size, r) :: tops) trace ((m.withStore s).launch r).2
  | step {tops trace m m'} (h : Session body tops trace m) (hm : m.step body = some m') :
    Session body tops ((m, m') :: trace) m'

theorem tame_drain : drain.Tame :=
  (Routine.tame_alter _).bind fun _ => Routine.tame_drain.bind fun _ => trivial

theorem tameBody_setup {σ : Setup} (hσ : σ.desk.call.Tame) : TameBody σ.body := by
  intro p hp
  cases p with
  | visit step w c => exact Visit.Scene.visit_tame hσ step
  | pursue g input attempt parent => exact absurd hp id

section Session

variable {tops : List (Nat × Routine Value)} {trace : List (Schedule × Schedule)}

/-- What holds at every moment of a session. -/
structure Orderly (tops : List (Nat × Routine Value)) (trace : List (Schedule × Schedule))
    (m : Schedule) : Prop where
  balanced : Balanced none m
  quiet : Quiet none m
  owned : Owned (tops.map Prod.fst) (everDetached trace) m
  accounted : Accounted trace m
  drains : ∀ d, (d, drain) ∈ tops → Drains d m

theorem orderly_start (s : Store) : Orderly [] [] (ofStore s) := by
  have hnone : everDetached [] = ∅ := by ext b; simp [everDetached]
  refine ⟨balanced_ofStore s, quiet_ofStore s, ?_, ⟨fun b hb => ?_, fun _ _ => rfl, nofun⟩, nofun⟩
  · rw [hnone]
    exact owned_ofStore s
  · rw [hnone] at hb
    exact absurd hb (Set.notMem_empty b)

theorem Orderly.begin (h : Orderly tops trace m) (ha : m.active = none) (s : Store)
    {r : Routine Value} (hr : r.Tame) :
    Orderly ((m.branches.size, r) :: tops) trace ((m.withStore s).launch r).2 := by
  have hB : Balanced none (m.withStore s) := h.balanced.withStore s
  have hq : Quiet none (m.withStore s) := h.quiet.of_eq rfl rfl
  have hO : Owned (tops.map Prod.fst) (everDetached trace) (m.withStore s) :=
    h.owned.congr rfl rfl rfl rfl
  refine ⟨hB.launch ha r, hq.launch ha hr, hO.launch r, ⟨?_, h.accounted.never, ?_⟩, ?_⟩
  · exact h.accounted.once
  · intro t ht b hs
    rw [isOpen, outcome?_launch]
    exact h.accounted.logged t ht b hs
  · intro d hd
    rcases List.mem_cons.1 hd with heq | hd
    · cases heq
      exact drains_launch (m.withStore s)
    · have hdr := h.drains d hd
      have hne : d ≠ m.branches.size := Nat.ne_of_lt hdr.begun
      have hsize : ((m.withStore s).launch r).2.branches.size = m.branches.size + 1 :=
        Array.size_push _
      have hbranch : ((m.withStore s).launch r).2.branch d = m.branch d :=
        (branch_push m.branches default d).trans (if_neg hne)
      refine ⟨hsize ▸ Nat.lt_succ_of_lt hdr.begun, fun r' hr' => ?_, fun ho _ o => ?_, fun hc => ?_⟩
      · cases hr'
        exact absurd rfl hne
      · rw [hbranch]
        rw [isOpen, outcome?_launch] at ho
        exact hdr.asks ho (fun r' => by simp [ha]) o
      · rw [isOpen, outcome?_launch] at hc
        rw [outcome?_launch]
        exact hdr.ended hc

theorem Orderly.step (h : Orderly tops trace m) (hbody : TameBody body)
    (hm : m.step body = some m') : Orderly tops ((m, m') :: trace) m' := by
  have hO : Owned (tops.map Prod.fst) (everDetached ((m, m') :: trace)) m' := by
    rw [everDetached_cons]
    exact h.owned.step h.balanced h.quiet hm
  exact ⟨h.balanced.step hm, h.quiet.step hbody h.balanced hm, hO,
    h.accounted.step h.owned h.balanced hO hm, fun d hd => (h.drains d hd).step h.balanced hm⟩

theorem Session.orderly (hbody : TameBody body) (h : Session body tops trace m) :
    Orderly tops trace m := by
  induction h with
  | start s => exact orderly_start s
  | begin _ ha s hr ih => exact ih.begin ha s hr
  | step _ hm ih => exact ih.step hbody hm

theorem Session.trail (n : Nat) : ∀ {m trace}, Session body tops trace m →
    Session body tops ((m.trail body n).1 ++ trace) (m.trail body n).2 := by
  induction n with
  | zero => exact fun h => h
  | succ n ih =>
    intro m trace h
    unfold Schedule.trail
    split
    · next m' hm => simpa using ih (h.step hm)
    · exact h

/-- Running a routine is a part of a session. -/
theorem Session.runUntil (b : Nat) (fuel : Nat) : ∀ {m trace}, Session body tops trace m →
    ∃ more, Session body tops (more ++ trace) (runUntil body b fuel m) := by
  induction fuel with
  | zero => exact fun h => ⟨[], h⟩
  | succ fuel ih =>
    intro m trace h
    unfold Schedule.runUntil
    split
    · split
      · next m' hm =>
        obtain ⟨more, hmore⟩ := ih (h.step hm)
        exact ⟨more ++ [(m, m')], by simpa using hmore⟩
      · exact ⟨[], h⟩
    · exact ⟨[], h⟩

theorem Session.launch (h : Session body tops trace m) (ha : m.active = none) {r : Routine Value}
    (hr : r.Tame) : Session body ((m.branches.size, r) :: tops) trace (m.launch r).2 :=
  h.begin ha m.store hr

theorem Session.run (h : Session body tops trace m) (ha : m.active = none) {r : Routine Value}
    (hr : r.Tame) (fuel : Nat) : ∃ more,
      Session body ((m.branches.size, r) :: tops) (more ++ trace) (run body fuel r m).2 :=
  (h.launch ha hr).runUntil m.branches.size fuel

end Session

/-- User code that sleeps for a second and then fails. -/
def lateSetup : Setup :=
  ⟨default, ⟨fun _ _ => (Routine.sleep Binary64.one).bind fun _ =>
    .raise (.raised .custom "late"), default, none, [], [], none⟩⟩

/-- A workflow that runs two steps side by side, of which one is missing and one fails late. -/
def lateStore : Store :=
  let both : Step := ⟨"both", .parallel ["missing", "late"] true, .none⟩
  let late : Step := ⟨"late", .task ⟨"t", none, none, none, 0, .int 0⟩, .none⟩
  { Store.empty with
    workflows := #[⟨"w", "w", [("both", both), ("late", late)], "both", .null, .null, .null, [], [],
      []⟩]
    tasks := #[default]
    taskRegistry := [("t", ⟨0⟩)] }

def lateRoutine : Routine Value := .call (.visit "both" ⟨0⟩ ⟨0⟩)

end Schedule

end Conductor
