import Conductor.Proofs.Routine.Tame
import Conductor.Proofs.Schedule.Stepping

/-!
# Schedules without aborts

A schedule is quiet when no branch has ended with an abort and none of those that go on can end with
one. If all parts of the run are tame, then every step keeps a schedule quiet, and the failure that
settles a join is one that its owner can handle.

As with the balance, `held` names the branch that a step has in its hands; the way in which that
branch would go on does not count.
-/

namespace Conductor

namespace Schedule

variable {m : Schedule} {held : Option Nat} {b : Nat} {body : Procedure → Routine Value}

/-- No branch has ended with an abort or can end with one, as far as it is going on by itself. -/
structure Quiet (held : Option Nat) (m : Schedule) : Prop where
  ended : ∀ b o, m.outcome? b = some o → Tame o
  turn : ∀ b r, m.active = some (b, r) → r.Tame
  resumes : ∀ b < m.branches.size, m.isOpen b = true → held ≠ some b → m.turn b = 0 →
    ∀ o, Tame o → ((m.branch b).resume o).Tame

/-- All parts of the run that visits lead to are tame. -/
def TameBody (body : Procedure → Routine Value) : Prop := ∀ p, p.IsVisit → (body p).Tame

theorem turn_eq_zero (h : m.active = none) (b : Nat) : m.turn b = 0 := by rw [Schedule.turn, h]

theorem Quiet.congr {m' : Schedule} (h : Quiet held m) (hs : m'.branches.size = m.branches.size)
    (ho : ∀ b, m'.outcome? b = m.outcome? b)
    (hr : ∀ b, (m'.branch b).resume = (m.branch b).resume) (ha : m'.active = m.active) :
    Quiet held m' := by
  constructor
  · intro b o hb
    rw [ho] at hb
    exact h.ended b o hb
  · intro b r hb
    rw [ha] at hb
    exact h.turn b r hb
  · intro b hb hopen hheld hturn
    rw [hs] at hb
    rw [isOpen, ho] at hopen
    rw [Schedule.turn, ha] at hturn
    rw [hr]
    exact h.resumes b hb hopen hheld hturn

theorem Quiet.take {r : Routine Value} (h : Quiet none m) (ha : m.active = some (b, r)) :
    Quiet (some b) m.idle := by
  refine ⟨h.ended, nofun, fun b' hb' ho hne _ => h.resumes b' hb' ho nofun ?_⟩
  have : b ≠ b' := fun heq => hne (congrArg some heq)
  rw [Schedule.turn, ha]
  simp [this]

/-- Whoever is let go on has a tame routine ahead. -/
theorem Quiet.activate {r : Routine Value} (h : Quiet (some b) m) (ha : m.active = none)
    (hr : r.Tame) : Quiet none (m.activate b r) := by
  refine ⟨h.ended, fun b' r' hb' => ?_, fun b' hb' ho _ ht => ?_⟩
  · cases hb'
    exact hr
  · have hne : b ≠ b' := by
      intro heq
      simp [Schedule.turn, Schedule.activate, heq] at ht
    exact h.resumes b' hb' ho (fun heq => hne (Option.some.inj heq)) (turn_eq_zero ha b')

theorem Quiet.suspend (h : Quiet (some b) m) (ha : m.active = none) (hb : b < m.branches.size)
    {resume : Outcome → Routine Value} (hr : ∀ o, Tame o → (resume o).Tame) :
    Quiet none (m.suspend b resume) := by
  have hout := branch_updateBranch_eq Branch.outcome? (fun x => { x with resume }) (fun _ => rfl)
    m b
  have hresume : ∀ b', ((m.suspend b resume).branch b').resume =
      if b' = b then resume else (m.branch b').resume := fun b' => by
    show ((m.updateBranch b _).branch b').resume = _
    rw [branch_updateBranch m _ hb]
    split <;> rfl
  refine ⟨fun b' o ho => h.ended b' o ((hout b').symm.trans ho), nofun, fun b' hb' ho _ _ o => ?_⟩
  rw [hresume]
  split
  · exact hr o
  · next hne =>
    refine h.resumes b' ?_ ?_ (fun heq => hne (Option.some.inj heq).symm) (turn_eq_zero ha b') o
    · exact (m.size_updateBranch b _) ▸ hb'
    · rw [isOpen] at ho ⊢
      exact (congrArg Option.isNone (hout b')).symm.trans ho

theorem Quiet.finish (h : Quiet (some b) m) (ha : m.active = none) (hb : b < m.branches.size)
    {o : Except Failure Value} (ho : Tame o) : Quiet none (m.finish b o) := by
  have hout := m.outcome?_finish o hb
  refine ⟨fun b' o' ho' => ?_, nofun, fun b' hb' hopen _ _ => ?_⟩
  · rw [hout] at ho'
    split at ho'
    · cases ho'
      exact ho
    · exact h.ended b' o' ho'
  · rw [isOpen, hout] at hopen
    rw [m.branch_finish o hb]
    split
    · next heq =>
      rw [if_pos heq] at hopen
      cases hopen
    · next hne =>
      rw [if_neg hne] at hopen
      exact h.resumes b' (m.size_finish b o ▸ hb') hopen
        (fun heq => hne (Option.some.inj heq).symm) (turn_eq_zero ha b')

theorem Quiet.spawnAll (h : Quiet held m) {rs : List (Routine Value)} (hrs : ∀ r ∈ rs, r.Tame) :
    Quiet held (m.spawnAll rs).2 := by
  have ha : (m.spawnAll rs).2.active = m.active := by rw [spawnAll_snd]
  refine ⟨fun b o ho => ?_, fun b r hb => ?_, fun b hb ho hne ht o ho' => ?_⟩
  · rw [outcome?_spawnAll] at ho
    exact h.ended b o ho
  · rw [ha] at hb
    exact h.turn b r hb
  · rw [Schedule.turn, ha] at ht
    rw [isOpen_spawnAll] at ho
    rw [branch_spawnAll]
    split
    · next hnew =>
      have hlt : b - m.branches.size < rs.length := by omega
      rw [List.getD_eq_getElem _ _ hlt]
      exact hrs _ (List.getElem_mem hlt)
    · next hold =>
      rw [size_spawnAll] at hb
      exact h.resumes b (by omega) ho hne ht o ho'

theorem Quiet.joinOn (h : Quiet (some b) m) (ha : m.active = none) (hb : b < m.branches.size)
    (kind : JoinKind) (bs : List Nat) {resume : Outcome → Routine Value}
    (hr : ∀ o, Tame o → (resume o).Tame) : Quiet none (m.joinOn b kind bs resume) := by
  have hw : Quiet (some b) ((m.addJoin ⟨kind, b, bs, 0, false, none⟩).watchAll
      (.count m.joins.size) bs) :=
    h.congr (size_watchAll _ _ _) (fun b' => outcome?_watchAll _ _ _ b')
      (fun b' => resume_watchAll _ _ _ b') (active_watchAll _ _ _)
  exact hw.suspend ((active_watchAll _ _ _).trans ha) (by rw [size_watchAll]; exact hb) hr

theorem Quiet.detachOpen (h : Quiet held m) (bs : List Nat) : Quiet held (m.detachOpen bs) := by
  rw [detachOpen_eq]
  exact h.congr (size_watchAll _ _ _) (fun b => outcome?_watchAll _ _ _ b)
    (fun b => resume_watchAll _ _ _ b) (active_watchAll _ _ _)

/-! ## Steps -/

theorem Quiet.startAndJoin (hbody : TameBody body) (h : Quiet (some b) m) (ha : m.active = none)
    (hb : b < m.branches.size) (kind : JoinKind) {ps : List Procedure}
    (hps : ∀ p ∈ ps, p.IsVisit) {resume : Outcome → Routine Value}
    (hr : ∀ o, Tame o → (resume o).Tame) :
    Quiet none (m.startAndJoin body b kind ps resume) := by
  by_cases hnil : ps = []
  · subst hnil
    exact h.activate ha (hr _ (tame_ok _))
  · rw [startAndJoin_eq m b kind hnil]
    have hs : Quiet (some b) (m.spawnAll (ps.map body)).2 := h.spawnAll fun r hmem => by
      obtain ⟨p, hp, rfl⟩ := List.mem_map.1 hmem
      exact hbody p (hps p hp)
    refine hs.joinOn (by rw [spawnAll_snd]; exact ha) ?_ kind _ hr
    rw [size_spawnAll]
    exact Nat.lt_add_right _ hb

theorem Quiet.advance (hbody : TameBody body) (h : Quiet (some b) m) (ha : m.active = none)
    (hb : b < m.branches.size) {r : Routine Value} (hr : r.Tame) :
    Quiet none (m.advance body b r) := by
  cases r with
  | done v => exact h.finish ha hb (tame_ok v)
  | fail f => exact h.finish ha hb ((tame_error f).2 hr)
  | get k => exact h.activate ha (hr m.store)
  | put s r =>
    have hs : Quiet (some b) (m.withStore s) := h.congr rfl (fun _ => rfl) (fun _ => rfl) rfl
    exact hs.activate ha hr
  | await w k =>
    obtain ⟨hps, hk⟩ := hr
    cases w with
    | call p => exact h.activate ha ((hbody p (hps p (by simp [Wait.procedures]))).continueWith hk)
    | sleep seconds =>
      have hs := h.suspend ha hb hk
      show Quiet none (m.sleep b seconds k)
      unfold sleep
      dsimp only
      split <;> exact hs.congr rfl (fun _ => rfl) (fun _ => rfl) rfl
    | all ps => exact h.startAndJoin hbody ha hb .all hps hk
    | first ps => exact h.startAndJoin hbody ha hb .first hps hk
    | detached =>
      show Quiet none (m.wait body b .detached k)
      unfold wait
      dsimp only
      split
      · exact h.activate ha (hk _ (tame_ok _))
      · exact h.joinOn ha hb .ended m.detached fun _ _ => ⟨by simp [Wait.procedures], hk⟩

/-- The failure that settles a join is one of those that its branches have ended with. -/
theorem Quiet.failure_tame {j : Nat} (h : Quiet held m) (hB : Balanced held m)
    (hj : j < m.joins.size) {f : Failure} (hf : (m.join j).failure? = some f) :
    f.isCatchable = true := by
  obtain ⟨b, -, hb⟩ := hB.failed j hj f hf
  exact (tame_error f).1 (h.ended b _ hb)

theorem Quiet.winner_tame (h : Quiet held m) (bs : List Nat) : Tame (m.winner bs) := by
  unfold winner
  split
  · exact tame_ok _
  · next f hf =>
    obtain ⟨b, -, hb⟩ := List.exists_of_findSome?_eq_some hf
    exact (tame_error f).2 ((tame_error f).1 (h.ended b _ hb))
  · exact tame_ok _

theorem Quiet.wake {rest : List Job} {j : Nat} (h : Quiet none m) (hB : Balanced none m)
    (ha : m.active = none) (hr : m.ready = .wake j :: rest) :
    Quiet none ((m.withReady rest).wake j) := by
  have hwake : .wake j ∈ m.ready := by rw [hr]; exact List.mem_cons_self
  obtain ⟨hj, -⟩ := hB.waking j hwake
  have hpos := prospects_pos_of_wake hwake
  obtain ⟨hb, ho, -⟩ := hB.of_pos (b := (m.join j).owner) (by simpa using hpos)
  have hresume := h.resumes (m.join j).owner hb ho nofun (turn_eq_zero ha _)
  have hh : Quiet (some (m.join j).owner) (m.withReady rest) :=
    ⟨h.ended, h.turn, fun b hb ho _ ht => h.resumes b hb ho nofun ht⟩
  have hd : Quiet (some (m.join j).owner) ((m.withReady rest).detachOpen (m.join j).branches) :=
    hh.detachOpen _
  have had : ((m.withReady rest).detachOpen (m.join j).branches).active = none :=
    (active_detachOpen _ _).trans ha
  unfold Schedule.wake
  dsimp only
  split
  · exact hh.activate ha (hresume _ (tame_ok _))
  · exact hd.activate had (hresume _ (h.winner_tame _))
  · split
    · exact hh.activate ha (hresume _ (tame_ok _))
    · next f hf =>
      have hfail := hresume (.error f) ((tame_error f).2 (h.failure_tame hB hj hf))
      split
      · exact hd.activate had hfail
      · exact hh.activate ha hfail

theorem Quiet.resume {rest : List Job} (h : Quiet none m) (hB : Balanced none m)
    (ha : m.active = none) (hr : m.ready = .resume b :: rest) :
    Quiet none ((m.withReady rest).doJob (.resume b)) := by
  obtain ⟨hb, ho, -⟩ := (hB.pop hr (fun _ => rfl) (fun _ _ => nofun)).of_held
  have hh : Quiet (some b) (m.withReady rest) :=
    ⟨h.ended, h.turn, fun b hb ho _ ht => h.resumes b hb ho nofun ht⟩
  exact hh.activate ha (h.resumes b hb ho nofun (turn_eq_zero ha b) _ (tame_ok _))

/-- Whatever leaves the branches and the turn as they are keeps a schedule quiet. -/
theorem Quiet.of_eq {m' : Schedule} (h : Quiet held m) (hb : m'.branches = m.branches)
    (ha : m'.active = m.active) : Quiet held m' :=
  h.congr (by rw [hb]) (fun b => by rw [outcome?, branch, hb]; rfl)
    (fun b => by rw [branch, hb]; rfl) ha

theorem Quiet.doJob {rest : List Job} {job : Job} (h : Quiet none m) (hB : Balanced none m)
    (ha : m.active = none) (hr : m.ready = job :: rest) :
    Quiet none ((m.withReady rest).doJob job) := by
  cases job with
  | resume b => exact h.resume hB ha hr
  | notify b n =>
    cases n with
    | count j => exact h.of_eq (branches_count _ _ _) (active_count _ _ _)
    | forget => exact h.of_eq (branches_forget _ _) (active_forget _ _)
  | wake j => exact h.wake hB ha hr
  | ring b => exact h.of_eq rfl rfl

/-- **Every step keeps a schedule quiet.** -/
theorem Quiet.step {m' : Schedule} (hbody : TameBody body) (h : Quiet none m)
    (hB : Balanced none m) (hm : m.step body = some m') : Quiet none m' := by
  rcases step_cases hm with ⟨b, r, ha, rfl⟩ | ⟨job, rest, ha, hr, rfl⟩ | ⟨-, -, hm⟩
  · rw [advance_idle]
    exact (h.take ha).advance hbody rfl (hB.take ha).of_held.1 (h.turn b r ha)
  · exact h.doJob hB ha hr
  · obtain ⟨hb, -, -, ha', -⟩ := jump_eq hm
    exact h.of_eq hb ha'

theorem quiet_ofStore (s : Store) : Quiet none (ofStore s) := by
  refine ⟨fun b o ho => ?_, nofun, fun b hb => absurd hb (Nat.not_lt_zero b)⟩
  rw [outcome?_of_size_le (m := ofStore s) (Nat.zero_le b)] at ho
  cases ho

theorem Quiet.launch {r : Routine Value} (h : Quiet none m) (ha : m.active = none) (hr : r.Tame) :
    Quiet none (m.launch r).2 := by
  refine ⟨fun b o ho => ?_, fun b r' hb => ?_, fun b hb ho _ ht => ?_⟩
  · rw [outcome?_launch] at ho
    exact h.ended b o ho
  · cases hb
    exact hr
  · rw [isOpen, outcome?_launch] at ho
    have hne : b ≠ m.branches.size := fun heq => by
      simp [Schedule.turn, Schedule.launch, Schedule.activate, heq] at ht
    have hsize : (m.launch r).2.branches.size = m.branches.size + 1 := Array.size_push _
    have hresume : ((m.launch r).2.branch b) = m.branch b :=
      (branch_push m.branches default b).trans (if_neg hne)
    rw [hresume]
    exact h.resumes b (by omega) ho (by simp) (turn_eq_zero ha b)

end Schedule

end Conductor
