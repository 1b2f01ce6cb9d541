import Conductor.Proofs.Account.Deciding
import Conductor.Proofs.Schedule.Course
import Conductor.Proofs.Schedule.Session
import Conductor.Proofs.Schedule.Settling

/-!
# Drains end

A drain waits for the branches that are listed as detached, and asks again when they have ended:
meanwhile others may have been left behind, and a branch that has ended stays on the list until it is
struck off. So a drain moves again and again, and what it still has to do is found in the rest of the
schedule. Four things go down, the earlier ones first:

* the stages of all other open branches;
* the jobs that must be done until no notice that strikes a branch off is in the queue;
* where the drain is in its turn. A drain that waits for an open branch can only be called after that
  branch has moved, and one that waits for none has its whole turn ahead;
* the jobs and timers.

**Theorem (`Discipline.Ebbs.ends`).** If all other open branches can only make finitely many moves, then
a drain ends. So routines can be run one after another, and a drain behind them: `Resumable.settles` and
`Resumable.drains`.
-/

namespace Conductor

namespace Schedule

variable {m m' : Schedule} {b d : Nat} {body : Procedure → Routine Value}

/-! ## The notices that strike branches off -/

def isForget : Job → Bool
  | .notify _ .forget => true
  | _ => false

/-- How many jobs must be done until none is left that strikes a branch off. -/
def lag : List Job → Nat
  | [] => 0
  | job :: rest => if (job :: rest).any isForget then lag rest + 1 else 0

theorem lag_eq_zero {jobs : List Job} : lag jobs = 0 ↔ ∀ job ∈ jobs, isForget job = false := by
  cases jobs with
  | nil => simp [lag]
  | cons job rest =>
    rw [lag]
    split
    · next h =>
      obtain ⟨x, hx, hf⟩ := List.any_eq_true.1 h
      exact iff_of_false (Nat.succ_ne_zero _) fun hall => by simp [hall x hx] at hf
    · next h =>
      simpa using h

theorem lag_tail (job : Job) (rest : List Job) : lag rest = lag (job :: rest) - 1 := by
  rw [lag.eq_def (job :: rest)]
  dsimp only
  split
  · rfl
  · next h =>
    refine lag_eq_zero.2 fun x hx => ?_
    by_contra hf
    exact h (List.any_eq_true.2 ⟨x, List.mem_cons_of_mem _ hx, by simpa using hf⟩)

theorem lag_append {jobs new : List Job} (h : ∀ job ∈ new, isForget job = false) :
    lag (jobs ++ new) = lag jobs := by
  have hnew : new.any isForget = false := by simpa using h
  induction jobs with
  | nil => exact lag_eq_zero.2 h
  | cons job rest ih =>
    rw [List.cons_append, lag, lag, ih, ← List.cons_append, List.any_append, hnew, Bool.or_false]

/-- Jobs bring no notices into the queue that strike branches off. -/
theorem ready_doJob (hB : Balanced none m) {job : Job} {rest : List Job}
    (hr : m.ready = job :: rest) : ∃ new, ((m.withReady rest).doJob job).ready = rest ++ new ∧
      ∀ job ∈ new, isForget job = false := by
  have hsame : ∀ {k : Schedule}, k.ready = rest →
      ∃ new, k.ready = rest ++ new ∧ ∀ job ∈ new, isForget job = false := fun h =>
    ⟨[], by rw [h, List.append_nil], nofun⟩
  cases job with
  | resume b => exact hsame rfl
  | ring b => exact ⟨[.resume b], rfl, by simp [isForget]⟩
  | wake j =>
    have hopen : ∀ bs, ((m.withReady rest).detachOpen bs).ready = rest := fun bs => by
      rw [detachOpen_eq]
      show (watchAll _ _ _).ready = rest
      rw [ready_watchAll, List.filter_filter]
      simp [withReady]
    refine hsame ?_
    show ((m.withReady rest).wake j).ready = rest
    unfold wake
    dsimp only
    split
    · rfl
    · exact hopen _
    · split
      · rfl
      · split
        · exact hopen _
        · rfl
  | notify b n =>
    cases n with
    | forget => exact hsame (ready_forget _ _)
    | count j =>
      obtain ⟨s, e, jobs, heq, hd⟩ := hB.count_cases hr
      refine ⟨jobs, congrArg Schedule.ready heq, fun job hjob => ?_⟩
      rw [hd.jobs] at hjob
      split at hjob
      · rw [List.mem_singleton.1 hjob]
        rfl
      · cases hjob

/-- While nobody has the turn the queue is worked off. -/
theorem lag_step (hB : Balanced none m) (ha : m.active = none) (hm : m.step body = some m') :
    lag m'.ready = lag m.ready - 1 := by
  rcases step_cases hm with ⟨_, _, ha', _⟩ | ⟨job, rest, -, hr, rfl⟩ | ⟨-, hr, hj⟩
  · cases ha.symm.trans ha'
  · obtain ⟨new, hnew, hf⟩ := ready_doJob hB hr
    rw [hnew, lag_append hf, hr]
    exact lag_tail job rest
  · obtain ⟨-, -, -, -, ts, hts⟩ := jump_eq hj
    have hzero : lag m'.ready = 0 := by
      rw [hts, lag_eq_zero]
      intro job hjob
      obtain ⟨t, -, rfl⟩ := List.mem_map.1 hjob
      rfl
    rw [hzero, hr]
    rfl

/-- Behind the last of these notices every listed branch is open. -/
theorem Owned.open_of_lag {tops : List Nat} {ever : Set Nat} (h : Owned tops ever m)
    (hB : Balanced none m) (hlag : lag m.ready = 0) (hb : b ∈ m.detached) : m.isOpen b = true := by
  by_contra hc
  have howed : 0 < m.owed (isForgetOf b) := by
    rw [h.struck]
    exact List.count_pos_iff.2 hb
  rcases exists_of_owed_pos howed with ⟨job, hmem, hjob⟩ | ⟨e, -, n, hn, he⟩
  · have hf := lag_eq_zero.1 hlag job hmem
    cases job with
    | notify e n =>
      cases n with
      | forget => cases hf
      | count j => cases hjob
    | _ => cases hjob
  · cases n with
    | count j => cases he
    | forget =>
      obtain rfl : e = b := by simpa [isForgetOf] using he
      rw [hB.silent e (by simpa using hc)] at hn
      cases hn

/-! ## Joins that wait for the end of all branches -/

/-- A join that waits for the end of all its branches is settled only when all have ended. -/
def Finished (m : Schedule) : Prop :=
  ∀ j < m.joins.size, (m.join j).kind = .ended → (m.join j).settled = true →
    ∀ b ∈ (m.join j).branches, m.isOpen b = false

theorem Balanced.count_ended (h : Balanced none m) {j : Nat} {rest : List Job}
    (hr : m.ready = .notify b (.count j) :: rest) (hk : (m.join j).kind = .ended)
    (hs : (m.join j).settled = false) (hs' : (((m.withReady rest).count j b).join j).settled = true) :
    ∀ d ∈ (m.join j).branches, m.isOpen d = false := by
  obtain ⟨hj, -⟩ := (h.noticed b (.count j) (by rw [hr]; exact List.mem_cons_self)).2 j rfl
  have hjoin := ((m.withReady rest).join_updateJoin
    (fun x => { x with counted := x.counted + 1 }) hj j).trans (if_pos rfl)
  change _ = { m.join j with counted := (m.join j).counted + 1 } at hjoin
  have hlast : (m.join j).counted + 1 = (m.join j).branches.length := by
    by_contra hne
    unfold Schedule.count at hs'
    dsimp only at hs'
    rw [hjoin] at hs'
    simp [hs, hk, hne, hjoin] at hs'
  have hzero : (m.withReady rest).owed (isCountFor j) = 0 := by
    have h₁ := h.counted j hj
    have h₂ := m.owed_cons hr (isCountFor j)
    rw [if_pos (by simp [isCountFor])] at h₂
    change m.owed _ = (m.withReady rest).owed _ + _ at h₂
    omega
  intro d hd
  by_contra hopen
  have := owed_pos_of_mem_notices (m := m.withReady rest) (h.branches j hj d hd)
    (h.asked j hj d hd (by simpa using hopen)) (p := isCountFor j) (by simp [isCountFor])
  omega

/-- A join that has just begun belongs to the active branch. It has not settled, and its branches are
new or listed as detached. -/
structure Begun (m m' : Schedule) (j : Nat) : Prop where
  turn : ∃ w k, m.active = some ((m'.join j).owner, .await w k) ∧
    (w = .detached → (m'.join j).kind = .ended)
  settled : (m'.join j).settled = false
  branches : ∀ b ∈ (m'.join j).branches, m.branches.size ≤ b ∨ b ∈ m.detached

theorem begun_joinOn {k : Schedule} {j : Nat} {w : Wait} {r r' : Outcome → Routine Value}
    {kind : JoinKind} {bs : List Nat} (ha : m.active = some (b, .await w r))
    (hw : w = .detached → kind = .ended) (hk : k.joins = m.joins)
    (hbs : ∀ d ∈ bs, m.branches.size ≤ d ∨ d ∈ m.detached) (hj : m.joins.size ≤ j)
    (hj' : j < (k.joinOn b kind bs r').joins.size) : Begun m (k.joinOn b kind bs r') j := by
  rw [size_joins_joinOn, hk] at hj'
  have hjoin : (k.joinOn b kind bs r').join j = ⟨kind, b, bs, 0, false, none⟩ := by
    rw [join_joinOn, if_pos (by rw [hk]; omega)]
  refine ⟨⟨w, r, ?_, ?_⟩, ?_, ?_⟩
  · rw [hjoin]
    exact ha
  · rw [hjoin]
    exact hw
  · rw [hjoin]
  · rw [hjoin]
    exact hbs

theorem joins_new (hB : Balanced none m) (hm : m.step body = some m') {j : Nat}
    (hj : m.joins.size ≤ j) (hj' : j < m'.joins.size) : Begun m m' j := by
  have hsame : m'.joins.size ≠ m.joins.size := by omega
  rcases step_cases hm with ⟨b, r, ha, rfl⟩ | ⟨job, rest, -, hr, rfl⟩ | ⟨-, -, hm⟩
  · cases r with
    | done v => exact absurd rfl hsame
    | fail f => exact absurd rfl hsame
    | get k => exact absurd rfl hsame
    | put s r => exact absurd rfl hsame
    | await w k =>
      have hstart : ∀ {kind ps}, w ≠ .detached →
          m.advance body b (.await w k) = m.startAndJoin body b kind ps k →
          Begun m (m.advance body b (.await w k)) j := by
        intro kind ps hw heq
        by_cases hps : ps = []
        · subst hps
          exact absurd (congrArg (fun m => m.joins.size) heq) hsame
        · rw [startAndJoin_eq m b kind hps] at heq
          rw [heq] at hj' ⊢
          refine begun_joinOn ha (fun h => absurd h hw) (m.joins_spawnAll _) (fun d hd => ?_) hj hj'
          exact Or.inl (List.mem_range'_1.1 hd).1
      cases w with
      | call p => exact absurd rfl hsame
      | sleep x =>
        refine absurd ?_ hsame
        show (m.sleep b x k).joins.size = _
        unfold sleep
        dsimp only
        split <;> rfl
      | all ps => exact hstart nofun rfl
      | first ps => exact hstart nofun rfl
      | detached =>
        by_cases he : m.detached.isEmpty
        · refine absurd ?_ hsame
          show (m.wait body b .detached k).joins.size = _
          rw [Schedule.wait, if_pos he]
          rfl
        · have heq : m.advance body b (.await .detached k) =
              m.joinOn b .ended m.detached fun _ => .await .detached k := by
            show m.wait body b .detached k = _
            rw [Schedule.wait, if_neg he]
          rw [heq] at hj' ⊢
          exact begun_joinOn ha (fun _ => rfl) rfl (fun d hd => Or.inr hd) hj hj'
  · cases job with
    | resume b => exact absurd rfl hsame
    | ring b => exact absurd rfl hsame
    | wake i =>
      refine absurd (congrArg Array.size ?_) hsame
      show ((m.withReady rest).wake i).joins = m.joins
      have hopen := (m.withReady rest).joins_detachOpen
      unfold wake
      dsimp only
      split
      · rfl
      · exact hopen _
      · split
        · rfl
        · split
          · exact hopen _
          · rfl
    | notify b n =>
      cases n with
      | forget => exact absurd (congrArg Array.size (joins_forget _ _)) hsame
      | count i =>
        obtain ⟨s, e, jobs, heq, -⟩ := hB.count_cases hr
        refine absurd ?_ hsame
        show ((m.withReady rest).count i b).joins.size = _
        rw [heq, size_recount]
  · exact absurd (congrArg Array.size (jump_eq hm).2.1) hsame

/-- A join stays with its owner. -/
theorem owner_step (hB : Balanced none m) (hm : m.step body = some m') {j : Nat}
    (hj : j < m.joins.size) : (m'.join j).owner = (m.join j).owner := by
  rcases (Moves.step hm).join_eq hB hj with heq | ⟨d, rest, -, hr, rfl⟩
  · rw [heq]
  · obtain ⟨s, e, jobs, heq, -⟩ := hB.count_cases hr
    rw [heq]
    exact owner_recount j

theorem Finished.step (h : Finished m) (hB : Balanced none m) (hm : m.step body = some m') :
    Finished m' := by
  intro j hj' hk hs b hb
  have hclosed : m.isOpen b = false → m'.isOpen b = false := fun hc => by
    obtain ⟨o, ho⟩ := isOpen_eq_false_iff.1 hc
    exact isOpen_eq_false_iff.2 ⟨o, outcome?_step hB hm ho⟩
  by_cases hj : j < m.joins.size
  · obtain ⟨-, hkind, hbs⟩ := joins_step_kept hB hm hj
    rw [hkind] at hk
    rw [hbs] at hb
    refine hclosed ?_
    by_cases hold : (m.join j).settled = true
    · exact h j hj hk hold b hb
    · have hopen : (m.join j).settled = false := by simpa using hold
      rcases (Moves.step hm).join_eq hB hj with heq | ⟨d, rest, -, hr, rfl⟩
      · rw [heq] at hs
        exact absurd hs hold
      · exact hB.count_ended hr hk hopen hs b hb
  · have hnew := (joins_new hB hm (Nat.le_of_not_lt hj) hj').settled
    rw [hnew] at hs
    cases hs

/-! ## Branches that belong to nobody -/

/-- A branch is not waited for by anybody, and is not listed as detached. -/
structure Apart (d : Nat) (m : Schedule) : Prop where
  listed : d ∉ m.detached
  joined : ∀ j < m.joins.size, d ∉ (m.join j).branches

/-- Branches are listed as detached that some join has waited for. -/
theorem detached_step (hB : Balanced none m) (hm : m.step body = some m') (hd : d ∈ m'.detached) :
    d ∈ m.detached ∨ ∃ j < m.joins.size, d ∈ (m.join j).branches := by
  rcases step_cases hm with ⟨b, r, -, rfl⟩ | ⟨job, rest, -, hr, rfl⟩ | ⟨-, -, hm⟩
  · rw [detached_advance] at hd
    exact Or.inl hd
  · cases job with
    | resume b => exact Or.inl hd
    | ring b => exact Or.inl hd
    | wake j =>
      obtain ⟨hj, -⟩ := hB.waking j (by rw [hr]; exact List.mem_cons_self)
      obtain ⟨ds, heq, hds⟩ := detached_wake (m.withReady rest) j
      change d ∈ ((m.withReady rest).wake j).detached at hd
      rw [heq] at hd
      rcases List.mem_append.1 hd with hd | hd
      · exact Or.inl hd
      · exact Or.inr ⟨j, hj, (hds d hd).2⟩
    | notify b n =>
      cases n with
      | count j =>
        change d ∈ ((m.withReady rest).count j b).detached at hd
        rw [detached_count] at hd
        exact Or.inl hd
      | forget =>
        change d ∈ ((m.withReady rest).forget b).detached at hd
        rw [detached_forget] at hd
        exact Or.inl (List.mem_filter.1 hd).1
  · rw [(jump_eq hm).2.2.1] at hd
    exact Or.inl hd

theorem Apart.step (h : Apart d m) (hB : Balanced none m) (hd : d < m.branches.size)
    (hm : m.step body = some m') : Apart d m' := by
  refine ⟨fun hmem => ?_, fun j hj' hmem => ?_⟩
  · rcases detached_step hB hm hmem with hl | ⟨j, hj, hb⟩
    · exact h.listed hl
    · exact h.joined j hj hb
  · by_cases hj : j < m.joins.size
    · rw [(joins_step_kept hB hm hj).2.2] at hmem
      exact h.joined j hj hmem
    · rcases (joins_new hB hm (Nat.le_of_not_lt hj) hj').branches d hmem with hge | hl
      · exact absurd hd (Nat.not_lt.2 hge)
      · exact h.listed hl

section Session

variable {tops : List (Nat × Routine Value)} {trace : List (Schedule × Schedule)}

theorem Session.finished (hbody : TameBody body) (h : Session body tops trace m) : Finished m := by
  induction h with
  | start s => exact fun j hj => absurd hj (Nat.not_lt_zero j)
  | begin _ _ s _ ih =>
    intro j hj hk hs b hb
    rw [isOpen, outcome?_launch]
    exact ih j hj hk hs b hb
  | step h hm ih => exact ih.step (h.orderly hbody).balanced hm

/-- Top-level branches belong to nobody. -/
theorem Session.apart (hbody : TameBody body) (h : Session body tops trace m) :
    ∀ t ∈ tops, t.1 < m.branches.size ∧ Apart t.1 m := by
  induction h with
  | start s => exact nofun
  | @begin tops trace m h _ s r _ ih =>
    have hB := (h.orderly hbody).balanced
    have hsize : ((m.withStore s).launch r).2.branches.size = m.branches.size + 1 :=
      Array.size_push _
    intro t ht
    rcases List.mem_cons.1 ht with rfl | ht
    · refine ⟨by omega, fun hl => absurd (hB.left _ hl) (lt_irrefl _), fun j hj hb => ?_⟩
      exact absurd (hB.branches j hj _ hb) (lt_irrefl _)
    · obtain ⟨hlt, hapart⟩ := ih t ht
      exact ⟨by omega, hapart.listed, hapart.joined⟩
  | step h hm ih =>
    have hB := (h.orderly hbody).balanced
    intro t ht
    obtain ⟨hlt, hapart⟩ := ih t ht
    exact ⟨hlt.trans_le (size_le_step hB hm), hapart.step hB hlt hm⟩

/-- A drain waits for nothing but the end of branches that were left behind. -/
theorem Session.drain_joins (hbody : TameBody body) (h : Session body tops trace m)
    (hd : (d, drain) ∈ tops) :
    ∀ j < m.joins.size, (m.join j).owner = d → (m.join j).kind = .ended := by
  induction h with
  | start s => exact absurd hd List.not_mem_nil
  | begin h _ s _ ih =>
    intro j hj howner
    rcases List.mem_cons.1 hd with heq | hd
    · cases heq
      have hlt := (h.orderly hbody).balanced.owner j hj
      change (Schedule.join _ j).owner < _ at hlt
      exact absurd (show (Schedule.join _ j).owner = _ from howner) (Nat.ne_of_lt hlt)
    · exact ih hd j hj howner
  | @step tops trace m m' h hm ih =>
    have hO := h.orderly hbody
    intro j hj' howner
    by_cases hj : j < m.joins.size
    · rw [owner_step hO.balanced hm hj] at howner
      rw [(joins_step_kept hO.balanced hm hj).2.1]
      exact ih hd j hj howner
    · obtain ⟨w, k, ha, hw⟩ := (joins_new hO.balanced hm (Nat.le_of_not_lt hj) hj').turn
      rw [howner] at ha
      cases (hO.drains d hd).turn _ ha
      exact hw rfl

end Session

/-! ## The turn of a drain -/

/-- A branch waits in a join for one that is open. -/
def Expects (d : Nat) (m : Schedule) : Prop :=
  ∃ j, m.Awaits d (.join j) ∧ ∃ b ∈ (m.join j).branches, m.isOpen b = true

/-- What is left of the turn of a drain. -/
def rank : Routine Value → Nat
  | .get _ => 4
  | .put .. => 3
  | .await .. => 2
  | .done _ | .fail _ => 1

theorem rank_lt (r : Routine Value) : rank r < 5 := by
  cases r <;> simp [rank]

open Classical in
/-- Where a drain is in its turn. While it waits it has its whole turn ahead, unless somebody else must
move before. -/
noncomputable def phase (d : Nat) (m : Schedule) : Nat :=
  match m.active with
  | some (_, r) => rank r
  | none => if lag m.ready = 0 ∧ ¬m.Expects d then 5 else 0

theorem phase_turn {r : Routine Value} (ha : m.active = some (b, r)) : phase d m = rank r := by
  rw [phase, ha]

/-- A schedule has got further by what is left of the notices that strike branches off and of the turn
of a drain. -/
def Nearer (d : Nat) (m' m : Schedule) : Prop :=
  lag m'.ready < lag m.ready ∨ lag m'.ready = lag m.ready ∧ phase d m' < phase d m

section Turn

variable {tops : List (Nat × Routine Value)} {trace : List (Schedule × Schedule)}

/-- An action of a drain brings it nearer to its end. -/
theorem Drains.nearer {ever : Set Nat} {ts : List Nat} (h : Drains d m) (hO : Owned ts ever m)
    (hB : Balanced none m) {r : Routine Value} (ha : m.active = some (d, r)) :
    (m.advance body d r).branches.size = m.branches.size ∧
      ((m.advance body d r).isOpen d = false ∨ Nearer d (m.advance body d r) m) := by
  have hgo : ∀ {k : Schedule} {r' : Routine Value}, k.active = some (d, r') → k.ready = m.ready →
      rank r' < rank r → Nearer d k m := fun hk hr hlt =>
    Or.inr ⟨by rw [hr], by rwa [phase_turn hk, phase_turn ha]⟩
  cases h.turn r ha with
  | begun => exact ⟨rfl, Or.inr (hgo rfl rfl (Nat.lt_succ_self 3))⟩
  | marked s => exact ⟨rfl, Or.inr (hgo rfl rfl (Nat.lt_succ_self 2))⟩
  | finished _ =>
    refine ⟨m.size_finish d _, Or.inl ?_⟩
    show (m.finish d (.ok .null)).isOpen d = false
    rw [isOpen, outcome?_finish m (.ok .null) h.begun d, if_pos rfl]
    rfl
  | waits =>
    show (m.wait body d .detached drained).branches.size = _ ∧ (_ ∨ Nearer d (m.wait body d _ _) m)
    by_cases he : m.detached.isEmpty
    · rw [Schedule.wait, if_pos he]
      exact ⟨rfl, Or.inr (hgo rfl rfl (by decide))⟩
    · rw [Schedule.wait, if_neg he]
      set k := m.joinOn d .ended m.detached fun _ => .await .detached drained with hk
      have hlag : lag k.ready = lag m.ready := by
        rw [hk, ready_joinOn]
        refine lag_append fun job hjob => ?_
        obtain ⟨b, -, rfl⟩ := List.mem_map.1 hjob
        rfl
      refine ⟨size_joinOn _ _ _ _ _, Or.inr (Or.inr ⟨hlag, ?_⟩)⟩
      rw [phase_turn ha]
      have hactive : k.active = none := rfl
      rw [phase, hactive]
      dsimp only
      rw [if_neg]
      · decide
      · rintro ⟨hzero, hnot⟩
        -- Nothing is to be struck off, so the drain waits for somebody who is open.
        obtain ⟨b, hb⟩ := List.exists_mem_of_ne_nil _ (by simpa using he : m.detached ≠ [])
        have hjoin := (join_joinOn m d .ended m.detached
          (fun _ => .await .detached drained) m.joins.size).trans (if_pos rfl)
        refine hnot ⟨m.joins.size, ⟨?_, Or.inl ?_, ?_⟩, b, ?_, ?_⟩
        · rw [hk, size_joins_joinOn]
          exact Nat.lt_succ_self _
        · rw [hk, hjoin]
        · rw [hk, hjoin]
        · rw [hk, hjoin]
          exact hb
        · rw [hk, isOpen_joinOn]
          exact hO.open_of_lag hB (hlag.symm.trans hzero) hb

/-- Whoever goes on behind a join has waited for nobody who is open, if only drains wait in it. -/
theorem nearer_wake (hF : Finished m) (hB : Balanced none m) (hm : m.step body = some m')
    (ha : m.active = none) {r : Routine Value} (ha' : m'.active = some (d, r))
    (hkind : ∀ j < m.joins.size, (m.join j).owner = d → (m.join j).kind = .ended) :
    Nearer d m' m := by
  have hlag := lag_step hB ha hm
  by_cases hzero : lag m.ready = 0
  · refine Or.inr ⟨by omega, ?_⟩
    have hphase : phase d m = 5 := by
      rw [phase, ha]
      dsimp only
      rw [if_pos]
      refine ⟨hzero, fun ⟨j, hj, b, hb, ho⟩ => ?_⟩
      rcases hj.step hB hm with hj' | ⟨rest, hr, -⟩
      · exact hj'.not_active (hB.step hm) r ha'
      · have hs := (hB.waking j (by rw [hr]; exact List.mem_cons_self)).2
        rw [hF j hj.1 (hkind j hj.1 hj.2.2) hs b hb] at ho
        cases ho
    rw [phase_turn ha', hphase]
    exact rank_lt r
  · exact Or.inl (by omega)

end Turn

/-! ## Drains end -/

namespace Discipline

open Relation

variable {Γ : Type} {D : Discipline Γ} {γ : Nat → Γ} {st : Nat → Stage Γ}

/-- A branch that moves and starts no others leaves the stages of all others as they are. -/
theorem Moved.lines_eq {γ' : Nat → Γ} {st' : Nat → Stage Γ} (h : D.Moved γ' st st' m m' b)
    (hn : m'.branches.size = m.branches.size) : lines st' m' {b} = lines st m {b} := by
  refine lines_congr hn (fun d hlt hd => ?_) fun d hlt hd ho => ?_
  · rw [Bool.eq_iff_iff]
    exact ⟨h.old d hlt, fun ho => (h.others d hlt ho (by simpa using hd)).2.1⟩
  · exact (h.others d hlt ho (by simpa using hd)).2.2

/-- A drain is on its way, and all other open branches can only make finitely many moves. -/
structure Ebbs (D : Discipline Γ) (γ : Nat → Γ) (st : Nat → Stage Γ) (d : Nat) (m : Schedule) :
    Prop where
  config : D.Config none γ st m
  session : ∃ tops trace, (d, drain) ∈ tops ∧ Session D.body tops trace m
  bounded : ∀ b < m.branches.size, m.isOpen b = true → b ≠ d → D.Bounded (st b)

/-- What goes down before a drain ends. -/
noncomputable def height (st : Nat → Stage Γ) (d : Nat) (m : Schedule) :
    Multiset (Stage Γ) × Nat × Nat × Nat :=
  (lines st m {d}, lag m.ready, phase d m, weight m)

def Lower (D : Discipline Γ) : (x y : Multiset (Stage Γ) × Nat × Nat × Nat) → Prop :=
  Prod.Lex (CutExpand D.Below) (Prod.Lex (· < ·) (Prod.Lex (· < ·) (· < ·)))

theorem wellFounded_lower (D : Discipline Γ) : WellFounded D.Lower :=
  (wellFounded_below D).cutExpand.prod_lex
    (wellFounded_lt.prod_lex (wellFounded_lt.prod_lex wellFounded_lt))

theorem lower_of_nearer {st' : Nat → Stage Γ} (hl : lines st' m' {d} = lines st m {d})
    (h : Nearer d m' m) : D.Lower (height st' d m') (height st d m) := by
  unfold height
  rw [hl]
  rcases h with h | ⟨heq, h⟩
  · exact .right _ (.left _ _ h)
  · rw [heq]
    exact .right _ (.right _ (.left _ _ h))

/-- While nobody moves there are fewer jobs and timers, and a drain keeps its place. -/
theorem lower_of_stay (hB : Balanced none m) (hm : m.step body = some m') (ha : m.active = none)
    (ha' : m'.active = none) (hn : m'.branches.size = m.branches.size)
    (ho : ∀ b, m'.isOpen b = m.isOpen b) (hw : weight m' < weight m) :
    D.Lower (height st d m') (height st d m) := by
  unfold height
  rw [lines_congr hn (fun b _ _ => ho b) fun _ _ _ _ => rfl]
  refine .right _ ?_
  have hlag := lag_step hB ha hm
  by_cases hzero : lag m.ready = 0
  · have hzero' : lag m'.ready = 0 := by omega
    rw [hzero, hzero']
    refine .right _ ?_
    have hexpects : m.Expects d → m'.Expects d := fun ⟨j, hj, b, hb, hob⟩ => by
      rcases hj.step hB hm with hj' | ⟨rest, hr, rfl⟩
      · refine ⟨j, hj', b, ?_, (ho b).trans hob⟩
        rwa [(joins_step_kept hB hm hj.1).2.2]
      · rw [(wake_verdict hB hr).1] at ha'
        cases ha'
    have hphase : phase d m' ≤ phase d m := by
      rw [phase, phase, ha, ha']
      dsimp only
      by_cases he : m.Expects d
      · rw [if_neg fun h => h.2 (hexpects he)]
        exact Nat.zero_le _
      · rw [if_pos (c := lag m.ready = 0 ∧ _) ⟨hzero, he⟩]
        split <;> omega
    rcases Nat.lt_or_eq_of_le hphase with hlt | heq
    · exact .left _ _ hlt
    · rw [heq]
      exact .right _ hw
  · exact .left _ _ (by omega)

/-- A drain that is on its way makes a next step: the last open branch beside it would wait for one
that began after it. -/
theorem Ebbs.exists_step (h : D.Ebbs γ st d m) (hbody : TameBody D.body) (ho : m.isOpen d = true) :
    ∃ m', m.step D.body = some m' := by
  obtain ⟨tops, trace, htop, hs⟩ := h.session
  have hB := (hs.orderly hbody).balanced
  obtain ⟨hd, hapart⟩ := hs.apart hbody _ htop
  refine exists_step_of fun ⟨ha, hr, ht⟩ => ?_
  -- The drain itself waits for somebody else.
  obtain ⟨i, hi, -, -, b, hb, hblt, hbo⟩ := exists_open_of_stuck hB ha hr ht hd ho
  have hmem : ∀ {e j}, j < m.joins.size → e ∈ (m.join j).branches → e < m.branches.size →
      m.isOpen e = true → e ∈ (openers m).erase d := fun hj he hlt heo =>
    Finset.mem_erase.2 ⟨fun hed => hapart.joined _ hj (hed ▸ he), mem_openers.2 ⟨hlt, heo⟩⟩
  obtain ⟨e, he, hmax⟩ := ((openers m).erase d).exists_max_image id ⟨b, hmem hi hb hblt hbo⟩
  obtain ⟨hne, he⟩ := Finset.mem_erase.1 he
  obtain ⟨hlt, heo⟩ := mem_openers.1 he
  obtain ⟨j, hj, hsettled, rfl, c, hc, hclt, hco⟩ := exists_open_of_stuck hB ha hr ht hlt heo
  exact Nat.not_lt.2 (hmax c (hmem hj hc hclt hco))
    (h.config.lt_of_joined hj hsettled (h.bounded _ hlt heo hne).2 hc)

/-- A step ends a drain, or less remains to be done before it ends. -/
theorem Ebbs.step (hD : D.Lawful) (hbody : TameBody D.body) (h : D.Ebbs γ st d m)
    (hm : m.step D.body = some m') : ∃ γ' st', D.Ebbs γ' st' d m' ∧
      (m'.isOpen d = false ∨ D.Lower (height st' d m') (height st d m)) := by
  obtain ⟨tops, trace, htop, hs⟩ := h.session
  have hO := hs.orderly hbody
  obtain ⟨γ', st', hc, -, -, hprogress⟩ := h.config.step hD hO.balanced hm
  have hs' : ∃ tops trace, (d, drain) ∈ tops ∧ Session D.body tops trace m' :=
    ⟨tops, _, htop, hs.step hm⟩
  refine ⟨γ', st', ?_⟩
  rcases hprogress with ⟨b, hmoved⟩ | ⟨ha, ha', rfl, hn, ho, hw⟩
  · -- What the drain leads to, if it is the drain that moves.
    have hown : b = d → m'.branches.size = m.branches.size ∧
        (m'.isOpen d = false ∨ Nearer d m' m) := by
      rintro rfl
      rcases hmoved.turn with ⟨r, ha⟩ | ⟨ha, r, ha'⟩
      · obtain rfl : m' = m.advance D.body b r := (Moves.step hm).advance ha
        exact (hO.drains b htop).nearer hO.owned hO.balanced ha
      · exact ⟨(kept_job ha hm).size, Or.inr (nearer_wake (hs.finished hbody) hO.balanced hm ha ha'
          (hs.drain_joins hbody htop))⟩
    refine ⟨⟨hc, hs', fun e he heo hne => ?_⟩, ?_⟩
    · by_cases hb : b = d
      · obtain ⟨hn, -⟩ := hown hb
        have heo' := hmoved.old e (hn ▸ he) heo
        rw [(hmoved.others e (hn ▸ he) heo' (hb ▸ hne)).2.2]
        exact h.bounded e (hn ▸ he) heo' hne
      · have hbounded := h.bounded b hmoved.begun hmoved.isOpen hb
        by_cases heb : e = b
        · subst heb
          exact hbounded.next hD (.go (hmoved.own heo))
        · rcases hmoved.lower he heo with ⟨hlt, heo'⟩ | hnext
          · rw [(hmoved.others e hlt heo' heb).2.2]
            exact h.bounded e hlt heo' hne
          · exact hbounded.next hD hnext
    · by_cases hb : b = d
      · obtain ⟨hn, hend⟩ := hown hb
        subst hb
        exact hend.imp_right (lower_of_nearer (hmoved.lines_eq hn))
      · refine Or.inr (.left _ _ (hmoved.cutExpand (by simpa using hb) fun x hx => ⟨hx, ?_⟩))
        exact (h.bounded b hmoved.begun hmoved.isOpen hb).1
  · refine ⟨⟨hc, hs', fun e he heo => ?_⟩, Or.inr (lower_of_stay hO.balanced hm ha ha' hn ho hw)⟩
    exact h.bounded e (hn ▸ he) ((ho e).symm.trans heo)

/-- **A drain ends** if all other branches that are open can only make finitely many moves. -/
theorem Ebbs.ends (hD : D.Lawful) (hbody : TameBody D.body) (h : D.Ebbs γ st d m) :
    ∃ n, ∀ k ≥ n, (runUntil D.body d k m).outcome? d = some (.ok .null) := by
  have hclosed : ∀ {γ st m}, D.Ebbs γ st d m → m.isOpen d = false →
      ∀ k, (runUntil D.body d k m).outcome? d = some (.ok .null) := by
    rintro γ st m ⟨-, ⟨tops, trace, htop, hs⟩, -⟩ hc k
    rw [runUntil_of_closed hc]
    exact ((hs.orderly hbody).drains d htop).ended hc
  generalize hx : height st d m = x
  induction x using (wellFounded_lower D).induction generalizing γ st m with
  | _ x ih =>
    cases ho : m.isOpen d with
    | false => exact ⟨0, fun k _ => hclosed h ho k⟩
    | true =>
      obtain ⟨m', hm⟩ := h.exists_step hbody ho
      obtain ⟨γ', st', h', hend⟩ := h.step hD hbody hm
      obtain ⟨n, hn⟩ : ∃ n, ∀ k ≥ n, (runUntil D.body d k m').outcome? d = some (.ok .null) := by
        rcases hend with hc | hlower
        · exact ⟨0, fun k _ => hclosed h' hc k⟩
        · exact ih _ (hx ▸ hlower) h' rfl
      refine ⟨n + 1, fun k hk => ?_⟩
      obtain ⟨k, rfl⟩ : ∃ l, k = l + 1 := ⟨k - 1, by omega⟩
      rw [runUntil, if_pos ho, hm]
      exact hn k (by omega)

/-! ## Running one routine after another -/

/-- Who ends gives the turn away. -/
theorem active_of_ends (hB : Balanced none m) (hm : m.step body = some m') (ho : m.isOpen b = true)
    (hc : m'.isOpen b = false) : m'.active = none := by
  obtain ⟨x, hx⟩ := isOpen_eq_false_iff.1 hc
  have hnone : m.outcome? b = none := by simpa [isOpen] using ho
  have ha := (Moves.step hm).ended hB hnone hx
  rw [(Moves.step hm).advance ha]
  cases x <;> rfl

theorem active_runUntil (k : Nat) : ∀ {m : Schedule}, Balanced none m → m.isOpen b = true →
    (runUntil body b k m).isOpen b = false → (runUntil body b k m).active = none := by
  induction k with
  | zero => exact fun _ ho hc => absurd (ho.symm.trans hc) (by simp)
  | succ k ih =>
    intro m hB ho hc
    rw [runUntil, if_pos ho] at hc ⊢
    cases hm : m.step body with
    | none =>
      rw [hm] at hc
      exact absurd (ho.symm.trans hc) (by simp)
    | some m' =>
      rw [hm] at hc
      dsimp only at hc ⊢
      cases ho' : m'.isOpen b with
      | true => exact ih (hB.step hm) ho' hc
      | false =>
        rw [runUntil_of_closed ho']
        exact active_of_ends hB hm ho ho'

theorem Disciplined.runUntil (hD : D.Lawful) (k : Nat) : ∀ {m : Schedule}, D.Disciplined m →
    D.Disciplined (runUntil D.body b k m) := by
  induction k with
  | zero => exact fun h => h
  | succ k ih =>
    intro m h
    unfold Schedule.runUntil
    split
    · split
      · next m' hm => exact ih (h.step hD hm)
      · exact h
    · exact h

/-- Between two routines that are run: nobody has the turn, and every branch that was left behind can
only make finitely many moves. -/
structure Resumable (D : Discipline Γ) (m : Schedule) : Prop where
  disciplined : D.bounded.Disciplined m
  idle : m.active = none
  session : ∃ tops trace, Session D.body tops trace m

theorem resumable_ofStore [Inhabited Γ] (D : Discipline Γ) (s : Store) :
    D.Resumable (ofStore s) :=
  ⟨D.bounded.disciplined_ofStore s, rfl, [], [], .start s⟩

variable {g : Γ} {r : Routine Value}

/-- **A bounded routine settles**, and leaves only bounded branches behind. -/
theorem Resumable.settles (hD : D.Lawful) (h : D.Resumable m)
    (hr : D.bounded.may g (.turn r m.store)) (htame : r.Tame) : ∃ n, ∀ k ≥ n, ∃ o,
      (run D.body k r m).1 = some o ∧ D.post g o (run D.body k r m).2.store ∧
        D.Resumable (run D.body k r m).2 := by
  obtain ⟨hB, γ, st, hc⟩ := h.disciplined
  obtain ⟨tops, trace, hs⟩ := h.session
  have hsize : (m.launch r).2.branches.size = m.branches.size + 1 := Array.size_push _
  have hB' : Balanced none (m.launch r).2 := hB.launch h.idle r
  have hopen : (m.launch r).2.isOpen m.branches.size = true := by
    rw [isOpen, outcome?_launch, outcome?_of_size_le le_rfl]
    rfl
  obtain ⟨n, hn⟩ := (hc.launch hB hr).settles_bounded hD hB' (b := m.branches.size) (by omega)
  refine ⟨n, fun k hk => ?_⟩
  obtain ⟨o, ho, hpost⟩ := hn k hk
  rw [Function.update_self] at hpost
  refine ⟨o, ho, hpost, ?_, ?_, ?_⟩
  · have hd : D.bounded.Disciplined (m.launch r).2 :=
      ⟨hB', _, _, hc.launch hB hr⟩
    exact hd.runUntil hD.bounded k
  · exact active_runUntil k hB' hopen (isOpen_eq_false_iff.2 ⟨o, ho⟩)
  · obtain ⟨more, hmore⟩ := hs.run h.idle htame k
    exact ⟨_, _, hmore⟩

/-- **A drain returns** if the branches that were left behind are bounded. -/
theorem Resumable.drains (hD : D.Lawful) (hbody : TameBody D.body) (h : D.Resumable m)
    (hr : D.may g (.turn drain m.store)) :
    ∃ n, ∀ k ≥ n, (run D.body k drain m).1 = some (.ok .null) := by
  obtain ⟨hB, γ, st, hc⟩ := h.disciplined
  obtain ⟨tops, trace, hs⟩ := h.session
  have hsize : (m.launch drain).2.branches.size = m.branches.size + 1 := Array.size_push _
  have hc' : D.Config none γ st m :=
    ⟨fun b hb ho hne => (hc.may b hb ho hne).1, hc.turn, hc.rest, hc.joined, hc.ended, hc.below⟩
  refine Ebbs.ends (d := m.branches.size) hD hbody ⟨hc'.launch hB hr,
    ⟨_, trace, List.mem_cons_self, hs.launch h.idle tame_drain⟩, fun b hb ho hne => ?_⟩
  change b < (m.launch drain).2.branches.size at hb
  change (m.launch drain).2.isOpen b = true at ho
  rw [isOpen, outcome?_launch] at ho
  rw [Function.update_of_ne hne]
  exact (hc.may b (by omega) ho (Option.some_ne_none b).symm).2

end Discipline

end Schedule

end Conductor
