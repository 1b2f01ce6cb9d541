import Conductor.Proofs.Account.Launched
import Conductor.Proofs.Schedule.Descent

/-!
# Phases

A routine often comes in phases: something is prepared, other parts of the run are called, and at the
end something is said about how they have ended. While a branch is in one phase, whatever is kept by
the writes of that phase and by the writes of the parts holds on. At the end of the phase the branch
has the turn, and stands where the next phase begins.

All other branches run parts of the run in the meantime. They may rely on less than what holds on in
a phase, since the writes between two phases need not keep it.

**Theorem (`Phase.arrives`).** A branch that has ended came to the end of each of its phases; and up to
there all that the writes of the phase keep was kept.
-/

namespace Conductor

namespace Schedule

variable {body : Procedure → Routine Value} {m m' : Schedule} {b : Nat}

/-- A step sets the clock, or logs a late failure, or is a write of the branch that has the turn; or it
leaves the store as it is. -/
theorem store_step (hm : m.step body = some m') : m'.store = m.store ∨
    (∃ x, m'.store = { m.store with clock := x }) ∨
    (∃ f, m'.store = m.store.write (lateFailure f)) ∨
    ∃ d s r, m.active = some (d, .put s r) ∧ m'.store = s := by
  rcases step_cases hm with ⟨d, r, ha, rfl⟩ | ⟨job, rest, -, -, rfl⟩ | ⟨-, -, hj⟩
  · have hjoin : ∀ kind ps k, (m.startAndJoin body d kind ps k).store = m.store := by
      intro kind ps k
      by_cases hps : ps = []
      · subst hps
        rfl
      · rw [startAndJoin_eq m d kind hps]
        refine (store_watchAll _ _ _).trans ?_
        rw [spawnAll_snd]
    cases r with
    | put s r => exact Or.inr (Or.inr (Or.inr ⟨d, s, r, ha, rfl⟩))
    | done | fail | get => exact Or.inl rfl
    | await w k =>
      refine Or.inl ?_
      cases w with
      | call p => rfl
      | sleep x =>
        show (m.sleep d x k).store = _
        unfold sleep
        dsimp only
        split <;> rfl
      | all ps => exact hjoin .all ps k
      | first ps => exact hjoin .first ps k
      | detached =>
        show (m.wait body d .detached k).store = _
        unfold wait
        dsimp only
        split
        · rfl
        · exact store_watchAll _ _ _
  · cases job with
    | resume | ring => exact Or.inl rfl
    | notify d n =>
      cases n with
      | forget =>
        exact (store_forget_cases (m.withReady rest) d).imp_right fun h => Or.inr (Or.inl h)
      | count j =>
        exact Or.inl (count_eq Schedule.store (fun _ _ _ => rfl) (fun _ _ => rfl) _ j d)
    | wake j =>
      refine Or.inl ?_
      have hdetach : ∀ bs, ((m.withReady rest).detachOpen bs).store = m.store := fun bs => by
        rw [detachOpen_eq]
        exact store_watchAll _ _ _
      show ((m.withReady rest).wake j).store = _
      unfold wake
      dsimp only
      split
      · rfl
      · exact hdetach _
      · split
        · rfl
        · split
          · exact hdetach _
          · rfl
  · unfold jump at hj
    split at hj
    · cases hj
    · next x _ =>
      cases hj
      exact Or.inr (Or.inl ⟨x, rfl⟩)

/-- A branch ends by a step of its own, in which it has nothing left to do. -/
theorem active_of_closing (hB : Balanced none m) (hm : m.step body = some m') (ho : m.isOpen b = true)
    {o : Except Failure Value} (hc : m'.outcome? b = some o) :
    m.active = some (b, Routine.ofOutcome o) ∧ m'.store = m.store := by
  have hsame : m'.outcome? b ≠ m.outcome? b := fun heq => by
    rw [isOpen, ← heq, hc] at ho
    cases ho
  cases ha : m.active with
  | none => exact absurd ((kept_job ha hm).outcome b) hsame
  | some x =>
    obtain ⟨d, r⟩ := x
    by_cases hd : b = d
    · subst hd
      have hstep : m' = m.advance body b r := by
        rw [Schedule.step, ha] at hm
        exact (Option.some.inj hm).symm
      have hb := (hB.take ha).of_held.1
      subst hstep
      cases r with
      | done v =>
        rw [show m.advance body b (.done v) = m.finish b (.ok v) from rfl,
          m.outcome?_finish _ hb, if_pos rfl] at hc
        cases hc
        exact ⟨rfl, rfl⟩
      | fail f =>
        rw [show m.advance body b (.fail f) = m.finish b (.error f) from rfl,
          m.outcome?_finish _ hb, if_pos rfl] at hc
        cases hc
        exact ⟨rfl, rfl⟩
      | get | put => exact absurd rfl hsame
      | await w k => exact absurd (outcome?_wait m b w k b) hsame
    · exact absurd ((frame_turn hB ha hm).outcome b hd) hsame

/-- Schedules in balance stay so, and if no abort can come then none will. -/
theorem Quiet.after (hbody : TameBody body) (h : Quiet none m) (hB : Balanced none m) (n : Nat) :
    Quiet none (m.after body n) ∧ Balanced none (m.after body n) := by
  induction n with
  | zero => exact ⟨h, hB⟩
  | succ n ih =>
    show Quiet none ((m.after body n).next body) ∧ Balanced none ((m.after body n).next body)
    unfold Schedule.next
    cases hm : (m.after body n).step body with
    | none => exact ih
    | some m' => exact ⟨ih.1.step hbody ih.2 hm, ih.2.step hm⟩

/-- Something holds as soon as a branch has ended. -/
def Finishes (body : Procedure → Routine Value) (d : Nat) (Q : Schedule → Prop) (m : Schedule) : Prop :=
  ∀ n, (m.after body n).isOpen d = false → Q (m.after body n)

theorem Finishes.later {d : Nat} {Q : Schedule → Prop} {i : Nat} (h : Finishes body d Q (m.after body i))
    {n : Nat} (hi : i ≤ n) (hend : (m.after body n).isOpen d = false) : Q (m.after body n) := by
  have heq : m.after body (i + (n - i)) = (m.after body i).after body (n - i) := after_add m i _
  rw [Nat.add_sub_cancel' hi] at heq
  rw [heq] at hend ⊢
  exact h _ hend

namespace Discipline

variable {Γ : Type} {D : Discipline Γ} {γ : Nat → Γ} {st : Nat → Stage Γ}

/-- Branches stay in their discipline, and keep their sorts. -/
theorem Config.after (hD : D.Lawful) (h : D.Config none γ st m) (hB : Balanced none m) (n : Nat) :
    ∃ γ' st', D.Config none γ' st' (m.after D.body n) ∧ Balanced none (m.after D.body n) ∧
      m.branches.size ≤ (m.after D.body n).branches.size ∧ ∀ d < m.branches.size, γ' d = γ d := by
  induction n with
  | zero => exact ⟨γ, st, h, hB, le_rfl, fun _ _ => rfl⟩
  | succ n ih =>
    obtain ⟨γ', st', hc, hB', hsize, hγ⟩ := ih
    rw [Schedule.after, Schedule.next]
    cases hm : (m.after D.body n).step D.body with
    | none => exact ⟨γ', st', hc, hB', hsize, hγ⟩
    | some m' =>
      obtain ⟨γ'', st'', hc', hγ', -⟩ := hc.step hD hB' hm
      exact ⟨γ'', st'', hc', hB'.step hm, hsize.trans (size_le_step hB' hm), fun d hd =>
        (hγ' d (hd.trans_le hsize)).trans (hγ d hd)⟩

/-- An open branch that is at its turn has the turn. -/
theorem Config.active_of_turn (h : D.Config none γ st m) (hB : Balanced none m)
    (hb : b < m.branches.size) (ho : m.isOpen b = true) {r : Routine Value} {s : Store}
    (hst : st b = .turn r s) : m.active = some (b, r) ∧ s = m.store := by
  have hp := hB.prospects b
  rw [if_neg nofun, if_pos ⟨hb, ho⟩, Schedule.prospects] at hp
  have hrest : ¬ m.Resting b := fun hr => by
    obtain ⟨u, -, hu⟩ := h.rest b hr
    cases hst.symm.trans hu
  have hjoined : ∀ j < m.joins.size, m.Live j → (m.join j).owner ≠ b := by
    rintro j hj hl rfl
    obtain ⟨u, -, hu⟩ := h.joined j hj hl
    cases hst.symm.trans hu
  -- Nothing else lets the branch go on.
  have hready : m.ready.countP (m.lets b) = 0 := by
    refine List.countP_eq_zero.2 fun job hjob hl => ?_
    cases job with
    | resume d => exact hrest (Or.inl (by simpa [lets] using (by simpa [lets] using hl : d = b) ▸ hjob))
    | ring d => exact hrest (Or.inr (Or.inl ((by simpa [lets] using hl : d = b) ▸ hjob)))
    | wake j => exact hjoined j (hB.waking j hjob).1 (Or.inr hjob) (by simpa [lets] using hl)
    | notify d n => cases hl
  have htimers : m.timers.countP (·.branch == b) = 0 :=
    List.countP_eq_zero.2 fun t ht hl => hrest (Or.inr (Or.inr ⟨t, ht, by simpa using hl⟩))
  have hwaits : m.waitsIn b = ∅ := by
    refine Finset.eq_empty_of_forall_notMem fun j hj => ?_
    obtain ⟨hlt, hs, howner⟩ := mem_waitsIn.1 hj
    exact hjoined j hlt (Or.inl hs) howner
  rw [hready, htimers, hwaits] at hp
  unfold Schedule.turn at hp
  cases ha : m.active with
  | none =>
    rw [ha] at hp
    cases hp
  | some x =>
    obtain ⟨d, r'⟩ := x
    rw [ha] at hp
    dsimp only at hp
    split at hp
    · next hd =>
      subst hd
      cases hst.symm.trans (h.turn d r' ha)
      exact ⟨rfl, rfl⟩
    · cases hp

end Discipline

end Schedule

namespace Contract

open Schedule

variable {K : Contract} {body : Procedure → Routine Value} {α : Type} {m m' : Schedule} {d : Nat}

/-- A phase of a routine: what is written in it, what its end establishes, and what comes behind it. -/
structure Phase (K : Contract) (α : Type) where
  writes : Store → Store → Prop
  ends : Except Failure α → Store → Prop
  behind : Except Failure α → Routine Value
  relied : ∀ {s t}, writes s t → K.rely s t

namespace Phase

variable {φ : K.Phase α}

/-- The terms on which a branch runs in a phase. -/
def terms (φ : K.Phase α) : Terms := K.termsBy φ.writes φ.relied

/-- A stage in the phase, or at its end. -/
def Ahead (φ : K.Phase α) : Stage K.Role → Prop
  | .turn r s => ∃ x : Routine α, r = x.thenOn φ.behind ∧ x.Meets φ.terms φ.ends s
  | .rest r s => ∃ x : Routine α, r = x.thenOn φ.behind ∧
      ∀ t, K.rely s t → x.Meets φ.terms φ.ends t
  | .joined kind ρs k s => ∃ h : Outcome → Routine α, (k = fun o => (h o).thenOn φ.behind) ∧
      ∀ o t, K.rely s t → K.Explains kind ρs o t → (h o).Meets φ.terms φ.ends t

/-- A stage at the end of the phase. -/
def Over (φ : K.Phase α) (x : Stage K.Role) : Prop :=
  ∃ o s, x = .turn (φ.behind o) s ∧ φ.ends o s

/-- From a stage in the phase a branch comes to another one, unless the phase is over. -/
theorem Ahead.goes (hK : K.Kept body) {x y : Stage K.Role} (h : φ.Ahead x)
    (hy : (K.discipline body).Goes y x) : φ.Over x ∨ φ.Ahead y := by
  cases x with
  | turn r s =>
    obtain ⟨x, rfl, hx⟩ := h
    cases x with
    | done a => exact Or.inl ⟨.ok a, s, rfl, hx⟩
    | fail f => exact Or.inl ⟨.error f, s, rfl, hx⟩
    | get k =>
      change (K.discipline body).Goes y (.turn (.get fun s => (k s).thenOn φ.behind) s) at hy
      cases hy
      exact Or.inr ⟨k s, rfl, hx⟩
    | put t x =>
      change (K.discipline body).Goes y (.turn (.put t (x.thenOn φ.behind)) s) at hy
      cases hy
      exact Or.inr ⟨x, rfl, hx.2⟩
    | await w k =>
      obtain ⟨⟨hpre, hwrites⟩, hk⟩ := hx
      refine Or.inr ?_
      change (K.discipline body).Goes y (.turn (.await w fun o => (k o).thenOn φ.behind) s) at hy
      cases hy with
      | call p =>
        refine ⟨(body p).continueWith k, ?_, Routine.meets_continueWith.2 ?_⟩
        · show (body p).continueWith _ = _
          rw [Routine.continueWith_eq_thenOn, Routine.continueWith_eq_thenOn, Routine.thenOn_thenOn]
        · have hbody : (body p).Meets φ.terms (K.post p) s :=
            Routine.Meets.weaken (T := K.terms p) (hwrites p rfl _ _) id
              (fun ha => ⟨ha.1, fun q hq _ _ hw => hwrites p rfl _ _ (ha.2 q hq _ _ hw)⟩) id
              (hK.body (hpre p List.mem_cons_self) (K.refl s))
          exact hbody.mono fun o t ht ho => hk _ t ht ⟨o, ho, rfl⟩
      | sleep x => exact ⟨k (.ok []), rfl, fun t ht => hk _ t ht rfl⟩
      | join _ _ hw => exact ⟨k, rfl, fun o t ht ho => hk o t ht (answers_of_explains hw ho)⟩
      | skip _ _ hw => exact ⟨k (.ok []), rfl, hk _ s (K.refl s) (answers_nil hw)⟩
      | drain δs =>
        refine ⟨fun _ => .await .detached k, rfl, fun o t ht _ => ⟨⟨fun p hp => ?_, nofun⟩, ?_⟩⟩
        · exact absurd hp List.not_mem_nil
        · exact fun o' u hu ho => hk o' u (K.trans ht hu) ho
      | drained => exact ⟨k (.ok []), rfl, hk _ s (K.refl s) rfl⟩
  | rest r s =>
    obtain ⟨x, rfl, hx⟩ := h
    cases hy with
    | resume _ ht => exact Or.inr ⟨x, rfl, hx _ ht⟩
  | joined kind ρs k s =>
    obtain ⟨h, rfl, hk⟩ := h
    cases hy with
    | goOn _ ht ho => exact Or.inr ⟨h _, rfl, hk _ _ ht (by rwa [discipline_explains] at ho)⟩

end Phase

/-- One branch is watched, and all others that are open run parts of the run. -/
structure Watches (K : Contract) (body : Procedure → Routine Value) (d : Nat)
    (st : Nat → Stage K.Role) (m : Schedule) : Prop where
  balanced : Balanced none m
  config : ∃ γ, (K.discipline body).Config none γ st m ∧
    ∀ b < m.branches.size, m.isOpen b = true → b ≠ d → ∃ p, γ b = K.role p

/-- What the parts keep by what they write, and the schedule keeps by what it does itself. -/
structure Stable (K : Contract) (P : Store → Prop) : Prop where
  parts : ∀ {p s t}, P s → K.writes p s t → P t
  clock : ∀ {s} x, P s → P { s with clock := x }
  late : ∀ {s} f, P s → P (s.write (lateFailure f))

variable {st : Nat → Stage K.Role} {P : Store → Prop}

/-- What is stable holds on, unless the watched branch writes. -/
theorem Watches.store (h : K.Watches body d st m) (hP : K.Stable P) (hm : m.step body = some m')
    (hs : P m.store) : P m'.store ∨ ∃ s r, m.active = some (d, .put s r) ∧ m'.store = s := by
  rcases store_step hm with heq | ⟨x, heq⟩ | ⟨f, heq⟩ | ⟨b, s, r, ha, heq⟩
  · exact Or.inl (by rwa [heq])
  · exact Or.inl (by rw [heq]; exact hP.clock x hs)
  · exact Or.inl (by rw [heq]; exact hP.late f hs)
  · by_cases hbd : b = d
    · subst hbd
      exact Or.inr ⟨s, r, ha, heq⟩
    · obtain ⟨γ, hc, hroles⟩ := h.config
      obtain ⟨hb, ho, -⟩ := (h.balanced.take ha).of_held
      obtain ⟨p, hp⟩ := hroles b hb ho hbd
      have hmay := hc.may b hb ho nofun
      rw [hc.turn b _ ha, hp] at hmay
      rw [heq]
      exact Or.inl (hP.parts hs (show K.writes p m.store s from hmay.1))

/-- The watched branch stays where it is, or makes a move by itself. -/
theorem Watches.step (hK : K.Kept body) (h : K.Watches body d st m) (hm : m.step body = some m') :
    ∃ st', K.Watches body d st' m' ∧ (d < m.branches.size → m.isOpen d = true →
      d < m'.branches.size ∧ (m'.isOpen d = true →
        st' d = st d ∨ (K.discipline body).Goes (st' d) (st d))) := by
  obtain ⟨γ, hc, hroles⟩ := h.config
  have hsize := size_le_step h.balanced hm
  obtain ⟨γ', st', hc', hγ, -, ⟨b, hmoved⟩ | ⟨-, -, rfl, hn, hopen, -⟩⟩ :=
    hc.step (lawful hK) h.balanced hm
  · refine ⟨st', ⟨h.balanced.step hm, γ', hc', fun e he heo hed => ?_⟩, fun hd ho =>
      ⟨hd.trans_le hsize, fun ho' => ?_⟩⟩
    · -- Branches that begin run parts.
      by_cases hlt : e < m.branches.size
      · rw [hγ e hlt]
        exact hroles e hlt (hmoved.old e hlt heo) hed
      · have hborn := hmoved.born e he (Nat.le_of_not_lt hlt)
        generalize st b = x, st' e = y, γ' e = g at hborn ⊢
        cases hborn with
        | start k s hside hp => exact ⟨_, rfl⟩
    · by_cases hdb : d = b
      · subst hdb
        exact Or.inr (hmoved.own ho')
      · exact Or.inl (hmoved.others d hd ho hdb).2.2
  · refine ⟨st', ⟨h.balanced.step hm, γ', hc', fun e he heo hed => ?_⟩, fun hd _ =>
      ⟨hn ▸ hd, fun _ => Or.inl rfl⟩⟩
    have he' : e < m.branches.size := hn ▸ he
    rw [hγ e he']
    exact hroles e he' ((hopen e).symm.trans heo) hed

/-- What is stable holds on when the watched branch has ended. -/
theorem Watches.closed (hK : K.Kept body) (hP : K.Stable P) (h : K.Watches body d st m)
    {x : Except Failure Value} (hc : m.outcome? d = some x) (hs : P m.store) (n : Nat) :
    (m.after body n).outcome? d = some x ∧ P (m.after body n).store := by
  suffices hall : (∃ st, K.Watches body d st (m.after body n)) ∧
      (m.after body n).outcome? d = some x ∧ P (m.after body n).store from hall.2
  induction n with
  | zero => exact ⟨⟨st, h⟩, hc, hs⟩
  | succ n ih =>
    obtain ⟨⟨st, h⟩, hc, hs⟩ := ih
    show (∃ st, K.Watches body d st ((m.after body n).next body)) ∧
      ((m.after body n).next body).outcome? d = some x ∧ P ((m.after body n).next body).store
    unfold Schedule.next
    cases hm : (m.after body n).step body with
    | none => exact ⟨⟨st, h⟩, hc, hs⟩
    | some m' =>
      obtain ⟨st', h', -⟩ := h.step hK hm
      refine ⟨⟨st', h'⟩, outcome?_step h.balanced hm hc, (h.store hP hm hs).resolve_right ?_⟩
      rintro ⟨s, r, ha, -⟩
      have ho := (h.balanced.take ha).of_held.2.1
      rw [show (m.after body n).idle.isOpen d = (m.after body n).isOpen d from rfl,
        isOpen_eq_false_iff.2 ⟨x, hc⟩] at ho
      cases ho

/-- **A routine that is launched establishes what its role says**, by the time it has ended. -/
theorem post_launched (hK : K.Kept body) (ρ : K.Role) {r : Routine Value} {s : Store}
    (hr : r.Meets (K.termsFor ρ) ρ.ends s) {n : Nat} {o : Except Failure Value}
    (ho : ((Run.launched body s r).moment n).outcome? 0 = some o) :
    ρ.ends o ((Run.launched body s r).store n) := by
  cases n with
  | zero => cases ho
  | succ n =>
    have hconfig := (Discipline.config_ofStore (K.discipline body) (fun _ => ρ)
      (fun _ => .turn r s) s).launch (g := ρ) (r := r) (balanced_ofStore s) hr
    obtain ⟨γ, st, hc, -, -, hγ⟩ :=
      hconfig.after (lawful hK) ((balanced_ofStore s).launch rfl r) n
    have hends := hc.ended 0 o ho
    rw [hγ 0 Nat.zero_lt_one, show (ofStore s).branches.size = 0 from rfl, Function.update_self] at hends
    exact hends

namespace Phase

variable {φ : K.Phase α}

/-- The watched branch is in a phase, and something holds meanwhile. -/
structure In (φ : K.Phase α) (body : Procedure → Routine Value) (P : Store → Prop) (d : Nat)
    (m : Schedule) : Prop where
  watches : ∃ st, K.Watches body d st m ∧ φ.Ahead (st d)
  begun : d < m.branches.size
  isOpen : m.isOpen d = true
  holds : P m.store

/-- The watched branch has come to the end of a phase. -/
structure Ends (φ : K.Phase α) (body : Procedure → Routine Value) (P : Store → Prop) (d : Nat)
    (o : Except Failure α) (m : Schedule) : Prop where
  watches : ∃ st, K.Watches body d st m
  active : m.active = some (d, φ.behind o)
  ends : φ.ends o m.store
  holds : P m.store

/-- A branch that is at its turn writes what the phase allows, or the phase is over. -/
theorem Ahead.put {s t : Store} {r : Routine Value} (h : φ.Ahead (.turn (.put t r) s)) :
    φ.Over (.turn (.put t r) s) ∨ φ.writes s t := by
  obtain ⟨x, hx, hmeets⟩ := h
  cases x with
  | done a => exact Or.inl ⟨.ok a, s, congrArg (Stage.turn · s) hx, hmeets⟩
  | fail f => exact Or.inl ⟨.error f, s, congrArg (Stage.turn · s) hx, hmeets⟩
  | put u x =>
    cases hx
    exact Or.inr hmeets.1
  | get | await => cases hx

theorem over_of_ofOutcome {o : Except Failure Value} {s : Store}
    (h : φ.Ahead (.turn (Routine.ofOutcome o) s)) : φ.Over (.turn (Routine.ofOutcome o) s) := by
  obtain ⟨x, hx, hmeets⟩ := h
  cases x with
  | done a => exact ⟨.ok a, s, congrArg (Stage.turn · s) hx, hmeets⟩
  | fail f => exact ⟨.error f, s, congrArg (Stage.turn · s) hx, hmeets⟩
  | get | put | await => cases o <;> cases hx

/-- Whoever is at the end of the phase has the turn. -/
theorem In.over (h : φ.In body P d m) (hw : K.Watches body d st m) (ho : φ.Over (st d)) :
    ∃ o, φ.Ends body P d o m := by
  obtain ⟨o, s, hst, he⟩ := ho
  obtain ⟨γ, hc, -⟩ := hw.config
  obtain ⟨ha, rfl⟩ := hc.active_of_turn hw.balanced h.begun h.isOpen hst
  exact ⟨o, ⟨st, hw⟩, ha, he, h.holds⟩

/-- As long as the phase is not over, a step leads on in it. -/
theorem In.step (hK : K.Kept body) (hP : K.Stable P) (hown : ∀ {s t}, P s → φ.writes s t → P t)
    (h : φ.In body P d m) (hm : m.step body = some m') :
    (∃ o, φ.Ends body P d o m) ∨ φ.In body P d m' := by
  obtain ⟨st, hw, hahead⟩ := h.watches
  obtain ⟨γ, hc, -⟩ := hw.config
  obtain ⟨st', hw', hmove⟩ := hw.step hK hm
  obtain ⟨hd, hmove⟩ := hmove h.begun h.isOpen
  have hstore : (∃ o, φ.Ends body P d o m) ∨ P m'.store := by
    refine (hw.store hP hm h.holds).elim Or.inr ?_
    rintro ⟨s, r, ha, hs⟩
    have hst := hc.turn d _ ha
    rcases (hst ▸ hahead).put with hover | hwrite
    · exact Or.inl (h.over hw (hst ▸ hover))
    · exact Or.inr (hs ▸ hown h.holds hwrite)
  by_cases ho : m'.isOpen d = true
  · rcases hmove ho with hst | hgo
    · exact hstore.imp_right fun hs => ⟨⟨st', hw', hst ▸ hahead⟩, hd, ho, hs⟩
    · rcases hahead.goes hK hgo with hover | hahead'
      · exact Or.inl (h.over hw hover)
      · exact hstore.imp_right fun hs => ⟨⟨st', hw', hahead'⟩, hd, ho, hs⟩
  · -- A branch that ends has nothing left of the phase.
    obtain ⟨o, hout⟩ := isOpen_eq_false_iff.1 (by simpa using ho)
    obtain ⟨ha, -⟩ := active_of_closing hw.balanced hm h.isOpen hout
    have hst := hc.turn d _ ha
    exact Or.inl (h.over hw (hst ▸ over_of_ofOutcome (hst ▸ hahead)))

/-- **A branch that has ended came to the end of its phase**, and what the writes keep held up to
there. -/
theorem In.arrives (hK : K.Kept body) (hP : K.Stable P) (hown : ∀ {s t}, P s → φ.writes s t → P t)
    (h : φ.In body P d m) {n : Nat} (hend : (m.after body n).isOpen d = false) :
    ∃ i < n, ∃ o, φ.Ends body P d o (m.after body i) := by
  by_contra hnot
  have hin : ∀ i ≤ n, φ.In body P d (m.after body i) := by
    intro i
    induction i with
    | zero => exact fun _ => h
    | succ i ih =>
      intro hi
      have hprev := ih (Nat.le_of_succ_le hi)
      show φ.In body P d ((m.after body i).next body)
      unfold Schedule.next
      cases hm : (m.after body i).step body with
      | none => exact hprev
      | some m' =>
        refine (hprev.step hK hP hown hm).resolve_left fun he => hnot ⟨i, hi, he⟩
  have := (hin n le_rfl).isOpen
  rw [hend] at this
  cases this

/-- What is established behind the end of a phase is established when the branch has ended. -/
theorem In.finishes (hK : K.Kept body) (hP : K.Stable P) (hown : ∀ {s t}, P s → φ.writes s t → P t)
    (h : φ.In body P d m) {Q : Schedule → Prop}
    (hQ : ∀ i o, φ.Ends body P d o (m.after body i) → Finishes body d Q (m.after body i)) :
    Finishes body d Q m := fun _ hend =>
  let ⟨i, hi, o, he⟩ := h.arrives hK hP hown hend
  (hQ i o he).later hi.le hend

/-- Behind its last phase a branch has ended, and what others keep goes on to hold. -/
theorem Ends.last (hK : K.Kept body) (hP : K.Stable P) {o : Except Failure α}
    (h : φ.Ends body P d o m) {x : Except Failure Value} (hx : φ.behind o = Routine.ofOutcome x) :
    Finishes body d (fun m => m.outcome? d = some x ∧ P m.store) m := by
  obtain ⟨st, hw⟩ := h.watches
  have ha := hx ▸ h.active
  obtain ⟨hd, ho, -⟩ := (hw.balanced.take ha).of_held
  set m' := m.finish d x with hm'
  have hm : m.step body = some m' := by
    rw [Schedule.step, ha, hm']
    cases x <;> rfl
  have hout : m'.outcome? d = some x := by rw [hm', m.outcome?_finish _ hd, if_pos rfl]
  obtain ⟨st', hw', -⟩ := hw.step hK hm
  rintro (_ | n) hend
  · cases ho.symm.trans hend
  · have heq : m.after body (n + 1) = m'.after body n := by
      rw [Nat.add_comm, after_add]
      exact congrArg (Schedule.after body · n) (congrArg (Option.getD · m) hm)
    rw [heq]
    exact hw'.closed hK hP hout h.holds n

/-- A routine begins with a phase when it is launched. -/
theorem in_launch {s : Store} {x : Routine α} (hx : x.Meets φ.terms φ.ends s)
    (hall : (x.thenOn φ.behind).Meets (K.termsFor K.bystander) (fun _ _ => True) s) (hs : P s) :
    φ.In body P 0 ((ofStore s).launch (x.thenOn φ.behind)).2 where
  watches := by
    have hconfig := Discipline.Config.launch (g := K.bystander) (r := x.thenOn φ.behind)
      (Discipline.config_ofStore (K.discipline body) (fun _ => K.bystander)
        (fun _ => .turn (x.thenOn φ.behind) s) s) (balanced_ofStore s) hall
    refine ⟨_, ⟨(balanced_ofStore s).launch rfl _, _, hconfig, fun b hb _ hne => ?_⟩, ?_⟩
    · exact absurd (Nat.lt_one_iff.1 hb) hne
    · rw [show (ofStore s).branches.size = 0 from rfl, Function.update_self]
      exact ⟨x, rfl, hx⟩
  begun := Nat.zero_lt_one
  isOpen := rfl
  holds := hs

/-- What comes behind a phase can be a phase itself. -/
theorem Ends.begins {β : Type} {ψ : K.Phase β} {Q : Store → Prop} {o : Except Failure α}
    (h : φ.Ends body P d o m) {x : Routine β} (hx : φ.behind o = x.thenOn ψ.behind)
    (hmeets : x.Meets ψ.terms ψ.ends m.store) (hQ : Q m.store) : ψ.In body Q d m := by
  obtain ⟨st, hw⟩ := h.watches
  obtain ⟨γ, hc, -⟩ := hw.config
  obtain ⟨hb, ho, -⟩ := (hw.balanced.take h.active).of_held
  refine ⟨⟨st, hw, ?_⟩, hb, ho, hQ⟩
  rw [hc.turn d _ h.active]
  exact ⟨x, hx, hmeets⟩

end Phase

end Contract

end Conductor
