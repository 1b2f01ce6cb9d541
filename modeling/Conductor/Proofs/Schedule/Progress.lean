import Conductor.Proofs.Schedule.Lines

/-!
# Steps under a discipline

A step of a schedule is a move of one branch, or it only brings the queue or the clock further. In
the first case the branch comes to a later stage of its own routine or ends, and the branches that it
starts begin where their sort allows it. In the second case no branch is anywhere else than before,
and the jobs and timers have become fewer or lighter.

**Theorem (`Config.step`).** Every step of a schedule keeps all branches in their discipline. What it
does to the store is something that the discipline guarantees.
-/

namespace Conductor

namespace Schedule

namespace Discipline

variable {Γ : Type} {D : Discipline Γ} {γ : Nat → Γ} {st : Nat → Stage Γ} {m m' : Schedule}
  {b : Nat}

/-! ## Progress -/

/-- A branch starts others: they have the sorts of the parts that they run, and rest. -/
inductive Begins (D : Discipline Γ) : Stage Γ → Γ → Stage Γ → Prop where
  | start (k s) {w kind ps p} (h : sides w = some (kind, ps)) (hp : p ∈ ps) :
    Begins D (.turn (.await w k) s) (D.child p) (.rest (D.body p) s)

/-- One branch has moved on or has ended, perhaps with new branches beside it; all others are where
they were. -/
structure Moved (D : Discipline Γ) (γ' : Nat → Γ) (st st' : Nat → Stage Γ) (m m' : Schedule)
    (b : Nat) : Prop where
  begun : b < m.branches.size
  isOpen : m.isOpen b = true
  turn : (∃ r, m.active = some (b, r)) ∨ m.active = none ∧ ∃ r, m'.active = some (b, r)
  others : ∀ d < m.branches.size, m.isOpen d = true → d ≠ b →
    d < m'.branches.size ∧ m'.isOpen d = true ∧ st' d = st d
  own : m'.isOpen b = true → D.Goes (st' b) (st b)
  old : ∀ d < m.branches.size, m'.isOpen d = true → m.isOpen d = true
  born : ∀ d < m'.branches.size, m.branches.size ≤ d → D.Begins (st b) (γ' d) (st' d)

/-- An open branch was open before, or has begun below the stage of the branch that moved. -/
theorem Moved.lower {γ' : Nat → Γ} {st' : Nat → Stage Γ} (h : D.Moved γ' st st' m m' b) {d : Nat}
    (hd : d < m'.branches.size) (ho : m'.isOpen d = true) :
    (d < m.branches.size ∧ m.isOpen d = true) ∨ D.Next (st' d) (st b) := by
  by_cases hlt : d < m.branches.size
  · exact Or.inl ⟨hlt, h.old d hlt ho⟩
  · have hborn := h.born d hd (Nat.le_of_not_lt hlt)
    generalize st b = x, γ' d = g, st' d = y at hborn ⊢
    cases hborn with
    | start k s hw hp => exact Or.inr (.start k s hw hp)

/-- A bound for the steps that are made before a branch moves again. -/
def weightOf : Job → Nat
  | .resume _ | .wake _ => 1
  | .notify .. | .ring _ => 2

def weight (m : Schedule) : Nat := (m.ready.map weightOf).sum + 3 * m.timers.length

/-- What one step leads to: a branch moves, or the jobs and timers become fewer. -/
def Steps (D : Discipline Γ) (γ : Nat → Γ) (st : Nat → Stage Γ) (m m' : Schedule) : Prop :=
  ∃ γ' st', D.Config none γ' st' m' ∧ (∀ d < m.branches.size, γ' d = γ d) ∧
    (m'.store = m.store ∨ D.guarantee m.store m'.store) ∧
    ((∃ b, D.Moved γ' st st' m m' b) ∨
      (m.active = none ∧ m'.active = none ∧ st' = st ∧ m'.branches.size = m.branches.size ∧
        (∀ d, m'.isOpen d = m.isOpen d) ∧ weight m' < weight m))

theorem Steps.move {x : Stage Γ} (hc : D.Config none γ (Function.update st b x) m')
    (hb : b < m.branches.size) (ho : m.isOpen b = true)
    (ht : (∃ r, m.active = some (b, r)) ∨ m.active = none ∧ ∃ r, m'.active = some (b, r))
    (hn : m'.branches.size = m.branches.size)
    (hout : ∀ d ≠ b, m'.outcome? d = m.outcome? d)
    (hx : m'.isOpen b = true → D.Goes x (st b))
    (hs : m'.store = m.store ∨ D.guarantee m.store m'.store) : D.Steps γ st m m' := by
  have hopen : ∀ {d}, d ≠ b → m'.isOpen d = m.isOpen d := fun hd => by
    rw [Schedule.isOpen, hout _ hd, Schedule.isOpen]
  refine ⟨γ, _, hc, fun _ _ => rfl, hs, Or.inl ⟨b, hb, ho, ht, fun d hd hod hne => ?_,
    fun hob => ?_, fun d hd hod => ?_, fun d hd hge => absurd hd (by omega)⟩⟩
  · exact ⟨hn ▸ hd, (hopen hne).trans hod, Function.update_of_ne hne x st⟩
  · rw [Function.update_self]
    exact hx hob
  · by_cases hne : d = b
    · rw [hne]
      exact ho
    · exact (hopen hne).symm.trans hod

theorem Steps.stay (hc : D.Config none γ st m') (ha : m.active = none) (ha' : m'.active = none)
    (hn : m'.branches.size = m.branches.size) (hout : ∀ d, m'.outcome? d = m.outcome? d) (hw : weight m' < weight m)
    (hs : m'.store = m.store ∨ D.guarantee m.store m'.store) : D.Steps γ st m m' :=
  ⟨γ, st, hc, fun _ _ => rfl, hs, Or.inr ⟨ha, ha', rfl, hn, fun d => by
    rw [Schedule.isOpen, hout, Schedule.isOpen], hw⟩⟩

/-! ## The turn of a branch -/

/-- The active branch goes on at once. -/
theorem Config.go (hD : D.Lawful) (h : D.Config none γ st m) (hB : Balanced none m)
    {r r' : Routine Value} (ha : m.active = some (b, r)) {s : Store}
    (hs : s = m.store ∨ D.guarantee m.store s) (hmay : D.may (γ b) (.turn r' s))
    (hnext : D.Goes (.turn r' s) (.turn r m.store)) :
    D.Steps γ st m ((m.idle.withStore s).activate b r') := by
  have hBi := hB.take ha
  obtain ⟨hb, ho, -⟩ := hBi.of_held
  have hrely : D.rely m.store s := by
    rcases hs with rfl | hs
    · exact hD.refl _
    · exact hD.relied hs
  have hc : D.Config (some b) γ st (m.idle.withStore s) := h.take.withStore hD rfl hrely
  refine Steps.move (hc.activate hD (hBi.withStore s) hmay) hb ho (Or.inl ⟨r, ha⟩) rfl
    (fun _ _ => rfl) (fun _ => ?_) hs
  rw [h.turn b r ha]
  exact hnext

theorem Config.startAndJoin (hD : D.Lawful) (h : D.Config none γ st m) (hB : Balanced none m)
    {w : Wait} {k : Outcome → Routine Value} (ha : m.active = some (b, .await w k))
    {kind : JoinKind} {ps : List Procedure} (hw : sides w = some (kind, ps)) :
    D.Steps γ st m (m.idle.startAndJoin D.body b kind ps k) := by
  have hBi := hB.take ha
  obtain ⟨hb, ho, -⟩ := hBi.of_held
  have hst := h.turn b _ ha
  have hmay := h.may b hb ho nofun
  rw [hst] at hmay
  obtain ⟨hchild, hjoin, hskip⟩ := hD.sides hmay hw
  by_cases hps : ps = []
  · subst hps
    exact h.go hD hB ha (Or.inl rfl) (hskip rfl) (.skip _ _ hw)
  · have hsp := h.take.spawnAll hD hBi rfl hchild
    have hBs : Balanced (some b) (m.idle.spawnAll (ps.map D.body)).2 := hBi.spawnAll _
    have hstore : (m.idle.spawnAll (ps.map D.body)).2.store = m.store := by rw [spawnAll_snd]; rfl
    set n := m.branches.size with hn
    set γ' := withNew γ n D.child ps with hγ
    set st' := withNew st n (fun p => .rest (D.body p) m.store) ps with hst'
    have hbs : (List.range' n ps.length).map γ' = ps.map D.child := map_withNew _ _ _ _
    have hb' : γ' b = γ b := withNew_old γ _ ps hb
    have hcj := hsp.joinOn hD hBs kind (List.range' n ps.length) (k := k)
      (by
        show D.may (γ' b) (.joined kind ((List.range' n ps.length).map γ') k _)
        rw [hbs, hb', hstore]
        exact hjoin)
      fun _ d hd => Nat.lt_of_lt_of_le hb (List.mem_range'_1.1 hd).1
    rw [startAndJoin_eq m.idle b kind hps]
    change D.Steps γ st m ((m.idle.spawnAll (ps.map D.body)).2.joinOn b kind
      (List.range' n ps.length) k)
    have hopen : ∀ d, ((m.idle.spawnAll (ps.map D.body)).2.joinOn b kind
        (List.range' n ps.length) k).isOpen d = m.isOpen d := fun d => by
      rw [isOpen_joinOn, isOpen_spawnAll]
      rfl
    have hsize : ((m.idle.spawnAll (ps.map D.body)).2.joinOn b kind
        (List.range' n ps.length) k).branches.size = n + ps.length := by
      rw [size_joinOn, size_spawnAll, List.length_map]
      rfl
    refine ⟨γ', _, hcj, fun d hd => withNew_old γ _ ps hd, Or.inl ((store_watchAll _ _ _).trans
      hstore), Or.inl ⟨b, hb, ho, Or.inl ⟨_, ha⟩, fun d hd hod hne => ⟨?_, ?_, ?_⟩, fun _ => ?_,
      fun d hd hod => (hopen d).symm.trans hod, fun d hd hge => ?_⟩⟩
    · rw [hsize]
      omega
    · rw [hopen]
      exact hod
    · rw [Function.update_of_ne hne]
      exact withNew_old st _ ps hd
    · rw [Function.update_self]
      show D.Goes (.joined kind ((List.range' n ps.length).map γ') k _) _
      rw [hbs, hst, hstore]
      exact .join _ _ hw
    · rw [hsize] at hd
      obtain ⟨i, rfl⟩ : ∃ i, d = n + i := Nat.exists_eq_add_of_le hge
      have hi : i < ps.length := Nat.lt_of_add_lt_add_left hd
      have hne : n + i ≠ b := (Nat.lt_of_lt_of_le hb hge).ne'
      rw [Function.update_of_ne hne]
      show D.Begins (st b) (γ' (n + i)) (st' (n + i))
      rw [hst', hγ, withNew_new _ _ _ hi, withNew_new _ _ _ hi, hst]
      exact .start _ _ hw (List.getElem_mem hi)

theorem Config.advance (hD : D.Lawful) (h : D.Config none γ st m) (hB : Balanced none m)
    {r : Routine Value} (ha : m.active = some (b, r)) :
    D.Steps γ st m (m.idle.advance D.body b r) := by
  have hBi := hB.take ha
  obtain ⟨hb, ho, -⟩ := hBi.of_held
  have hst := h.turn b r ha
  have hmay := h.may b hb ho nofun
  rw [hst] at hmay
  -- A branch that ends.
  have hend : ∀ {o}, D.post (γ b) o m.store → D.Steps γ st m (m.idle.finish b o) := by
    intro o hpost
    have hout := m.idle.outcome?_finish o hb
    refine Steps.move (h.take.finish hD hBi hpost) hb ho (Or.inl ⟨r, ha⟩) (m.idle.size_finish b o)
      (fun d hd => by rw [hout, if_neg hd]; rfl) (fun hopen => ?_) (Or.inl rfl)
    rw [Schedule.isOpen, hout, if_pos rfl] at hopen
    cases hopen
  cases r with
  | done v => exact hend (hD.done hmay)
  | fail f => exact hend (hD.fail hmay)
  | get k => exact h.go hD hB ha (Or.inl rfl) (hD.get hmay) (.get _ _)
  | put s r =>
    obtain ⟨hg, hr⟩ := hD.put hmay
    exact h.go hD hB ha (Or.inr hg) hr (.put _ _ _)
  | await w k =>
    cases w with
    | call p => exact h.go hD hB ha (Or.inl rfl) (hD.call hmay) (.call _ _ _)
    | sleep x =>
      have hc := h.take.sleep hD hBi x (k := k) (hD.sleep hmay)
      have hstore : (m.idle.sleep b x k).store = m.store := by
        unfold Schedule.sleep
        dsimp only
        split <;> rfl
      have hf : Frame b m.idle (m.idle.advance D.body b (.await (.sleep x) k)) :=
        frame_advance hb _
      refine Steps.move hc hb ho (Or.inl ⟨_, ha⟩) ?_ hf.outcome (fun _ => ?_) (Or.inl hstore)
      · show (m.idle.sleep b x k).branches.size = _
        unfold Schedule.sleep
        dsimp only
        split <;> exact m.idle.size_updateBranch b _
      · rw [hst]
        exact .sleep _ _ _
    | all ps => exact h.startAndJoin hD hB ha rfl
    | first ps => exact h.startAndJoin hD hB ha rfl
    | detached =>
      obtain ⟨hjoin, hskip⟩ := hD.detached hmay
      show D.Steps γ st m (m.idle.wait D.body b .detached k)
      unfold Schedule.wait
      dsimp only
      split
      · exact h.go hD hB ha (Or.inl rfl) hskip (.drained _ _)
      · have hc := h.take.joinOn hD hBi .ended m.idle.detached
          (k := fun _ => .await .detached k) (hjoin _) fun hne => absurd rfl hne
        refine Steps.move hc hb ho (Or.inl ⟨_, ha⟩) (size_joinOn _ _ _ _ _)
          (fun d _ => outcome?_joinOn _ _ _ _ _ d) (fun _ => ?_) (Or.inl (store_watchAll _ _ _))
        rw [hst]
        exact .drain _ _ _

/-! ## Jobs -/

/-- What a join comes to is explained by how its branches have ended. -/
theorem Config.explains_all (h : D.Config none γ st m) {j : Nat}
    (hok : ∀ d ∈ (m.join j).branches, ∃ v, m.outcome? d = some (.ok v)) :
    D.Explains .all ((m.join j).branches.map γ) (.ok (m.resultsOf (m.join j).branches))
      m.store := by
  show List.Forall₂ _ _ ((m.join j).branches.map _)
  rw [List.forall₂_map_left_iff, List.forall₂_map_right_iff, List.forall₂_same]
  intro d hd
  obtain ⟨v, hv⟩ := hok d hd
  rw [hv]
  exact h.ended d _ hv

theorem Config.explains_first (h : D.Config none γ st m) {bs : List Nat}
    (hc : ∃ d ∈ bs, m.isOpen d = false) : D.Explains .first (bs.map γ) (m.winner bs) m.store := by
  obtain ⟨d, hd, hc⟩ := hc
  obtain ⟨o, ho⟩ := isOpen_eq_false_iff.1 hc
  have hsome : (bs.findSome? m.outcome?).isSome = true :=
    List.findSome?_isSome_iff.2 ⟨d, hd, by rw [ho]; rfl⟩
  obtain ⟨x, hx⟩ := Option.isSome_iff_exists.1 hsome
  obtain ⟨e, he, hxe⟩ := List.exists_of_findSome?_eq_some hx
  refine ⟨γ e, List.mem_map_of_mem he, x, h.ended e x hxe, ?_⟩
  unfold winner
  rw [hx]
  cases x <;> rfl

theorem Config.wake (hD : D.Lawful) (h : D.Config none γ st m) (hB : Balanced none m)
    (ha : m.active = none) {j : Nat} {rest : List Job} (hr : m.ready = .wake j :: rest) :
    D.Steps γ st m ((m.withReady rest).wake j) := by
  have hmem : .wake j ∈ m.ready := by rw [hr]; exact List.mem_cons_self
  obtain ⟨hj, hsettled⟩ := hB.waking j hmem
  have hp : Balanced (some (m.join j).owner) (m.withReady rest) :=
    hB.pop hr (fun _ => rfl) (fun _ _ => nofun)
  obtain ⟨hb, ho, -⟩ := hp.of_held
  obtain ⟨s, hs, hst⟩ := h.joined j hj (Or.inr hmem)
  have hmay := h.may _ hb ho nofun
  rw [hst] at hmay
  have hc : D.Config (some (m.join j).owner) γ st (m.withReady rest) := h.pop hr _
  -- The owner goes on, with or without branches that are left behind.
  have hgo : ∀ {k : Schedule} {o : Outcome}, D.Config (some (m.join j).owner) γ st k →
      Balanced (some (m.join j).owner) k → k.store = m.store →
      k.branches.size = m.branches.size → (∀ d, k.outcome? d = m.outcome? d) →
      D.Explains (m.join j).kind ((m.join j).branches.map γ) o m.store →
      D.Steps γ st m (k.activate (m.join j).owner ((m.branch (m.join j).owner).resume o)) := by
    intro k o hck hBk hks hkn hko hex
    have hturn := hD.goOn hmay hs hex
    refine Steps.move (hck.activate hD hBk (hks.symm ▸ hturn)) hb ho (Or.inr ⟨ha, _, rfl⟩) hkn
      (fun d _ => hko d) (fun _ => ?_) (Or.inl hks)
    rw [hst, hks]
    exact .goOn _ hs hex
  have hgo₁ : ∀ {o : Outcome}, D.Explains (m.join j).kind ((m.join j).branches.map γ) o m.store →
      D.Steps γ st m ((m.withReady rest).activate (m.join j).owner
        ((m.branch (m.join j).owner).resume o)) := fun hex =>
    hgo hc hp rfl rfl (fun _ => rfl) hex
  have hgo₂ : ∀ {o : Outcome}, D.Explains (m.join j).kind ((m.join j).branches.map γ) o m.store →
      D.Steps γ st m (((m.withReady rest).detachOpen (m.join j).branches).activate
        (m.join j).owner ((m.branch (m.join j).owner).resume o)) := by
    intro o hex
    have hd : Balanced (some (m.join j).owner)
        ((m.withReady rest).detachOpen (m.join j).branches) := hp.detachOpen (hB.branches j hj)
    have hk := kept_detachOpen (m.withReady rest) (m.join j).branches 0 (.ok [])
    have hstore : ((m.withReady rest).detachOpen (m.join j).branches).store = m.store := by
      rw [detachOpen_eq]
      exact store_watchAll _ _ _
    have hready : ∀ {job : Job}, (∀ d n, job ≠ .notify d n) →
        job ∈ ((m.withReady rest).detachOpen (m.join j).branches).ready → job ∈ rest := by
      intro job hjob hmem
      rw [detachOpen_eq] at hmem
      change job ∈ ((m.withReady rest).watchAll .forget _).ready at hmem
      rw [ready_watchAll] at hmem
      exact mem_of_mem_append_notify hjob hmem
    have htimers : ((m.withReady rest).detachOpen (m.join j).branches).timers = m.timers := by
      rw [detachOpen_eq]
      exact timers_watchAll _ _ _
    have hjoin : ∀ i, ((m.withReady rest).detachOpen (m.join j).branches).join i = m.join i :=
      fun i => by simp only [join, joins_detachOpen]; rfl
    refine hgo (hc.congr hstore hk.size hk.outcome hk.resume (active_detachOpen _ _) (fun d hd => ?_)
      (by rw [joins_detachOpen]) (fun i => by rw [hjoin]; rfl) (fun i => by rw [hjoin]; rfl)
      (fun i => by rw [hjoin]; rfl) fun i hl => ?_) hd hstore hk.size hk.outcome hex
    · rcases hd with hd | hd | hd
      · exact Or.inl (hready (by simp) hd)
      · exact Or.inr (Or.inl (hready (by simp) hd))
      · rw [htimers] at hd
        exact Or.inr (Or.inr hd)
    · rcases hl with hl | hl
      · rw [hjoin] at hl
        exact Or.inl hl
      · exact Or.inr (hready (by simp) hl)
  unfold Schedule.wake
  dsimp only
  split
  · next hk => exact hgo₁ (by rw [show (m.join j).kind = .ended from hk]; rfl)
  · next hk =>
    refine hgo₂ ?_
    rw [show (m.join j).kind = .first from hk]
    exact h.explains_first (hB.decided j hj hk hsettled)
  · next hk =>
    split
    · next hf =>
      refine hgo₁ ?_
      rw [show (m.join j).kind = .all from hk]
      exact h.explains_all (hB.succeeded j hj hk hsettled hf)
    · next f hf =>
      obtain ⟨d, hd, hfd⟩ := hB.failed j hj f hf
      have hex : D.Explains (m.join j).kind ((m.join j).branches.map γ) (.error f) m.store := by
        rw [show (m.join j).kind = .all from hk]
        exact ⟨γ d, List.mem_map_of_mem hd, h.ended d _ hfd⟩
      split
      · exact hgo₂ hex
      · exact hgo₁ hex

theorem weight_pop {job : Job} {rest : List Job} (hr : m.ready = job :: rest) :
    weight m = weight (m.withReady rest) + weightOf job := by
  unfold weight
  rw [hr]
  show ((job :: rest).map weightOf).sum + _ = (rest.map weightOf).sum + _ + _
  rw [List.map_cons, List.sum_cons]
  show _ + 3 * m.timers.length = _ + 3 * m.timers.length + _
  omega

theorem Config.doJob (hD : D.Lawful) (h : D.Config none γ st m) (hB : Balanced none m)
    (ha : m.active = none) {job : Job} {rest : List Job} (hr : m.ready = job :: rest) :
    D.Steps γ st m ((m.withReady rest).doJob job) := by
  have hmem : job ∈ m.ready := by rw [hr]; exact List.mem_cons_self
  have hpop := weight_pop hr
  cases job with
  | resume b =>
    have hp : Balanced (some b) (m.withReady rest) := hB.pop hr (fun _ => rfl) (fun _ _ => nofun)
    obtain ⟨hb, ho, -⟩ := hp.of_held
    obtain ⟨s, hs, hst⟩ := h.rest b (Or.inl hmem)
    have hmay := h.may b hb ho nofun
    rw [hst] at hmay
    refine Steps.move ((h.pop hr (some b)).activate hD hp (hD.resume hmay hs)) hb ho
      (Or.inr ⟨ha, _, rfl⟩) rfl (fun _ _ => rfl) (fun _ => ?_) (Or.inl rfl)
    rw [hst]
    exact .resume _ hs
  | ring b =>
    have hlive : ∀ j, .wake j ∈ ((m.withReady rest).enqueue (.resume b)).ready → .wake j ∈ m.ready := by
      intro j hj
      rw [hr]
      rcases List.mem_append.1 hj with hj | hj
      · exact List.mem_cons_of_mem _ hj
      · cases List.mem_singleton.1 hj
    have hrest : ∀ d, ((m.withReady rest).enqueue (.resume b)).Resting d → m.Resting d := by
      intro d hd
      rcases hd with hd | hd | hd
      · rcases List.mem_append.1 hd with hd | hd
        · exact Or.inl (by rw [hr]; exact List.mem_cons_of_mem _ hd)
        · cases List.mem_singleton.1 hd
          exact Or.inr (Or.inl hmem)
      · rcases List.mem_append.1 hd with hd | hd
        · exact Or.inr (Or.inl (by rw [hr]; exact List.mem_cons_of_mem _ hd))
        · cases List.mem_singleton.1 hd
      · exact Or.inr (Or.inr hd)
    have hc : D.Config none γ st ((m.withReady rest).enqueue (.resume b)) :=
      h.congr rfl rfl (fun _ => rfl) (fun _ => rfl) rfl hrest rfl (fun _ => rfl) (fun _ => rfl)
        (fun _ => rfl) fun j hl => hl.imp_right (hlive j)
    refine Steps.stay hc ha ha rfl (fun _ => rfl) ?_ (Or.inl rfl)
    show weight ((m.withReady rest).enqueue (.resume b)) < _
    rw [hpop]
    simp [weight, enqueue, weightOf, withReady]
    omega
  | wake j => exact h.wake hD hB ha hr
  | notify b n =>
    cases n with
    | count j =>
      obtain ⟨hj, -⟩ := (hB.noticed b (.count j) hmem).2 j rfl
      obtain ⟨s, e, jobs, heq, hd⟩ := hB.count_cases hr
      have hjobs : ∀ job ∈ jobs, ∃ i, job = .wake i := by
        intro job hjob
        rw [hd.jobs] at hjob
        split at hjob
        · exact ⟨j, List.mem_singleton.1 hjob⟩
        · cases hjob
      have hrest : ∀ d, (m.recount rest j s e jobs).Resting d → m.Resting d := by
        have hready : ∀ {job : Job}, (∀ i, job ≠ .wake i) →
            job ∈ (m.recount rest j s e jobs).ready → job ∈ m.ready := by
          intro job hne hjob
          rw [hr]
          rcases List.mem_append.1 hjob with hjob | hjob
          · exact List.mem_cons_of_mem _ hjob
          · obtain ⟨i, hi⟩ := hjobs job hjob
            exact absurd hi (hne i)
        intro d hd
        exact hd.imp (hready (by simp)) (Or.imp_left (hready (by simp)))
      show D.Steps γ st m ((m.withReady rest).count j b)
      rw [heq]
      refine Steps.stay (h.congr rfl rfl (fun _ => rfl) (fun _ => rfl) rfl hrest size_recount
        kind_recount owner_recount branches_recount fun i => (live_recount hj hr hd i).1) ha ha rfl
        (fun _ => rfl) ?_ (Or.inl rfl)
      have hsum : (jobs.map weightOf).sum ≤ 1 := by
        rw [hd.jobs]
        split <;> simp [weightOf]
      have hw : weight (m.recount rest j s e jobs) =
          weight (m.withReady rest) + (jobs.map weightOf).sum := by
        simp [weight, recount, enqueueAll, updateJoin, withReady]
        omega
      rw [hw, hpop, weightOf]
      omega
    | forget =>
      have hk := kept_doJob (m := m.withReady rest) ha (.notify b .forget)
      have hready : ((m.withReady rest).forget b).ready = rest := ready_forget _ _
      have hjoin : ∀ i, ((m.withReady rest).forget b).join i = m.join i := fun i => by
        simp only [join, joins_forget]
        rfl
      have htimers := timers_forget (m.withReady rest) b
      have hstore := store_forget_cases (m.withReady rest) b
      have hs : ((m.withReady rest).forget b).store = m.store ∨
          D.guarantee m.store ((m.withReady rest).forget b).store := by
        rcases hstore with hs | ⟨f, hs⟩
        · exact Or.inl hs
        · rw [hs]
          exact Or.inr (hD.late _ f)
      have hrely : D.rely m.store ((m.withReady rest).forget b).store := by
        rcases hs with hs | hs
        · rw [hs]
          exact hD.refl _
        · exact hD.relied hs
      have hc : D.Config none γ st ((m.withReady rest).forget b) :=
        ((h.pop hr none).withStore hD ha hrely).congr rfl hk.size hk.outcome hk.resume
          (active_forget _ _) (fun d hd => by rwa [Resting, hready, htimers] at hd)
          (by rw [joins_forget]; rfl) (fun i => by rw [hjoin]; rfl) (fun i => by rw [hjoin]; rfl)
          (fun i => by rw [hjoin]; rfl) fun i hl => by rwa [Live, hjoin, hready] at hl
      refine Steps.stay hc ha ((active_forget _ _).trans ha) hk.size hk.outcome ?_ hs
      have hw : weight ((m.withReady rest).forget b) = weight (m.withReady rest) := by
        rw [weight, weight, hready, htimers]
        rfl
      show weight ((m.withReady rest).forget b) < _
      rw [hw, hpop, weightOf]
      omega

/-! ## Time -/

theorem lt_irrefl (x : Binary64) : x.lt x = false := by
  unfold Binary64.lt
  split
  · next a b ha hb =>
    cases ha.symm.trans hb
    exact decide_eq_false (Int.lt_irrefl a)
  · rfl

/-- Some timer is due at the earliest time. -/
theorem exists_of_earliest {d : Binary64} : ∀ {ts : List Timer}, earliest ts = some d →
    ∃ t ∈ ts, t.due = d
  | t :: ts, h => by
    unfold earliest at h
    split at h
    · exact ⟨t, List.mem_cons_self, Option.some.inj h⟩
    · next e he =>
      obtain ⟨t', ht', rfl⟩ := exists_of_earliest he
      have hd : t.due.min t'.due = d := Option.some.inj h
      unfold Binary64.min at hd
      split at hd
      · exact ⟨t', List.mem_cons_of_mem _ ht', hd⟩
      · exact ⟨t, List.mem_cons_self, hd⟩

theorem Config.jump (hD : D.Lawful) (h : D.Config none γ st m) (ha : m.active = none)
    (hr : m.ready = []) (hm : m.jump = some m') : D.Steps γ st m m' := by
  unfold Schedule.jump at hm
  split at hm
  · cases hm
  · next x hx =>
    cases hm
    have hg := hD.clock m.store x
    have hc := h.withStore hD ha (hD.relied hg)
    refine Steps.stay (hc.congr rfl rfl (fun _ => rfl) (fun _ => rfl) rfl (fun d hd => ?_) rfl
      (fun _ => rfl) (fun _ => rfl) (fun _ => rfl) fun i hl => ?_) ha ha rfl (fun _ => rfl) ?_
      (Or.inr hg)
    · rcases hd with hd | hd | ⟨t, ht, hd⟩
      · simp at hd
      · obtain ⟨t, ht, heq⟩ := List.mem_map.1 hd
        cases heq
        exact Or.inr (Or.inr ⟨t, (List.mem_filter.1 ht).1, rfl⟩)
      · exact Or.inr (Or.inr ⟨t, (List.mem_filter.1 ht).1, hd⟩)
    · rcases hl with hl | hl
      · exact Or.inl hl
      · simp at hl
    · obtain ⟨t, ht, hd⟩ := exists_of_earliest hx
      have hdue : t ∈ m.timers.filter fun t => !x.lt t.due :=
        List.mem_filter.2 ⟨ht, by rw [hd, lt_irrefl]; rfl⟩
      have hpos := List.length_pos_of_mem hdue
      have hsum := List.length_eq_length_filter_add (l := m.timers) fun t => !x.lt t.due
      simp only [Bool.not_not] at hsum
      have hring : ∀ ts : List Timer, ((ts.map fun t => Job.ring t.branch).map weightOf).sum =
          2 * ts.length := fun ts => by
        rw [List.map_map]
        show (ts.map fun _ => 2).sum = _
        simp [Nat.mul_comm]
      show ((List.map _ _).map weightOf).sum + _ < _
      rw [hring, weight, hr]
      simp only [List.map_nil, List.sum_nil]
      omega

/-! ## Steps -/

/-- **Every step keeps all branches in their discipline.** -/
theorem Config.step (hD : D.Lawful) (h : D.Config none γ st m) (hB : Balanced none m)
    (hm : m.step D.body = some m') : D.Steps γ st m m' := by
  rcases step_cases hm with ⟨b, r, ha, rfl⟩ | ⟨job, rest, ha, hr, rfl⟩ | ⟨ha, hr, hm⟩
  · rw [advance_idle]
    exact h.advance hD hB ha
  · exact h.doJob hD hB ha hr
  · exact h.jump hD ha hr hm

theorem config_ofStore (D : Discipline Γ) (γ : Nat → Γ) (st : Nat → Stage Γ) (s : Store) :
    D.Config none γ st (ofStore s) := by
  refine ⟨fun b hb => absurd hb (Nat.not_lt_zero b), nofun, fun b hb => ?_,
    fun j hj => absurd hj (Nat.not_lt_zero j), fun b o ho => ?_,
    fun j hj => absurd hj (Nat.not_lt_zero j)⟩
  · rcases hb with hb | hb | ⟨t, ht, -⟩
    · cases hb
    · cases hb
    · cases ht
  · rw [outcome?_of_size_le (m := ofStore s) (Nat.zero_le b)] at ho
    cases ho

end Discipline

end Schedule

end Conductor
