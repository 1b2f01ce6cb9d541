import Conductor.Proofs.Schedule.Quiet

/-!
# Every branch has an owner, or is listed as detached

A branch that was started for a join belongs to that join for good. As long as the join is *live*,
its owner still waits for the branch. A join stops being live when its owner goes on, and then those
of its branches that are still open are put on the list of detached ones. So an open branch is
always in one of two places: its join is live, or it is on the list.

The list itself is kept by notices: for every branch on it exactly one notice that strikes it off is
on its way.

Main results: `Owned.step`, every step keeps this order; `Owned.awaited`, no open branch is without
an owner unless it is listed; and `Owned.all_closed`, when all top-level branches have ended and the
list is empty, every branch has ended.
-/

namespace Conductor

namespace Schedule

variable {m : Schedule} {tops : List Nat} {ever : Set Nat} {b : Nat}
  {body : Procedure → Routine Value}

/-- A join whose owner has not gone on yet. -/
def Live (m : Schedule) (j : Nat) : Prop := (m.join j).settled = false ∨ .wake j ∈ m.ready

/-- Every branch that is not a top-level one belongs to one join; the open branches of a join that
is no longer live are listed as detached, each of them once. `ever` are the branches that have been
on the list at any time. -/
structure Owned (tops : List Nat) (ever : Set Nat) (m : Schedule) : Prop where
  parent : ∀ b < m.branches.size, b ∉ tops →
    ∃ j < m.joins.size, (m.join j).kind ≠ .ended ∧ b ∈ (m.join j).branches
  unique : ∀ j < m.joins.size, ∀ i < m.joins.size, (m.join j).kind ≠ .ended →
    (m.join i).kind ≠ .ended → ∀ b ∈ (m.join j).branches, b ∈ (m.join i).branches → j = i
  below : ∀ j < m.joins.size, (m.join j).kind ≠ .ended → ∀ b ∈ (m.join j).branches,
    (m.join j).owner < b
  distinct : ∀ j < m.joins.size, (m.join j).kind ≠ .ended → (m.join j).branches.Nodup
  kept : ∀ j < m.joins.size, (m.join j).kind ≠ .ended → ¬m.Live j → ∀ b ∈ (m.join j).branches,
    m.isOpen b = true → b ∈ m.detached
  unlisted : ∀ j < m.joins.size, (m.join j).kind ≠ .ended → m.Live j →
    ∀ b ∈ (m.join j).branches, b ∉ ever
  known : ∀ b ∈ m.detached, b ∈ ever
  begun : ∀ b ∈ ever, b < m.branches.size
  listed : m.detached.Nodup
  struck : ∀ b, m.owed (isForgetOf b) = m.detached.count b

/-! ## Owners -/

theorem Owned.transfer {m' : Schedule} (h : Owned tops ever m)
    (hs : m'.branches.size = m.branches.size)
    (ho : ∀ b, m'.isOpen b = true → m.isOpen b = true) (hj : m'.joins.size = m.joins.size)
    (hk : ∀ j, (m'.join j).kind = (m.join j).kind)
    (hw : ∀ j, (m'.join j).owner = (m.join j).owner)
    (hb : ∀ j, (m'.join j).branches = (m.join j).branches)
    (hl : ∀ j, m'.Live j ↔ m.Live j) (hd : m'.detached = m.detached)
    (he : ∀ b, m'.owed (isForgetOf b) = m.owed (isForgetOf b)) : Owned tops ever m' := by
  constructor
  case kept =>
    intro j hjs hkind hlive b hmem hopen
    rw [hb] at hmem
    rw [hd]
    exact h.kept j (hj ▸ hjs) (hk j ▸ hkind) (fun hl' => hlive ((hl j).2 hl')) b hmem (ho b hopen)
  all_goals simp only [hs, hj, hk, hw, hb, hl, hd, he]
  exacts [h.parent, h.unique, h.below, h.distinct, h.unlisted, h.known, h.begun, h.listed,
    h.struck]

/-- Branches may end and the queue may change, as long as who is woken and what is struck off stays
the same. -/
theorem Owned.of_joins {m' : Schedule} (h : Owned tops ever m) (hs : m'.branches.size = m.branches.size)
    (ho : ∀ b, m'.isOpen b = true → m.isOpen b = true) (hj : m'.joins = m.joins)
    (hw : ∀ j, .wake j ∈ m'.ready ↔ .wake j ∈ m.ready) (hd : m'.detached = m.detached)
    (he : ∀ b, m'.owed (isForgetOf b) = m.owed (isForgetOf b)) : Owned tops ever m' := by
  have hjoin : ∀ j, m'.join j = m.join j := fun j => by simp only [join, hj]
  exact h.transfer hs ho (by rw [hj]) (fun j => by rw [hjoin]) (fun j => by rw [hjoin])
    (fun j => by rw [hjoin]) (fun j => by rw [Live, Live, hjoin, hw]) hd he

theorem Owned.congr {m' : Schedule} (h : Owned tops ever m) (hb : m'.branches = m.branches)
    (hj : m'.joins = m.joins) (hr : m'.ready = m.ready) (hd : m'.detached = m.detached) :
    Owned tops ever m' := by
  have hbranch : ∀ b, m'.branch b = m.branch b := fun b => by simp only [branch, hb]
  refine h.of_joins (by rw [hb]) (fun b => ?_) hj (fun j => by rw [hr]) hd fun b => ?_
  · rw [isOpen, isOpen, outcome?, outcome?, hbranch]
    exact id
  · exact owed_congr hr (by rw [hb]) (fun b => by rw [hbranch]) _

theorem Owned.finish (h : Owned tops ever m) (hb : b < m.branches.size) (o : Except Failure Value) :
    Owned tops ever (m.finish b o) := by
  refine h.of_joins (m.size_finish b o) (fun b' ho => ?_) rfl (fun j => ?_) rfl
    fun b' => m.owed_finish o hb _
  · rw [isOpen, m.outcome?_finish o hb] at ho
    split at ho
    · cases ho
    · exact ho
  · rw [ready_finish, List.mem_append, or_iff_left]
    simp

theorem Owned.suspend (h : Owned tops ever m) (b : Nat) (resume : Outcome → Routine Value) :
    Owned tops ever (m.suspend b resume) := by
  have hout := branch_updateBranch_eq Branch.outcome? (fun x => { x with resume }) (fun _ => rfl)
    m b
  refine h.of_joins (m.size_updateBranch b _) (fun b' ho => ?_) rfl (fun j => Iff.rfl) rfl
    fun b' => m.owed_suspend b resume _
  rw [isOpen] at ho ⊢
  exact (congrArg Option.isNone (hout b')).symm.trans ho

/-- A job that neither wakes nor strikes off comes into the queue. -/
theorem Owned.enqueue (h : Owned tops ever m) {job : Job} (hw : ∀ j, job ≠ .wake j)
    (hf : ∀ b, isForgetOf b job = false) : Owned tops ever (m.enqueue job) := by
  refine h.of_joins rfl (fun _ => id) rfl (fun j => ?_) rfl fun b => ?_
  · rw [Schedule.enqueue, List.mem_append, List.mem_singleton, or_iff_left (hw j).symm]
  · rw [owed_enqueue, hf, if_neg Bool.false_ne_true, Nat.add_zero]

/-- A job that neither wakes nor strikes off is taken from the queue. -/
theorem Owned.pop (h : Owned tops ever m) {job : Job} {rest : List Job} (hr : m.ready = job :: rest)
    (hw : ∀ j, job ≠ .wake j) (hf : ∀ b, isForgetOf b job = false) :
    Owned tops ever (m.withReady rest) := by
  refine h.of_joins rfl (fun _ => id) rfl (fun j => ?_) rfl fun b => ?_
  · rw [hr, List.mem_cons, or_iff_right (hw j).symm]
    rfl
  · rw [m.owed_cons hr, hf, if_neg Bool.false_ne_true, Nat.add_zero]
    rfl

theorem Owned.jump {m' : Schedule} (h : Owned tops ever m) (hr : m.ready = [])
    (hm : m.jump = some m') : Owned tops ever m' := by
  obtain ⟨hb, hj, hd, -, ts, hr'⟩ := jump_eq hm
  have hbranch : ∀ b, m'.branch b = m.branch b := fun b => by simp only [branch, hb]
  refine h.of_joins (by rw [hb]) (fun b => ?_) hj (fun j => ?_) hd fun b => ?_
  · rw [isOpen, isOpen, outcome?, outcome?, hbranch]
    exact id
  · rw [hr, hr']
    simp
  · have hz : (ts.map fun t => Job.ring t.branch).countP (isForgetOf b) = 0 := by
      rw [List.countP_map]
      exact List.countP_eq_zero.2 fun t _ => by simp [isForgetOf]
    simp only [owed, hb, hbranch, hr, hr', hz, List.countP_nil]

/-! ## Counting and striking off -/

/-- A join that settles stays live until its owner goes on. -/
theorem live_recount {j : Nat} {rest : List Job} {s : Bool} {e : Option Failure} {jobs : List Job}
    (hj : j < m.joins.size) (hr : m.ready = .notify b (.count j) :: rest)
    (hd : Decision m b j s e jobs) (i : Nat) : (m.recount rest j s e jobs).Live i ↔ m.Live i := by
  have hready : .wake i ∈ (m.recount rest j s e jobs).ready ↔ .wake i ∈ m.ready ∨ .wake i ∈ jobs := by
    show _ ∈ rest ++ jobs ↔ _
    rw [List.mem_append, hr]
    simp
  rw [Live, Live, hready, join_recount hj, hd.jobs]
  by_cases hi : i = j
  · subst hi
    rw [if_pos rfl]
    show s = false ∨ _ ↔ _
    cases hs : (m.join i).settled with
    | true => simp [(hd.kept hs).1]
    | false => cases s <;> simp
  · rw [if_neg hi]
    split <;> simp [hi]

theorem Owned.count {j : Nat} {rest : List Job} (h : Owned tops ever m) (hB : Balanced none m)
    (hr : m.ready = .notify b (.count j) :: rest) :
    Owned tops ever ((m.withReady rest).count j b) := by
  obtain ⟨hj, -⟩ := (hB.noticed b (.count j) (by rw [hr]; exact List.mem_cons_self)).2 j rfl
  obtain ⟨s, e, jobs, heq, hd⟩ := hB.count_cases hr
  rw [heq]
  refine h.transfer rfl (fun _ => id) size_recount kind_recount owner_recount branches_recount
    (live_recount hj hr hd) rfl fun b' => ?_
  have hjobs : jobs.countP (isForgetOf b') = 0 := by
    rw [hd.jobs]
    split <;> simp [isForgetOf]
  have h₁ := m.owed_cons hr (isForgetOf b')
  have h₂ := ((m.withReady rest).updateJoin j (recounted s e)).owed_enqueueAll jobs (isForgetOf b')
  rw [hjobs, Nat.add_zero] at h₂
  rw [if_neg (by simp [isForgetOf]), Nat.add_zero] at h₁
  exact h₂.trans h₁.symm

/-- A branch is struck off by the only notice that does so. -/
theorem Owned.forget {rest : List Job} (h : Owned tops ever m) (hB : Balanced none m)
    (hr : m.ready = .notify b .forget :: rest) : Owned tops ever ((m.withReady rest).forget b) := by
  obtain ⟨hclosed, -⟩ := hB.noticed b .forget (by rw [hr]; exact List.mem_cons_self)
  have hbranch : ∀ b', ((m.withReady rest).forget b).branch b' = m.branch b' := fun b' => by
    rw [branch, branches_forget]
    rfl
  have hopen : ∀ b', ((m.withReady rest).forget b).isOpen b' = m.isOpen b' := fun b' => by
    rw [isOpen, outcome?, hbranch]
    rfl
  have hjoin : ∀ j, ((m.withReady rest).forget b).join j = m.join j := fun j => by
    rw [join, joins_forget]
    rfl
  have hlive : ∀ j, ((m.withReady rest).forget b).Live j ↔ m.Live j := fun j => by
    rw [Live, Live, hjoin, ready_forget, hr]
    simp [Schedule.withReady]
  have howed : ∀ b', ((m.withReady rest).forget b).owed (isForgetOf b') +
      (if b = b' then 1 else 0) = m.owed (isForgetOf b') := fun b' => by
    rw [m.owed_cons hr]
    simp only [isForgetOf, beq_iff_eq, Nat.add_right_cancel_iff]
    exact owed_congr (m := m.withReady rest) (ready_forget _ _) (by rw [branches_forget])
      (fun b' => congrArg Branch.notices (hbranch b')) _
  constructor
  case kept =>
    intro j hj hk hl b' hb' ho
    rw [hjoin] at hk hb'
    rw [joins_forget] at hj
    rw [hlive] at hl
    rw [hopen] at ho
    rw [detached_forget]
    refine List.mem_filter.2 ⟨h.kept j hj hk hl b' hb' ho, ?_⟩
    have hne : b' ≠ b := fun heq => by
      rw [heq, hclosed] at ho
      cases ho
    simpa using hne
  case unlisted =>
    intro j hj hk hl b' hb'
    rw [hjoin] at hk hb'
    rw [joins_forget] at hj
    rw [hlive] at hl
    exact h.unlisted j hj hk hl b' hb'
  case known =>
    intro b' hb'
    rw [detached_forget] at hb'
    exact h.known b' (List.mem_filter.1 hb').1
  case listed =>
    rw [detached_forget]
    exact h.listed.filter _
  case struck =>
    intro b'
    have h₁ := howed b'
    have h₂ := h.struck b'
    rw [detached_forget]
    change _ = (m.detached.filter (· != b)).count b'
    by_cases heq : b' = b
    · subst heq
      rw [List.count_eq_zero_of_not_mem (by simp)]
      have := List.nodup_iff_count_le_one.1 h.listed b'
      rw [if_pos rfl] at h₁
      omega
    · rw [List.count_filter (by simpa using heq), ← h₂, ← h₁, if_neg (Ne.symm heq), Nat.add_zero]
  all_goals simp only [joins_forget, branches_forget, hjoin]
  exacts [h.parent, h.unique, h.below, h.distinct, h.begun]

/-! ## Going on behind a join -/

/-- Nobody is woken twice. -/
theorem Balanced.wake_once {j : Nat} {rest : List Job} (hB : Balanced none m)
    (hr : m.ready = .wake j :: rest) : .wake j ∉ rest := by
  intro hmem
  have hw : .wake j ∈ m.ready := by rw [hr]; exact List.mem_cons_self
  have hone := (hB.of_pos (b := (m.join j).owner) (Nat.add_pos_left (prospects_pos_of_wake hw) _)).2.2
  have hl : m.lets (m.join j).owner (.wake j) = true := by simp [lets]
  have h₁ := List.countP_pos_iff.2 ⟨_, hmem, hl⟩
  have h₂ : m.ready.countP (m.lets (m.join j).owner) = rest.countP (m.lets (m.join j).owner) + 1 := by
    rw [hr, List.countP_cons_of_pos hl]
  rw [Schedule.prospects] at hone
  omega

/-- The owner of a join goes on, and leaves some branches behind, among them all open ones. -/
def leave (m : Schedule) (rest : List Job) (ds : List Nat) : Schedule :=
  ((m.withReady rest).watchAll .forget ds).withDetached (m.detached ++ ds)

theorem live_leave {j : Nat} {rest : List Job} (hB : Balanced none m)
    (hr : m.ready = .wake j :: rest) (ds : List Nat) (i : Nat) :
    (m.leave rest ds).Live i ↔ m.Live i ∧ i ≠ j := by
  have hs := (hB.waking j (by rw [hr]; exact List.mem_cons_self)).2
  have hjoin : (m.leave rest ds).join i = m.join i := by
    show ((m.withReady rest).watchAll .forget ds).joins.getD i default = _
    rw [joins_watchAll]
    rfl
  have hready : .wake i ∈ (m.leave rest ds).ready ↔ .wake i ∈ rest := by
    show _ ∈ ((m.withReady rest).watchAll .forget ds).ready ↔ _
    rw [ready_watchAll, List.mem_append, or_iff_left (by simp)]
    rfl
  rw [Live, Live, hjoin, hready, hr]
  by_cases hi : i = j
  · subst hi
    simp [hs, hB.wake_once hr]
  · simp [hi]

theorem Owned.leave {j : Nat} {rest : List Job} (h : Owned tops ever m) (hB : Balanced none m)
    (hr : m.ready = .wake j :: rest) {ds : List Nat} (hlt : ∀ b ∈ ds, b < m.branches.size)
    (hopen : (m.join j).kind ≠ .ended → ∀ b ∈ (m.join j).branches, m.isOpen b = true → b ∈ ds)
    (hds : ∀ b ∈ ds, (m.join j).kind ≠ .ended ∧ b ∈ (m.join j).branches) (hnodup : ds.Nodup) :
    Owned tops (ever ∪ {b | b ∈ (m.leave rest ds).detached}) (m.leave rest ds) := by
  have hw : .wake j ∈ m.ready := by rw [hr]; exact List.mem_cons_self
  obtain ⟨hj, -⟩ := hB.waking j hw
  have hjoins : (m.leave rest ds).joins = m.joins := joins_watchAll _ _ _
  have hjoin : ∀ i, (m.leave rest ds).join i = m.join i := fun i => by rw [join, hjoins]; rfl
  have hsize : (m.leave rest ds).branches.size = m.branches.size := size_watchAll _ _ _
  have hout : ∀ b, (m.leave rest ds).isOpen b = m.isOpen b := fun b => isOpen_watchAll _ _ _ b
  have hlive := live_leave hB hr ds
  constructor
  case kept =>
    intro i hi hk hl b hb ho
    rw [hjoins] at hi
    rw [hjoin] at hk hb
    rw [hlive] at hl
    rw [hout] at ho
    show b ∈ m.detached ++ ds
    rw [List.mem_append]
    by_cases hij : i = j
    · subst hij
      exact Or.inr (hopen hk b hb ho)
    · exact Or.inl (h.kept i hi hk (fun hl' => hl ⟨hl', hij⟩) b hb ho)
  case unlisted =>
    intro i hi hk hl b hb hmem
    rw [hjoins] at hi
    rw [hjoin] at hk hb
    obtain ⟨hl, hij⟩ := (hlive i).1 hl
    rcases hmem with hmem | hmem
    · exact h.unlisted i hi hk hl b hb hmem
    rcases List.mem_append.1 hmem with hmem | hmem
    · exact h.unlisted i hi hk hl b hb (h.known b hmem)
    · obtain ⟨hk', hb'⟩ := hds b hmem
      exact hij (h.unique i hi j hj hk hk' b hb hb')
  case listed =>
    show (m.detached ++ ds).Nodup
    refine List.nodup_append.2 ⟨h.listed, hnodup, fun a ha b hb hab => ?_⟩
    subst hab
    obtain ⟨hk, hb'⟩ := hds a hb
    exact h.unlisted j hj hk (Or.inr hw) a hb' (h.known a ha)
  case known => exact fun b hb => Or.inr hb
  case begun =>
    rintro b (hb | hb)
    · rw [hsize]
      exact h.begun b hb
    · rw [hsize]
      rcases List.mem_append.1 hb with hb | hb
      · exact h.begun b (h.known b hb)
      · exact hlt b hb
  case struck =>
    intro b
    have h₁ := owed_watchAll (m := m.withReady rest) .forget (isForgetOf b) hlt
    have h₂ := m.owed_cons hr (isForgetOf b)
    have h₃ := h.struck b
    rw [if_neg (by simp [isForgetOf]), Nat.add_zero] at h₂
    change m.owed _ = (m.withReady rest).owed _ at h₂
    show ((m.withReady rest).watchAll .forget ds).owed _ = (m.detached ++ ds).count b
    rw [h₁, ← h₂, h₃, List.count_append]
    rfl
  all_goals simp only [hjoins, hsize, hjoin]
  exacts [h.parent, h.unique, h.below, h.distinct]

/-- The turn of a branch and the store do not matter for who owns it. -/
theorem Owned.activate (h : Owned tops ever m) (b : Nat) (r : Routine Value) :
    Owned tops ever (m.activate b r) := h.congr rfl rfl rfl rfl

/-- What is on the list now has been on it. -/
theorem Owned.widen (h : Owned tops ever m) : Owned tops (ever ∪ {b | b ∈ m.detached}) m := by
  have : ever ∪ {b | b ∈ m.detached} = ever := Set.union_eq_left.2 fun b hb => h.known b hb
  rwa [this]

theorem Owned.wake {j : Nat} {rest : List Job} (h : Owned tops ever m) (hB : Balanced none m)
    (hq : Quiet none m) (hr : m.ready = .wake j :: rest) :
    Owned tops (ever ∪ {b | b ∈ ((m.withReady rest).wake j).detached})
      ((m.withReady rest).wake j) := by
  obtain ⟨hj, hs⟩ := hB.waking j (by rw [hr]; exact List.mem_cons_self)
  -- Nobody is left behind.
  have hnone : ((m.join j).kind ≠ .ended → ∀ b ∈ (m.join j).branches, m.isOpen b = false) →
      Owned tops (ever ∪ {b | b ∈ (m.withReady rest).detached}) (m.withReady rest) := by
    intro hclosed
    have hl : Owned tops (ever ∪ {b | b ∈ (m.leave rest []).detached}) (m.leave rest []) := by
      refine h.leave hB hr (by simp) (fun hk b hb ho => ?_) (by simp) List.nodup_nil
      rw [hclosed hk b hb] at ho
      cases ho
    have hnil : (m.leave rest []).detached = m.detached := List.append_nil _
    rw [hnil] at hl
    exact hl.congr rfl rfl rfl hnil.symm
  -- All open branches are left behind.
  have hsome : (m.join j).kind ≠ .ended →
      Owned tops (ever ∪ {b | b ∈ ((m.withReady rest).detachOpen (m.join j).branches).detached})
        ((m.withReady rest).detachOpen (m.join j).branches) := by
    intro hk
    rw [detachOpen_eq]
    exact h.leave hB hr (fun b hb => hB.branches j hj b (List.mem_filter.1 hb).1)
      (fun _ b hb ho => List.mem_filter.2 ⟨hb, ho⟩) (fun b hb => ⟨hk, (List.mem_filter.1 hb).1⟩)
      ((h.distinct j hj hk).filter _)
  unfold Schedule.wake
  have hjoin : (m.withReady rest).join j = m.join j := rfl
  rw [hjoin]
  dsimp only
  split
  · next hk => exact (hnone fun hne => absurd hk hne).activate _ _
  · next hk => exact (hsome (by rw [hk]; nofun)).activate _ _
  · next hk =>
    split
    · next hf =>
      refine (hnone fun _ b hb => ?_).activate _ _
      obtain ⟨v, hv⟩ := hB.succeeded j hj hk hs hf b hb
      exact isOpen_eq_false_iff.2 ⟨_, hv⟩
    · next f hf =>
      rw [if_pos (hq.failure_tame hB hj hf)]
      exact (hsome (by rw [hk]; nofun)).activate _ _

/-! ## Starting branches -/

/-- A branch waits for others. Those that are new belong to the join; if it only waits for their end
there are no new ones. -/
theorem Owned.joinOn (h : Owned tops ever m) (hB : Balanced (some b) m) (rs : List (Routine Value))
    {kind : JoinKind} {bs : List Nat} (hbs : ∀ b' ∈ bs, b' < m.branches.size + rs.length)
    (hnew : ∀ b', m.branches.size ≤ b' → b' < m.branches.size + rs.length →
      kind ≠ .ended ∧ b' ∈ bs)
    (hown : kind ≠ .ended → bs.Nodup ∧ ∀ b' ∈ bs, m.branches.size ≤ b')
    (resume : Outcome → Routine Value) :
    Owned tops ever ((m.spawnAll rs).2.joinOn b kind bs resume) := by
  set m' := (m.spawnAll rs).2.joinOn b kind bs resume with hm'
  have hdetached : m'.detached = m.detached := by rw [hm', detached_joinOn, spawnAll_snd]
  have hsize : m'.branches.size = m.branches.size + rs.length := by
    rw [hm', size_joinOn, size_spawnAll]
  have hjs : m'.joins.size = m.joins.size + 1 := by rw [hm', size_joins_joinOn, joins_spawnAll]
  have hjoin : ∀ j, m'.join j =
      if j = m.joins.size then ⟨kind, b, bs, 0, false, none⟩ else m.join j := by
    intro j
    rw [hm', join_joinOn, joins_spawnAll, join, joins_spawnAll]
    rfl
  have hold : ∀ {j : Nat}, j < m.joins.size → m'.join j = m.join j := fun hj => by
    rw [hjoin, if_neg (Nat.ne_of_lt hj)]
  have hlast : m'.join m.joins.size = ⟨kind, b, bs, 0, false, none⟩ := by
    rw [hjoin, if_pos rfl]
  have hready : ∀ j, .wake j ∈ m'.ready ↔ .wake j ∈ m.ready := fun j => by
    rw [hm', ready_joinOn, ready_spawnAll]
    simp
  have hlive : ∀ {j : Nat}, j < m.joins.size → (m'.Live j ↔ m.Live j) := fun hj => by
    rw [Live, Live, hold hj, hready]
  -- A statement about all joins is one about the old ones and one about the new one.
  have hall : ∀ {P : Nat → Prop}, (∀ j < m.joins.size, P j) → P m.joins.size →
      ∀ j < m'.joins.size, P j := by
    intro P hP hl j hj
    rw [hjs] at hj
    rcases Nat.lt_succ_iff_lt_or_eq.1 hj with hj | rfl
    · exact hP j hj
    · exact hl
  -- The branches of the new join are in no old one.
  have hfresh : kind ≠ .ended → ∀ j < m.joins.size, ∀ b' ∈ (m.join j).branches, b' ∉ bs := by
    intro hk j hj b' hb' hmem
    exact Nat.not_lt.2 ((hown hk).2 b' hmem) (hB.branches j hj b' hb')
  constructor
  case parent =>
    intro b' hb' ht
    rw [hsize] at hb'
    by_cases hlt : b' < m.branches.size
    · obtain ⟨j, hj, hk, hmem⟩ := h.parent b' hlt ht
      exact ⟨j, by omega, by rwa [hold hj], by rwa [hold hj]⟩
    · obtain ⟨hk, hmem⟩ := hnew b' (by omega) hb'
      exact ⟨m.joins.size, by omega, by rwa [hlast], by rwa [hlast]⟩
  case unique =>
    refine hall (fun j hj => hall (fun i hi => ?_) ?_) (hall (fun i hi => ?_) ?_)
    · rw [hold hj, hold hi]
      exact h.unique j hj i hi
    · rw [hold hj, hlast]
      exact fun _ hk b' hb' hmem => absurd hmem (hfresh hk j hj b' hb')
    · rw [hlast, hold hi]
      exact fun hk _ b' hmem hb' => absurd hmem (hfresh hk i hi b' hb')
    · exact fun _ _ _ _ _ => rfl
  case below =>
    refine hall (fun j hj => ?_) ?_
    · rw [hold hj]
      exact h.below j hj
    · rw [hlast]
      exact fun hk b' hb' => Nat.lt_of_lt_of_le hB.of_held.1 ((hown hk).2 b' hb')
  case distinct =>
    refine hall (fun j hj => ?_) ?_
    · rw [hold hj]
      exact h.distinct j hj
    · rw [hlast]
      exact fun hk => (hown hk).1
  case kept =>
    refine hall (fun j hj => ?_) ?_
    · rw [hold hj, hlive hj, hdetached]
      intro hk hl b' hb' ho
      refine h.kept j hj hk hl b' hb' ?_
      rwa [hm', isOpen_joinOn, isOpen_spawnAll] at ho
    · exact fun _ hl => absurd (Or.inl (by rw [hlast])) hl
  case unlisted =>
    refine hall (fun j hj => ?_) ?_
    · rw [hold hj, hlive hj]
      exact h.unlisted j hj
    · rw [hlast]
      intro hk _ b' hb' hmem
      exact Nat.not_lt.2 ((hown hk).2 b' hb') (h.begun b' hmem)
  case known =>
    rw [hdetached]
    exact h.known
  case begun =>
    intro b' hb'
    rw [hsize]
    exact Nat.lt_add_right _ (h.begun b' hb')
  case listed =>
    rw [hdetached]
    exact h.listed
  case struck =>
    intro b'
    have hlt : ∀ b' ∈ bs, b' < (m.spawnAll rs).2.branches.size := fun b' hb' => by
      rw [size_spawnAll]
      exact hbs b' hb'
    rw [hm', owed_joinOn _ _ _ _ _ hlt, owed_spawnAll _ _ (fun _ => rfl), ← hm', hdetached,
      List.countP_eq_zero.2 (fun _ _ => by simp [isForgetOf]), Nat.add_zero]
    exact h.struck b'

theorem Owned.startAndJoin (h : Owned tops ever m) (hB : Balanced (some b) m) (kind : JoinKind)
    (hk : kind ≠ .ended) (ps : List Procedure) (resume : Outcome → Routine Value) :
    Owned tops ever (m.startAndJoin body b kind ps resume) := by
  by_cases hps : ps = []
  · subst hps
    exact h.activate _ _
  · rw [startAndJoin_eq m b kind hps]
    refine h.joinOn hB (ps.map body) (fun b' hb' => ?_) (fun b' h₁ h₂ => ⟨hk, ?_⟩)
      (fun _ => ⟨List.nodup_range', fun b' hb' => (List.mem_range'_1.1 hb').1⟩) resume
    · rw [List.length_map]
      exact (List.mem_range'_1.1 hb').2
    · rw [List.length_map] at h₂
      exact List.mem_range'_1.2 ⟨h₁, h₂⟩

/-! ## Steps -/

theorem Owned.sleep (h : Owned tops ever m) (b : Nat) (seconds : Binary64)
    (resume : Outcome → Routine Value) : Owned tops ever (m.sleep b seconds resume) := by
  have hs := h.suspend b resume
  unfold Schedule.sleep
  dsimp only
  split
  · exact hs.congr rfl rfl rfl rfl
  · exact hs.enqueue nofun fun _ => rfl

theorem Owned.advance (h : Owned tops ever m) (hB : Balanced (some b) m) (r : Routine Value) :
    Owned tops ever (m.advance body b r) := by
  cases r with
  | done v => exact h.finish hB.of_held.1 _
  | fail f => exact h.finish hB.of_held.1 _
  | get k => exact h.activate _ _
  | put s r => exact h.congr rfl rfl rfl rfl
  | await w k =>
    cases w with
    | call p => exact h.activate _ _
    | sleep seconds => exact h.sleep b seconds k
    | all ps => exact h.startAndJoin hB .all nofun ps k
    | first ps => exact h.startAndJoin hB .first nofun ps k
    | detached =>
      show Owned tops ever (m.wait body b .detached k)
      unfold wait
      dsimp only
      split
      · exact h.activate _ _
      · refine h.joinOn hB [] (fun b' hb' => ?_) (fun b' h₁ h₂ => ?_) (fun hk => absurd rfl hk) _
        · exact hB.left b' hb'
        · exact absurd h₂ (Nat.not_lt.2 h₁)

theorem Owned.doJob {job : Job} {rest : List Job} (h : Owned tops ever m) (hB : Balanced none m)
    (hq : Quiet none m) (hr : m.ready = job :: rest) :
    Owned tops (ever ∪ {b | b ∈ ((m.withReady rest).doJob job).detached})
      ((m.withReady rest).doJob job) := by
  cases job with
  | resume b => exact ((h.pop hr nofun fun _ => rfl).activate _ _).widen
  | notify b n =>
    cases n with
    | count j => exact (h.count hB hr).widen
    | forget => exact (h.forget hB hr).widen
  | wake j => exact h.wake hB hq hr
  | ring b =>
    have hp := h.pop hr nofun fun _ => rfl
    have he : Owned tops ever ((m.withReady rest).enqueue (.resume b)) :=
      hp.enqueue nofun fun _ => rfl
    exact he.widen

/-- **Every step keeps the order of ownership.** -/
theorem Owned.step {m' : Schedule} (h : Owned tops ever m) (hB : Balanced none m)
    (hq : Quiet none m) (hm : m.step body = some m') :
    Owned tops (ever ∪ {b | b ∈ m'.detached}) m' := by
  rcases step_cases hm with ⟨b, r, ha, rfl⟩ | ⟨job, rest, -, hr, rfl⟩ | ⟨-, hr, hm⟩
  · have hi : Owned tops ever m.idle := h.congr rfl rfl rfl rfl
    rw [advance_idle]
    exact (hi.advance (hB.take ha) r).widen
  · exact h.doJob hB hq hr
  · exact (h.jump hr hm).widen

/-! ## Runs -/

theorem owned_ofStore (s : Store) : Owned [] ∅ (ofStore s) := by
  constructor
  case struck => exact fun b => by simp [ofStore, owed]
  case begun => exact fun b hb => absurd hb (Set.notMem_empty b)
  all_goals simp [ofStore]

/-- A routine that begins adds a top-level branch. -/
theorem Owned.launch (h : Owned tops ever m) (r : Routine Value) :
    Owned (m.branches.size :: tops) ever (m.launch r).2 := by
  have hsize : (m.launch r).2.branches.size = m.branches.size + 1 := Array.size_push _
  constructor
  case parent =>
    intro b hb ht
    rw [hsize] at hb
    rw [List.mem_cons, not_or] at ht
    exact h.parent b (by omega) ht.2
  case kept =>
    intro j hj hk hl b hb ho
    rw [isOpen, outcome?_launch] at ho
    exact h.kept j hj hk hl b hb ho
  case struck =>
    intro b
    rw [owed_launch]
    exact h.struck b
  case begun =>
    intro b hb
    have := h.begun b hb
    omega
  exacts [h.unique, h.below, h.distinct, h.unlisted, h.known, h.listed]

end Schedule

end Conductor
