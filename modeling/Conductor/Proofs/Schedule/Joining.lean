import Conductor.Proofs.Schedule.Balance

/-!
# Branches that start and join

Starting branches puts each of them into the queue, so each has the one prospect that an open branch
must have. Waiting for branches replaces the turn of the owner by a join that has not settled, and
asks for a notice of every branch that is waited for.
-/

namespace Conductor

namespace Schedule

variable {m : Schedule} {held : Option Nat} {b : Nat}

/-! ## Branches that start -/

theorem branch_spawnAll (m : Schedule) (rs : List (Routine Value)) (b : Nat) :
    (m.spawnAll rs).2.branch b = if m.branches.size ≤ b ∧ b < m.branches.size + rs.length then
      ⟨fun _ => rs.getD (b - m.branches.size) default, none, []⟩ else m.branch b := by
  rw [spawnAll_snd]
  simp only [branch, Array.getD_eq_getD_getElem?, Array.getElem?_append, List.getElem?_toArray,
    List.getElem?_map]
  by_cases hb : b < m.branches.size
  · rw [if_pos hb, if_neg (by omega)]
  · rw [if_neg hb]
    by_cases hb' : b < m.branches.size + rs.length
    · have hlt : b - m.branches.size < rs.length := by omega
      rw [if_pos (by omega), List.getElem?_eq_getElem hlt]
      simp [hlt]
    · rw [if_neg (by omega), List.getElem?_eq_none (by omega),
        Array.getElem?_eq_none (by omega)]
      rfl

@[simp] theorem size_spawnAll (m : Schedule) (rs : List (Routine Value)) :
    (m.spawnAll rs).2.branches.size = m.branches.size + rs.length := by
  rw [spawnAll_snd]
  simp

@[simp] theorem joins_spawnAll (m : Schedule) (rs : List (Routine Value)) :
    (m.spawnAll rs).2.joins = m.joins := by rw [spawnAll_snd]

@[simp] theorem outcome?_spawnAll (m : Schedule) (rs : List (Routine Value)) (b : Nat) :
    (m.spawnAll rs).2.outcome? b = m.outcome? b := by
  rw [outcome?, branch_spawnAll]
  split
  · next h => exact (outcome?_of_size_le h.1).symm
  · rfl

@[simp] theorem isOpen_spawnAll (m : Schedule) (rs : List (Routine Value)) (b : Nat) :
    (m.spawnAll rs).2.isOpen b = m.isOpen b := by simp only [isOpen, outcome?_spawnAll]

theorem notices_of_size_le (h : m.branches.size ≤ b) : (m.branch b).notices = [] := by
  simp [branch, Array.getD, Nat.not_lt.2 h, default]

@[simp] theorem notices_spawnAll (m : Schedule) (rs : List (Routine Value)) (b : Nat) :
    ((m.spawnAll rs).2.branch b).notices = (m.branch b).notices := by
  rw [branch_spawnAll]
  split
  · next h => exact (notices_of_size_le h.1).symm
  · rfl

theorem ready_spawnAll (m : Schedule) (rs : List (Routine Value)) : (m.spawnAll rs).2.ready =
    m.ready ++ (List.range' m.branches.size rs.length).map .resume := by rw [spawnAll_snd]

theorem owed_spawnAll (m : Schedule) (rs : List (Routine Value)) {p : Job → Bool}
    (hp : ∀ b, p (.resume b) = false) : (m.spawnAll rs).2.owed p = m.owed p := by
  have hz : ∑ b ∈ Finset.range rs.length, (m.branch (m.branches.size + b)).notices.countP
      (fun n => p (.notify (m.branches.size + b) n)) = 0 :=
    Finset.sum_eq_zero fun b _ => by
      rw [notices_of_size_le (Nat.le_add_right _ _)]
      rfl
  have hr : (List.range' m.branches.size rs.length).countP (p ∘ Job.resume) = 0 :=
    List.countP_eq_zero.2 fun b _ => by simp [hp]
  simp only [owed, ready_spawnAll, List.countP_append, List.countP_map, size_spawnAll,
    Finset.sum_range_add, notices_spawnAll, hz, hr]
  omega

theorem countP_range' (n k b : Nat) :
    (List.range' n k).countP (· == b) = if n ≤ b ∧ b < n + k then 1 else 0 := by
  rw [← List.count_eq_countP]
  split
  · next h => exact List.count_eq_one_of_mem List.nodup_range' (by simpa using h)
  · next h => exact List.count_eq_zero_of_not_mem (by simpa using h)

theorem Balanced.spawnAll (h : Balanced held m) (rs : List (Routine Value)) :
    Balanced held (m.spawnAll rs).2 := by
  have hjoin : ∀ j, (m.spawnAll rs).2.join j = m.join j := fun j => by
    simp only [join, joins_spawnAll]
  have hnew : ∀ {job : Job}, (∀ b, job ≠ .resume b) →
      (job ∈ (m.spawnAll rs).2.ready ↔ job ∈ m.ready) := by
    intro job hj
    rw [ready_spawnAll, List.mem_append, or_iff_left]
    rintro hmem
    obtain ⟨b, -, heq⟩ := List.mem_map.1 hmem
    exact hj b heq.symm
  have howed : ∀ j, (m.spawnAll rs).2.owed (isCountFor j) = m.owed (isCountFor j) :=
    fun j => m.owed_spawnAll rs fun _ => rfl
  constructor
  case prospects =>
    intro b
    have h₁ := h.prospects b
    have h₂ : (m.spawnAll rs).2.prospects b = m.prospects b +
        if m.branches.size ≤ b ∧ b < m.branches.size + rs.length then 1 else 0 := by
      rw [← countP_range', Schedule.prospects, ready_spawnAll, List.countP_append,
        List.countP_map, lets_congr (m := m) (fun j => congrArg Join.owner (hjoin j)) b,
        waitsIn_congr (m := m) (m.joins_spawnAll rs) b, Schedule.prospects,
        show (m.spawnAll rs).2.turn b = m.turn b by rw [turn, spawnAll_snd]; rfl,
        show (m.spawnAll rs).2.timers = m.timers by rw [spawnAll_snd],
        show m.lets b ∘ Job.resume = (· == b) from rfl]
      omega
    rw [h₂, size_spawnAll, isOpen_spawnAll]
    generalize (if held = some b then 1 else 0) = x at h₁ ⊢
    by_cases hb : b < m.branches.size
    · rw [if_neg (fun hc => absurd hb (by omega)), Nat.add_zero, h₁]
      simp [hb, Nat.lt_add_right rs.length hb]
    · have ho : m.isOpen b = true := by rw [isOpen, outcome?_of_size_le (by omega)]; rfl
      rw [if_neg (fun hc => hb hc.1)] at h₁
      by_cases hb' : b < m.branches.size + rs.length
      · rw [if_pos ⟨by omega, hb'⟩, if_pos ⟨hb', ho⟩]
        omega
      · rw [if_neg (fun hc => hb' hc.2), if_neg (fun hc => hb' hc.1)]
        omega
  case owner =>
    intro j hj
    rw [hjoin, size_spawnAll]
    exact Nat.lt_add_right _ (h.owner j (by simpa using hj))
  case branches =>
    intro j hj b hb
    rw [hjoin] at hb
    rw [size_spawnAll]
    exact Nat.lt_add_right _ (h.branches j (by simpa using hj) b hb)
  case asking =>
    intro b _ j hj
    rw [notices_spawnAll] at hj
    by_cases hb : b < m.branches.size
    · simpa only [joins_spawnAll, hjoin] using h.asking b hb j hj
    · rw [notices_of_size_le (by omega)] at hj
      cases hj
  case noticed =>
    intro b n hn
    rw [hnew (by simp)] at hn
    simpa only [joins_spawnAll, hjoin, isOpen_spawnAll] using h.noticed b n hn
  case waking =>
    intro j hj
    rw [hnew (by simp)] at hj
    simpa only [joins_spawnAll, hjoin] using h.waking j hj
  case left =>
    intro b hb
    rw [show (m.spawnAll rs).2.detached = m.detached by rw [spawnAll_snd]] at hb
    rw [size_spawnAll]
    exact Nat.lt_add_right _ (h.left b hb)
  case failing =>
    intro j hj hk hs b hb f hf
    rw [hnew (by simp)]
    simp only [joins_spawnAll, hjoin, outcome?_spawnAll] at hj hk hs hb hf
    exact h.failing j hj hk hs b hb f hf
  all_goals
    simp only [joins_spawnAll, hjoin, outcome?_spawnAll, isOpen_spawnAll, notices_spawnAll, howed]
  exacts [h.counted, h.asked, h.silent, h.waiting, h.failed, h.succeeded, h.decided]

/-! ## Waiting in joins -/

/-- The schedule with a further join. -/
def addJoin (m : Schedule) (x : Join) : Schedule := { m with joins := m.joins.push x }

theorem join_addJoin (m : Schedule) (x : Join) (j : Nat) :
    (m.addJoin x).join j = if j = m.joins.size then x else m.join j := by
  unfold join addJoin
  by_cases h : j = m.joins.size
  · subst h
    simp [Array.getD]
  · rw [if_neg h]
    by_cases hj : j < m.joins.size
    · simp [Array.getD, hj, Array.getElem_push_lt hj, Nat.lt_succ_of_lt hj]
    · have : ¬j < m.joins.size + 1 := by omega
      simp [Array.getD, hj, this]

@[simp] theorem size_addJoin (m : Schedule) (x : Join) :
    (m.addJoin x).joins.size = m.joins.size + 1 := by simp [addJoin]

/-- No job counts a branch for a join that is not there. -/
theorem Balanced.owed_eq_zero (h : Balanced held m) {j : Nat} (hj : m.joins.size ≤ j) :
    m.owed (isCountFor j) = 0 := by
  by_contra hpos
  rcases exists_of_owed_pos (Nat.pos_of_ne_zero hpos) with ⟨job, hmem, hp⟩ | ⟨b, hb, n, hn, hp⟩
  · cases job with
    | notify b n =>
      cases n with
      | count j' =>
        obtain rfl : j' = j := by simpa [isCountFor] using hp
        exact absurd ((h.noticed b _ hmem).2 j' rfl).1 (Nat.not_lt.2 hj)
      | forget => cases hp
    | _ => cases hp
  · cases n with
    | count j' =>
      obtain rfl : j' = j := by simpa [isCountFor] using hp
      exact absurd (h.asking b hb j' hn).1 (Nat.not_lt.2 hj)
    | forget => cases hp

theorem Balanced.addJoin_prospects (h : Balanced held m) {x : Join} (hs : x.settled = false)
    (b : Nat) :
    m.turn b + m.ready.countP ((m.addJoin x).lets b) + m.timers.countP (·.branch == b) +
      ((m.addJoin x).waitsIn b).card = m.prospects b + if x.owner = b then 1 else 0 := by
  have hl : m.ready.countP ((m.addJoin x).lets b) = m.ready.countP (m.lets b) := by
    refine List.countP_congr fun job hjob => ?_
    cases job with
    | wake j =>
      have hne : j ≠ m.joins.size := Nat.ne_of_lt (h.waking j hjob).1
      simp [lets, join_addJoin, hne]
    | _ => exact Iff.rfl
  have hw : ((m.addJoin x).waitsIn b).card = (m.waitsIn b).card +
      if x.owner = b then 1 else 0 := by
    have hnew : (m.addJoin x).waitsIn b =
        if x.owner = b then insert m.joins.size (m.waitsIn b) else m.waitsIn b := by
      ext j
      simp only [mem_waitsIn, size_addJoin, join_addJoin]
      by_cases hj : j = m.joins.size
      · subst hj
        by_cases ho : x.owner = b <;> simp [hs, ho, mem_waitsIn]
      · have : j < m.joins.size + 1 ↔ j < m.joins.size := by omega
        by_cases ho : x.owner = b <;> simp [hj, ho, mem_waitsIn, this]
    rw [hnew]
    split
    · rw [Finset.card_insert_of_notMem (by simp [mem_waitsIn])]
    · rfl
  rw [hl, hw, Schedule.prospects]
  omega

/-- Waiting is asking for notices and giving the turn away. -/
theorem joinOn_eq (m : Schedule) (b : Nat) (kind : JoinKind) (bs : List Nat)
    (resume : Outcome → Routine Value) : m.joinOn b kind bs resume =
      ((m.addJoin ⟨kind, b, bs, 0, false, none⟩).watchAll (.count m.joins.size) bs).suspend b
        resume := rfl

theorem owed_suspend (m : Schedule) (b : Nat) (resume : Outcome → Routine Value)
    (p : Job → Bool) : (m.suspend b resume).owed p = m.owed p :=
  m.owed_updateBranch b (fun x => { x with resume }) (fun _ => rfl) p

section JoinOn

variable (m : Schedule) (b : Nat) (kind : JoinKind) (bs : List Nat)
  (resume : Outcome → Routine Value)

theorem joins_joinOn : (m.joinOn b kind bs resume).joins =
    (m.addJoin ⟨kind, b, bs, 0, false, none⟩).joins := joins_watchAll _ _ _

theorem join_joinOn (j : Nat) : (m.joinOn b kind bs resume).join j =
    if j = m.joins.size then ⟨kind, b, bs, 0, false, none⟩ else m.join j := by
  rw [← join_addJoin, join, join, joins_joinOn]

@[simp] theorem size_joins_joinOn :
    (m.joinOn b kind bs resume).joins.size = m.joins.size + 1 := by
  rw [joins_joinOn, size_addJoin]

@[simp] theorem size_joinOn : (m.joinOn b kind bs resume).branches.size = m.branches.size :=
  (size_updateBranch _ _ _).trans (size_watchAll _ _ _)

@[simp] theorem outcome?_joinOn (b' : Nat) :
    (m.joinOn b kind bs resume).outcome? b' = m.outcome? b' :=
  (branch_updateBranch_eq Branch.outcome? (fun x => { x with resume }) (fun _ => rfl) _ _ _).trans
    (outcome?_watchAll _ _ _ b')

@[simp] theorem isOpen_joinOn (b' : Nat) :
    (m.joinOn b kind bs resume).isOpen b' = m.isOpen b' := by simp only [isOpen, outcome?_joinOn]

@[simp] theorem detached_joinOn : (m.joinOn b kind bs resume).detached = m.detached :=
  detached_watchAll _ _ _

theorem ready_joinOn : (m.joinOn b kind bs resume).ready = m.ready ++
    (bs.filter fun b' => !m.isOpen b').map fun b' => .notify b' (.count m.joins.size) :=
  ready_watchAll _ _ _

theorem owed_joinOn (hbs : ∀ b' ∈ bs, b' < m.branches.size) (p : Job → Bool) :
    (m.joinOn b kind bs resume).owed p =
      m.owed p + bs.countP fun b' => p (.notify b' (.count m.joins.size)) := by
  have h : ((m.addJoin ⟨kind, b, bs, 0, false, none⟩).watchAll (.count m.joins.size) bs).owed p =
      (m.addJoin ⟨kind, b, bs, 0, false, none⟩).owed p + _ := owed_watchAll _ p hbs
  rw [joinOn_eq, owed_suspend, h]
  rfl

end JoinOn

/-- Waiting for branches: the held branch owns a join, and a notice is asked for each of them. -/
theorem Balanced.joinOn (h : Balanced (some b) m) (ha : m.active = none) (kind : JoinKind)
    {bs : List Nat} (hbs : ∀ b' ∈ bs, b' < m.branches.size) (hne : bs ≠ [])
    (resume : Outcome → Routine Value) : Balanced none (m.joinOn b kind bs resume) := by
  set x : Join := ⟨kind, b, bs, 0, false, none⟩ with hx
  set m' := (m.addJoin x).watchAll (.count m.joins.size) bs with hm'
  show Balanced none (m'.suspend b resume)
  refine Balanced.suspend ?_ (by simp [hm', addJoin, ha]) resume
  have hsize : m'.branches.size = m.branches.size := by simp [hm', addJoin]
  have hout : ∀ b', m'.outcome? b' = m.outcome? b' := fun b' => by rw [hm']; simp; rfl
  have hopen : ∀ b', m'.isOpen b' = m.isOpen b' := fun b' => by simp only [isOpen, hout]
  have hjoins : m'.joins = (m.addJoin x).joins := by simp [hm']
  have hjs : m'.joins.size = m.joins.size + 1 := by rw [hjoins, size_addJoin]
  have hjoin : ∀ j, m'.join j = if j = m.joins.size then x else m.join j := fun j => by
    rw [← join_addJoin, join, join, hjoins]
  have hold : ∀ {j : Nat}, j < m.joins.size → m'.join j = m.join j := fun hj => by
    rw [hjoin, if_neg (Nat.ne_of_lt hj)]
  have hnew : m'.join m.joins.size = x := by rw [hjoin, if_pos rfl]
  have hmem : ∀ {b' : Nat} {n : Notice}, n ∈ (m'.branch b').notices ↔
      n ∈ (m.branch b').notices ∨ (n = .count m.joins.size ∧ b' ∈ bs ∧ m.isOpen b' = true) :=
    fun {b' n} => mem_notices_watchAll (m := m.addJoin x) hbs
  have hready : ∀ {job : Job}, job ∈ m'.ready ↔ job ∈ m.ready ∨
      ∃ b' ∈ bs, m.isOpen b' = false ∧ job = .notify b' (.count m.joins.size) := by
    intro job
    rw [hm', ready_watchAll, List.mem_append]
    simp only [List.mem_map, List.mem_filter, Bool.not_eq_true']
    constructor
    · rintro (hj | ⟨b', ⟨hb', hc⟩, rfl⟩)
      · exact Or.inl hj
      · exact Or.inr ⟨b', hb', hc, rfl⟩
    · rintro (hj | ⟨b', hb', hc, rfl⟩)
      · exact Or.inl hj
      · exact Or.inr ⟨b', ⟨hb', hc⟩, rfl⟩
  -- A statement about all joins is one about the old ones and one about the new one.
  have hall : ∀ {P : Nat → Prop}, (∀ j < m.joins.size, P j) → P m.joins.size →
      ∀ j < m'.joins.size, P j := by
    intro P hP hlast j hj
    rw [hjs] at hj
    rcases Nat.lt_succ_iff_lt_or_eq.1 hj with hj | rfl
    · exact hP j hj
    · exact hlast
  constructor
  case prospects =>
    intro b'
    have h₁ := h.prospects b'
    have h₂ := h.addJoin_prospects (x := x) rfl b'
    have hl : m'.ready.countP (m'.lets b') = m.ready.countP ((m.addJoin x).lets b') := by
      rw [lets_congr (m := m.addJoin x) (fun j => by rw [join, hjoins]; rfl) b', hm',
        ready_watchAll, List.countP_append, countP_lets_notify]
      rfl
    rw [Schedule.prospects, waitsIn_congr (m := m.addJoin x) hjoins b', hl, hsize, hopen,
      show m'.turn b' = m.turn b' by rw [turn, turn, hm', active_watchAll]; rfl,
      show m'.timers = m.timers by rw [hm', timers_watchAll]; rfl, h₂]
    simp only [hx, Option.some.injEq, reduceCtorEq, if_false] at h₁ ⊢
    omega
  case owner =>
    refine hall (fun j hj => ?_) ?_
    · rw [hold hj, hsize]
      exact h.owner j hj
    · rw [hnew, hsize]
      exact h.of_held.1
  case counted =>
    have howed : ∀ j, m'.owed (isCountFor j) = m.owed (isCountFor j) +
        bs.countP fun _ => m.joins.size == j := fun j =>
      owed_watchAll (m := m.addJoin x) (.count m.joins.size) (isCountFor j) hbs
    refine hall (fun j hj => ?_) ?_
    · rw [hold hj, howed, List.countP_eq_zero.2 fun _ _ => by simp; omega]
      exact h.counted j hj
    · rw [hnew, howed, h.owed_eq_zero le_rfl]
      simp [hx]
  case branches =>
    refine hall (fun j hj b' hb' => ?_) fun b' hb' => ?_
    · rw [hold hj] at hb'
      rw [hsize]
      exact h.branches j hj b' hb'
    · rw [hnew] at hb'
      rw [hsize]
      exact hbs b' hb'
  case asked =>
    refine hall (fun j hj b' hb' ho => ?_) fun b' hb' ho => ?_
    · rw [hold hj] at hb'
      rw [hopen] at ho
      exact hmem.2 (Or.inl (h.asked j hj b' hb' ho))
    · rw [hnew] at hb'
      rw [hopen] at ho
      exact hmem.2 (Or.inr ⟨rfl, hb', ho⟩)
  case asking =>
    intro b' hb' j hj
    rw [hsize] at hb'
    rcases hmem.1 hj with hj | ⟨hj, hb', -⟩
    · obtain ⟨hlt, hin⟩ := h.asking b' hb' j hj
      exact ⟨by omega, by rwa [hold hlt]⟩
    · cases hj
      exact ⟨by omega, by rwa [hnew]⟩
  case silent =>
    intro b' hc
    rw [hopen] at hc
    refine List.eq_nil_iff_forall_not_mem.2 fun n hn => ?_
    rcases hmem.1 hn with hn | ⟨-, -, ho⟩
    · rw [h.silent b' hc] at hn
      cases hn
    · rw [hc] at ho
      cases ho
  case noticed =>
    intro b' n hn
    rw [hopen]
    rcases hready.1 hn with hn | ⟨b'', hb'', hc, heq⟩
    · obtain ⟨hc, hin⟩ := h.noticed b' n hn
      refine ⟨hc, fun j hj => ?_⟩
      obtain ⟨hlt, hin⟩ := hin j hj
      exact ⟨by omega, by rwa [hold hlt]⟩
    · cases heq
      refine ⟨hc, fun j hj => ?_⟩
      cases hj
      exact ⟨by omega, by rwa [hnew]⟩
  case waking =>
    intro j hj
    rcases hready.1 hj with hj | ⟨b'', _, _, heq⟩
    · obtain ⟨hlt, hs⟩ := h.waking j hj
      exact ⟨by omega, by rwa [hold hlt]⟩
    · cases heq
  case waiting =>
    refine hall (fun j hj hs => ?_) fun _ => ?_
    · rw [hold hj] at hs ⊢
      exact h.waiting j hj hs
    · have hpos : 0 < bs.length := List.length_pos_iff.2 hne
      rw [hnew, hx, Waiting]
      cases kind <;> simp [hne, hpos]
  case failing =>
    refine hall (fun j hj hk hs b' hb' f hf => ?_) fun _ _ b' hb' f hf => ?_
    · rw [hold hj] at hk hs hb'
      rw [hout] at hf
      exact hready.2 (Or.inl (h.failing j hj hk hs b' hb' f hf))
    · rw [hnew] at hb'
      rw [hout] at hf
      exact hready.2 (Or.inr ⟨b', hb', isOpen_eq_false_iff.2 ⟨_, hf⟩, rfl⟩)
  case failed =>
    refine hall (fun j hj f hf => ?_) fun f hf => ?_
    · rw [hold hj] at hf ⊢
      obtain ⟨b', hb', hf'⟩ := h.failed j hj f hf
      exact ⟨b', hb', by rwa [hout]⟩
    · rw [hnew] at hf
      cases hf
  case succeeded =>
    refine hall (fun j hj hk hs hf b' hb' => ?_) fun _ hs => ?_
    · rw [hold hj] at hk hs hf hb'
      rw [hout]
      exact h.succeeded j hj hk hs hf b' hb'
    · rw [hnew] at hs
      cases hs
  case decided =>
    refine hall (fun j hj hk hs => ?_) fun _ hs => ?_
    · rw [hold hj] at hk hs ⊢
      obtain ⟨b', hb', hc⟩ := h.decided j hj hk hs
      exact ⟨b', hb', by rwa [hopen]⟩
    · rw [hnew] at hs
      cases hs
  case left =>
    intro b' hb'
    rw [hm', detached_watchAll] at hb'
    rw [hsize]
    exact h.left b' hb'

end Schedule

end Conductor
