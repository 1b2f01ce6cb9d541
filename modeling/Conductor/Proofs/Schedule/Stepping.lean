import Conductor.Proofs.Schedule.Joining

/-!
# Steps keep the balance

What is left are the jobs of the queue and the step as a whole. A job that lets a branch go on hands
that branch over. A job that strikes a branch off the list of detached ones concerns no join.

Counting is the operation with an argument of its own. When the last branch of a join has been
counted no notice for the join is on its way any more, so none of its branches is open and none of
them has failed; that is what the owner may rely on when it is woken.

**Theorem (`Balanced.step`).** Every step keeps a schedule balanced.
-/

namespace Conductor

namespace Schedule

variable {m : Schedule} {held : Option Nat} {b : Nat}

/-! ## Branches that are left behind -/

theorem Balanced.withDetached (h : Balanced held m) {ds : List Nat}
    (hd : ∀ b ∈ ds, b < m.branches.size) : Balanced held (m.withDetached ds) :=
  h.transfer rfl (fun _ => rfl) rfl (fun _ => rfl) (fun _ _ => Iff.rfl) (fun _ => id)
    (fun _ => rfl) (fun _ _ => Iff.rfl) h.silent (fun b hb => (h.noticed b _ hb).1) hd

/-- Asking for notices that strike branches off does not touch the joins. -/
theorem Balanced.watchForget (h : Balanced held m) {bs : List Nat}
    (hbs : ∀ b ∈ bs, b < m.branches.size) : Balanced held (m.watchAll .forget bs) := by
  have hready : ∀ {job : Job}, (∀ b, job ≠ .notify b .forget) →
      (job ∈ (m.watchAll .forget bs).ready ↔ job ∈ m.ready) := by
    intro job hjob
    rw [ready_watchAll, List.mem_append, or_iff_left]
    intro hmem
    obtain ⟨b, -, heq⟩ := List.mem_map.1 hmem
    exact hjob b heq.symm
  refine h.transfer (m.size_watchAll _ _) (fun b => m.outcome?_watchAll _ _ b)
    (m.joins_watchAll _ _) (fun b => ?_) (fun b j => hready (by simp))
    (fun j => (hready (by simp)).1) (fun j => ?_) (fun b j => ?_) (fun b hb => ?_)
    (fun b hb => ?_) (fun b hb => ?_)
  · rw [ready_watchAll, List.countP_append, countP_lets_notify, turn, active_watchAll,
      timers_watchAll, turn, Nat.add_zero]
  · rw [owed_watchAll _ _ hbs, List.countP_eq_zero.2 (fun _ _ => by simp [isCountFor]),
      Nat.add_zero]
  · rw [mem_notices_watchAll hbs]
    simp
  · refine List.eq_nil_iff_forall_not_mem.2 fun n hn => ?_
    rcases (mem_notices_watchAll hbs).1 hn with hn | ⟨-, -, ho⟩
    · rw [h.silent b hb] at hn
      cases hn
    · rw [hb] at ho
      cases ho
  · rw [ready_watchAll, List.mem_append] at hb
    rcases hb with hb | hb
    · exact (h.noticed b _ hb).1
    · obtain ⟨b', hb', heq⟩ := List.mem_map.1 hb
      cases heq
      simpa using (List.mem_filter.1 hb').2
  · rw [detached_watchAll] at hb
    exact h.left b hb

theorem Balanced.detachOpen (h : Balanced held m) {bs : List Nat}
    (hbs : ∀ b ∈ bs, b < m.branches.size) : Balanced held (m.detachOpen bs) := by
  have hopen : ∀ b ∈ bs.filter m.isOpen, b < m.branches.size := fun b hb =>
    hbs b (List.mem_filter.1 hb).1
  rw [detachOpen_eq]
  refine (h.watchForget hopen).withDetached fun b hb => ?_
  rw [size_watchAll]
  rcases List.mem_append.1 hb with hb | hb
  · exact h.left b hb
  · exact hopen b hb

@[simp] theorem joins_detachOpen (m : Schedule) (bs : List Nat) :
    (m.detachOpen bs).joins = m.joins := by
  rw [detachOpen_eq]
  exact m.joins_watchAll _ _

@[simp] theorem active_detachOpen (m : Schedule) (bs : List Nat) :
    (m.detachOpen bs).active = m.active := by
  rw [detachOpen_eq]
  exact m.active_watchAll _ _

/-- A notice that strikes a branch off is taken from the queue. -/
theorem Balanced.popForget {rest : List Job} (h : Balanced none m)
    (hr : m.ready = .notify b .forget :: rest) : Balanced none (m.withReady rest) := by
  have hmem : ∀ {x : Job}, x ∈ rest → x ∈ m.ready := fun hx => by
    rw [hr]
    exact List.mem_cons_of_mem _ hx
  refine h.transfer rfl (fun _ => rfl) rfl (fun b' => ?_) (fun b' j => ?_) (fun j => hmem)
    (fun j => ?_) (fun _ _ => Iff.rfl) h.silent (fun b' hb' => (h.noticed b' _ (hmem hb')).1)
    h.left
  · rw [hr, List.countP_cons_of_neg (by simp [lets])]
    rfl
  · rw [hr, List.mem_cons]
    simp [withReady]
  · have := m.owed_cons hr (isCountFor j)
    rw [if_neg (by simp [isCountFor]), Nat.add_zero] at this
    exact this.symm

theorem Balanced.forget (h : Balanced held m) (b : Nat) : Balanced held (m.forget b) := by
  have hd : Balanced held (m.withDetached (m.detached.filter (· != b))) :=
    h.withDetached fun b' hb' => h.left b' (List.mem_filter.1 hb').1
  unfold Schedule.forget
  dsimp only
  split
  · exact hd.congr rfl (fun _ => rfl) (fun _ => rfl) rfl rfl rfl rfl rfl
  · exact hd

/-! ## Counting -/

theorem updateJoin_updateJoin (m : Schedule) (j : Nat) (f g : Join → Join) :
    (m.updateJoin j f).updateJoin j g = m.updateJoin j fun x => g (f x) := by
  have h : (m.joins.modify j f).modify j g = m.joins.modify j fun x => g (f x) := by
    refine Array.ext (by simp) fun i _ _ => ?_
    simp only [Array.getElem_modify]
    split <;> rfl
  simp only [updateJoin, h]

/-- The join after a branch has been counted, with what has been decided. -/
def recounted (settled : Bool) (failure? : Option Failure) (x : Join) : Join :=
  { x with counted := x.counted + 1, settled, failure? }

/-- The schedule after the count: the notice is gone, and whoever is to be woken is in the queue. -/
def recount (m : Schedule) (rest : List Job) (j : Nat) (settled : Bool)
    (failure? : Option Failure) (jobs : List Job) : Schedule :=
  ((m.withReady rest).updateJoin j (recounted settled failure?)).enqueueAll jobs

/-- What a recount decides about a join fits to how the branches have ended. The owner is called at
most once, and a join that goes on waiting has something to wait for. -/
structure Decision (m : Schedule) (b j : Nat) (settled : Bool) (failure? : Option Failure)
    (jobs : List Job) : Prop where
  jobs : jobs = if settled && !(m.join j).settled then [.wake j] else []
  kept : (m.join j).settled = true → settled = true ∧ failure? = (m.join j).failure?
  waits : settled = false → Waiting (recounted settled failure? (m.join j)) ∧
    failure? = (m.join j).failure? ∧
      ((m.join j).kind = .all → ∀ f, m.outcome? b ≠ some (.error f))
  ends : (m.join j).settled = false → settled = true →
    (∀ f, failure? = some f → m.outcome? b = some (.error f)) ∧
      ((m.join j).kind = .all → failure? = none →
        ∀ b' ∈ (m.join j).branches, ∃ v, m.outcome? b' = some (.ok v))

section Recount

variable {rest : List Job} {j : Nat} {s : Bool} {e : Option Failure} {jobs : List Job}

theorem join_recount (hj : j < m.joins.size) (i : Nat) :
    (m.recount rest j s e jobs).join i = if i = j then recounted s e (m.join j) else m.join i :=
  (m.withReady rest).join_updateJoin _ hj i

@[simp] theorem size_recount : (m.recount rest j s e jobs).joins.size = m.joins.size := by
  simp [recount, updateJoin, enqueueAll, withReady]

theorem owner_recount (i : Nat) :
    ((m.recount rest j s e jobs).join i).owner = (m.join i).owner :=
  join_updateJoin_eq Join.owner (recounted s e) (fun _ => rfl) (m.withReady rest) j i

theorem kind_recount (i : Nat) :
    ((m.recount rest j s e jobs).join i).kind = (m.join i).kind :=
  join_updateJoin_eq Join.kind (recounted s e) (fun _ => rfl) (m.withReady rest) j i

theorem branches_recount (i : Nat) :
    ((m.recount rest j s e jobs).join i).branches = (m.join i).branches :=
  join_updateJoin_eq Join.branches (recounted s e) (fun _ => rfl) (m.withReady rest) j i

/-- Settling a join takes it from what its owner waits in. -/
theorem waitsIn_recount (hj : j < m.joins.size) (hk : (m.join j).settled = true → s = true)
    (b' : Nat) : (m.recount rest j s e jobs).waitsIn b' =
      if s then (m.waitsIn b').erase j else m.waitsIn b' := by
  ext i
  rw [mem_waitsIn, size_recount, join_recount hj]
  by_cases hi : i = j
  · subst hi
    cases s with
    | true => simp [recounted]
    | false =>
      have hs : (m.join i).settled = false := Bool.eq_false_iff.2 fun hs => nomatch hk hs
      simp [recounted, hs, mem_waitsIn]
  · rw [if_neg hi]
    split <;> simp [mem_waitsIn, hi]

/-- If nobody is called, or the owner of a join that has now been settled, the owner keeps its one
prospect. -/
theorem prospects_recount (hr : m.ready = .notify b (.count j) :: rest)
    (hj : j < m.joins.size) (hk : (m.join j).settled = true → s = true)
    (hjobs : jobs = if s && !(m.join j).settled then [.wake j] else []) (b' : Nat) :
    (m.recount rest j s e jobs).prospects b' = m.prospects b' := by
  have hl : (m.recount rest j s e jobs).lets b' = m.lets b' := lets_congr owner_recount b'
  have hpop : m.ready.countP (m.lets b') = rest.countP (m.lets b') := by
    rw [hr, List.countP_cons_of_neg (by simp [lets])]
  have hq : (m.recount rest j s e jobs).ready = rest ++ jobs := rfl
  have hw : (m.recount rest j s e jobs).waitsIn b' =
      if s then (m.waitsIn b').erase j else m.waitsIn b' := waitsIn_recount hj hk b'
  rw [Schedule.prospects, Schedule.prospects, hl, hq, List.countP_append, hpop, hw]
  show m.turn b' + _ + m.timers.countP _ + _ = _
  by_cases hs : s = true ∧ (m.join j).settled = false
  · rw [hjobs, if_pos (by simp [hs]), if_pos hs.1, List.countP_singleton]
    by_cases ho : (m.join j).owner = b'
    · have hmem : j ∈ m.waitsIn b' := mem_waitsIn.2 ⟨hj, hs.2, ho⟩
      have := Finset.card_erase_add_one hmem
      rw [if_pos (by simp [lets, ho])]
      omega
    · have hmem : j ∉ m.waitsIn b' := fun hmem => ho (mem_waitsIn.1 hmem).2.2
      rw [if_neg (by simp [lets, ho]), Finset.erase_eq_of_notMem hmem]
      omega
  · have hmem : s = true → j ∉ m.waitsIn b' := fun hs' hmem => hs ⟨hs', (mem_waitsIn.1 hmem).2.1⟩
    have hnil : jobs = [] := by rw [hjobs, if_neg (by simpa using hs)]
    rw [hnil, List.countP_nil]
    split
    · next hs' =>
      rw [Finset.erase_eq_of_notMem (hmem hs')]
      omega
    · omega

/-- A branch is counted, and what is decided fits to how the branches have ended. -/
theorem Balanced.recount (h : Balanced none m) (hr : m.ready = .notify b (.count j) :: rest)
    (hd : Decision m b j s e jobs) :
    Balanced none (m.recount rest j s e jobs) := by
  obtain ⟨hjobs, hkept, hwaits, hends⟩ := hd
  have hmem : ∀ {x : Job}, x ∈ rest → x ∈ m.ready := fun hx => by
    rw [hr]
    exact List.mem_cons_of_mem _ hx
  obtain ⟨hclosed, hin⟩ := h.noticed b (.count j) (by rw [hr]; exact List.mem_cons_self)
  obtain ⟨hj, hin⟩ := hin j rfl
  have hjoin : ∀ i, (m.recount rest j s e jobs).join i =
      if i = j then recounted s e (m.join j) else m.join i := join_recount hj
  have hbranches : ∀ i, ((m.recount rest j s e jobs).join i).branches = (m.join i).branches :=
    branches_recount
  have hkind : ∀ i, ((m.recount rest j s e jobs).join i).kind = (m.join i).kind := kind_recount
  have hnotify : ∀ {b' n}, .notify b' n ∈ (m.recount rest j s e jobs).ready ↔
      .notify b' n ∈ rest := by
    intro b' n
    show _ ∈ rest ++ jobs ↔ _
    rw [List.mem_append, or_iff_left]
    rw [hjobs]
    split <;> simp
  constructor
  case prospects =>
    intro b'
    rw [prospects_recount hr hj (fun hs => (hkept hs).1) hjobs]
    exact h.prospects b'
  case owner =>
    intro i hi
    rw [owner_recount]
    exact h.owner i (size_recount ▸ hi)
  case branches =>
    intro i hi b' hb'
    rw [hbranches] at hb'
    exact h.branches i (size_recount ▸ hi) b' hb'
  case asked =>
    intro i hi b' hb' ho
    rw [hbranches] at hb'
    exact h.asked i (size_recount ▸ hi) b' hb' ho
  case asking =>
    intro b' hb' i hi
    rw [size_recount, hbranches]
    exact h.asking b' hb' i hi
  case silent => exact h.silent
  case left => exact h.left
  case noticed =>
    intro b' n hn
    rw [size_recount]
    simp only [hbranches]
    exact h.noticed b' n (hmem (hnotify.1 hn))
  case counted =>
    intro i hi
    rw [size_recount] at hi
    have h₁ := h.counted i hi
    have h₂ := m.owed_cons hr (isCountFor i)
    have h₃ : (m.recount rest j s e jobs).owed (isCountFor i) =
        (m.withReady rest).owed (isCountFor i) := by
      show (((m.withReady rest).updateJoin j _).enqueueAll jobs).owed _ = _
      rw [owed_enqueueAll]
      have : jobs.countP (isCountFor i) = 0 := by
        rw [hjobs]
        split <;> simp [isCountFor]
      rw [this]
      rfl
    rw [hjoin, h₃]
    change m.owed _ = (m.withReady rest).owed _ + _ at h₂
    by_cases hij : i = j
    · subst hij
      rw [if_pos (by simp [isCountFor])] at h₂
      rw [if_pos rfl]
      show (m.join i).counted + 1 + _ = (m.join i).branches.length
      omega
    · rw [if_neg (by simpa [isCountFor] using Ne.symm hij)] at h₂
      rw [if_neg hij]
      omega
  case waking =>
    intro i hi
    rw [size_recount, hjoin]
    rcases List.mem_append.1 hi with hi | hi
    · obtain ⟨hlt, hs⟩ := h.waking i (hmem hi)
      refine ⟨hlt, ?_⟩
      split
      · next hij => exact (hkept (hij ▸ hs)).1
      · exact hs
    · rw [hjobs] at hi
      split at hi
      · next hs =>
        obtain rfl : i = j := by simpa using hi
        rw [if_pos rfl]
        exact ⟨hj, (Bool.and_eq_true_iff.1 hs).1⟩
      · cases hi
  case waiting =>
    intro i hi hs
    rw [size_recount] at hi
    rw [hjoin] at hs ⊢
    by_cases hij : i = j
    · rw [if_pos hij] at hs ⊢
      exact (hwaits hs).1
    · rw [if_neg hij] at hs ⊢
      exact h.waiting i hi hs
  case failing =>
    intro i hi hk hs b' hb' f hf
    rw [size_recount] at hi
    rw [hkind] at hk
    rw [hbranches] at hb'
    rw [hnotify]
    have hold : ∀ {i}, i < m.joins.size → (m.join i).kind = .all → (m.join i).settled = false →
        b' ∈ (m.join i).branches → .notify b' (.count i) ∈ m.ready :=
      fun hi hk hs hb' => h.failing _ hi hk hs b' hb' f hf
    rw [hjoin] at hs
    split at hs
    · next hij =>
      subst hij
      have hs' : (m.join i).settled = false :=
        Bool.eq_false_iff.2 fun hs' => by cases hs.symm.trans (hkept hs').1
      have := hold hi hk hs' hb'
      rw [hr] at this
      rcases List.mem_cons.1 this with heq | this
      · cases heq
        exact absurd hf ((hwaits hs).2.2 hk f)
      · exact this
    · next hij =>
      have := hold hi hk hs hb'
      rw [hr] at this
      rcases List.mem_cons.1 this with heq | this
      · cases heq
        exact absurd rfl hij
      · exact this
  case failed =>
    intro i hi f hf
    rw [size_recount] at hi
    rw [hbranches]
    rw [hjoin] at hf
    split at hf
    · next hij =>
      subst hij
      cases hs : (m.join i).settled with
      | true => exact h.failed i hi f ((hkept hs).2 ▸ hf)
      | false =>
        cases hs' : s with
        | true => exact ⟨b, hin, (hends hs hs').1 f hf⟩
        | false => exact h.failed i hi f ((hwaits hs').2.1 ▸ hf)
    · exact h.failed i hi f hf
  case succeeded =>
    intro i hi hk hs hf
    rw [size_recount] at hi
    rw [hkind] at hk
    rw [hbranches]
    rw [hjoin] at hs hf
    split at hs
    · next hij =>
      subst hij
      rw [if_pos rfl] at hf
      cases hs' : (m.join i).settled with
      | true => exact h.succeeded i hi hk hs' ((hkept hs').2 ▸ hf)
      | false => exact (hends hs' hs).2 hk hf
    · next hij =>
      rw [if_neg hij] at hf
      exact h.succeeded i hi hk hs hf
  case decided =>
    intro i hi hk hs
    rw [size_recount] at hi
    rw [hkind] at hk
    rw [hbranches]
    rw [hjoin] at hs
    split at hs
    · next hij =>
      subst hij
      exact ⟨b, hin, hclosed⟩
    · exact h.decided i hi hk hs

theorem updateJoin_congr {g g' : Join → Join} (h : g (m.join j) = g' (m.join j)) :
    m.updateJoin j g = m.updateJoin j g' := by
  have : m.joins.modify j g = m.joins.modify j g' := by
    refine Array.ext (by simp) fun i hi hi' => ?_
    simp only [Array.getElem_modify]
    split
    · next hij =>
      subst hij
      have hj : j < m.joins.size := by simpa using hi
      simpa [join, Array.getD, hj] using h
    · rfl
  simp only [updateJoin, this]

/-- Behind the last branch of a join no notice for it is left. -/
theorem Balanced.succeeded_of_last (h : Balanced none m)
    (hr : m.ready = .notify b (.count j) :: rest)
    (hlast : (m.join j).counted + 1 = (m.join j).branches.length)
    (hs : (m.join j).settled = false) (hk : (m.join j).kind = .all)
    (hb : ∀ f, m.outcome? b ≠ some (.error f)) :
    ∀ b' ∈ (m.join j).branches, ∃ v, m.outcome? b' = some (.ok v) := by
  obtain ⟨hj, -⟩ := (h.noticed b (.count j) (by rw [hr]; exact List.mem_cons_self)).2 j rfl
  have hzero : (m.withReady rest).owed (isCountFor j) = 0 := by
    have h₁ := h.counted j hj
    have h₂ := m.owed_cons hr (isCountFor j)
    rw [if_pos (by simp [isCountFor])] at h₂
    change m.owed _ = (m.withReady rest).owed _ + _ at h₂
    omega
  intro b' hb'
  cases ho : m.outcome? b' with
  | none =>
    have hopen : m.isOpen b' = true := by rw [isOpen, ho]; rfl
    have := owed_pos_of_mem_notices (m := m.withReady rest) (h.branches j hj b' hb')
      (h.asked j hj b' hb' hopen) (p := isCountFor j) (by simp [isCountFor])
    omega
  | some o =>
    cases o with
    | ok v => exact ⟨v, rfl⟩
    | error f =>
      have hmem := h.failing j hj hk hs b' hb' f ho
      rw [hr] at hmem
      rcases List.mem_cons.1 hmem with heq | hmem
      · cases heq
        exact absurd ho (hb f)
      · have := owed_pos_of_mem_ready (m := m.withReady rest) hmem (p := isCountFor j)
          (by simp [isCountFor])
        omega

theorem failureOf_eq_some {o? : Option (Except Failure Value)} {f : Failure} :
    failureOf o? = some f ↔ o? = some (.error f) := by
  unfold failureOf
  split <;> simp_all

theorem failureOf_eq_none {o? : Option (Except Failure Value)} :
    failureOf o? = none ↔ ∀ f, o? ≠ some (.error f) := by
  unfold failureOf
  split <;> simp_all

/-- Counting a branch is a recount with a fitting decision. -/
theorem Balanced.count_cases (h : Balanced none m) (hr : m.ready = .notify b (.count j) :: rest) :
    ∃ (s : Bool) (e : Option Failure) (jobs : List Job),
      (m.withReady rest).count j b = m.recount rest j s e jobs ∧ Decision m b j s e jobs := by
  obtain ⟨hj, -⟩ := (h.noticed b (.count j) (by rw [hr]; exact List.mem_cons_self)).2 j rfl
  set x := m.join j with hx
  set k := (m.withReady rest).updateJoin j fun x => { x with counted := x.counted + 1 } with hk
  have hjoin : k.join j = { x with counted := x.counted + 1 } :=
    ((m.withReady rest).join_updateJoin _ hj j).trans (if_pos rfl)
  have hkeep : k = m.recount rest j x.settled x.failure? [] := by
    have : k.enqueueAll [] = k := by simp [enqueueAll]
    rw [← this, hk]
    exact congrArg (fun k : Schedule => k.enqueueAll []) (updateJoin_congr rfl)
  have hsettle : ∀ e, k.settle j e = m.recount rest j true e [.wake j] := fun e => by
    show ((k.updateJoin j _).enqueue (.wake j)) = _
    rw [hk, updateJoin_updateJoin]
    rfl
  have hle : x.counted + 1 ≤ x.branches.length := by
    have h₁ := h.counted j hj
    have h₂ := owed_pos_of_mem_ready (m := m) (p := isCountFor j)
      (by rw [hr]; exact List.mem_cons_self) (by simp [isCountFor])
    rw [← hx] at h₁
    omega
  cases hs : x.settled with
  | true =>
    refine ⟨true, x.failure?, [], ?_, by simp [← hx, hs], fun _ => ⟨rfl, rfl⟩, by simp,
      fun hc => by cases hs.symm.trans hc⟩
    show (if (k.join j).settled then k else _) = _
    rw [hjoin, if_pos hs, hkeep, hs]
  | false =>
    have hcount : ∀ k', (if (k.join j).settled then k else k') = k' := fun k' =>
      if_neg (by rw [hjoin]; simp [hs])
    -- The owner is called.
    have hcall : ∀ e, (m.withReady rest).count j b = k.settle j e →
        (∀ f, e = some f → m.outcome? b = some (.error f)) →
        (x.kind = .all → e = none → ∀ b' ∈ x.branches, ∃ v, m.outcome? b' = some (.ok v)) →
        ∃ s e jobs, (m.withReady rest).count j b = m.recount rest j s e jobs ∧
          Decision m b j s e jobs :=
      fun e hc h₁ h₂ => ⟨true, e, [.wake j], hc.trans (hsettle e), by simp [← hx, hs],
        fun hc => (by cases hs.symm.trans hc), by simp, fun _ _ => ⟨h₁, h₂⟩⟩
    -- The join goes on waiting.
    have hwait : (m.withReady rest).count j b = k → x.kind ≠ .first →
        x.counted + 1 ≠ x.branches.length →
        (x.kind = .all → ∀ f, m.outcome? b ≠ some (.error f)) →
        ∃ s e jobs, (m.withReady rest).count j b = m.recount rest j s e jobs ∧
          Decision m b j s e jobs := by
      intro hc hf hne hb
      refine ⟨false, x.failure?, [], hc.trans (hs ▸ hkeep), by simp,
        fun hc => (by cases hs.symm.trans hc), fun _ => ⟨?_, rfl, hb⟩, by simp⟩
      have : x.counted + 1 < x.branches.length := by omega
      show Waiting { x with counted := x.counted + 1, settled := false }
      unfold Waiting
      cases hk : x.kind with
      | first => exact absurd hk hf
      | all => exact this
      | ended => exact this
    cases hkind : x.kind with
    | first =>
      have hc : (m.withReady rest).count j b = k.settle j none := by
        refine (hcount _).trans ?_
        simp only [← hk, hjoin, hkind]
      exact hcall none hc (by simp) (by simp [hkind])
    | ended =>
      have hc : (m.withReady rest).count j b =
          if x.counted + 1 == x.branches.length then k.settle j none else k := by
        refine (hcount _).trans ?_
        simp only [← hk, hjoin, hkind]
      by_cases hlast : x.counted + 1 = x.branches.length
      · exact hcall none (hc.trans (if_pos (by simpa using hlast))) (by simp) (by simp [hkind])
      · exact hwait (hc.trans (if_neg (by simpa using hlast))) (by simp [hkind]) hlast
          (by simp [hkind])
    | all =>
      have hsame : k.outcome? b = m.outcome? b := rfl
      cases hf : failureOf (m.outcome? b) with
      | some f =>
        have hc : (m.withReady rest).count j b = k.settle j (some f) := by
          refine (hcount _).trans ?_
          simp only [← hk, hjoin, hkind, hsame, hf]
        refine hcall (some f) hc (fun g hg => ?_) (by simp)
        cases hg
        exact failureOf_eq_some.1 hf
      | none =>
        have hc : (m.withReady rest).count j b =
            if x.counted + 1 == x.branches.length then k.settle j none else k := by
          refine (hcount _).trans ?_
          simp only [← hk, hjoin, hkind, hsame, hf]
        by_cases hlast : x.counted + 1 = x.branches.length
        · exact hcall none (hc.trans (if_pos (by simpa using hlast))) (by simp) fun _ _ =>
            h.succeeded_of_last hr hlast hs hkind (failureOf_eq_none.1 hf)
        · exact hwait (hc.trans (if_neg (by simpa using hlast))) (by simp [hkind]) hlast fun _ =>
            failureOf_eq_none.1 hf

theorem Balanced.count (h : Balanced none m) (hr : m.ready = .notify b (.count j) :: rest) :
    Balanced none ((m.withReady rest).count j b) := by
  obtain ⟨s, e, jobs, heq, hd⟩ := h.count_cases hr
  rw [heq]
  exact h.recount hr hd

end Recount

/-! ## Late failures -/

/-- The log record of the failure of a branch that nobody waited for. -/
def lateFailure (f : Failure) : Happening :=
  .log .warning logger s!"Detached branch failed after its step settled: {f.message}" []

/-- Striking a branch off logs its failure. -/
theorem store_forget {f : Failure} (h : m.outcome? b = some (.error f)) :
    (m.forget b).store = m.store.write (lateFailure f) := by
  have hf : failureOf (m.outcome? b) = some f := failureOf_eq_some.2 h
  unfold forget
  dsimp only
  rw [show ({ m with detached := m.detached.filter (· != b) } : Schedule).outcome? b =
    m.outcome? b from rfl, hf]
  rfl

theorem store_forget_cases (m : Schedule) (b : Nat) : (m.forget b).store = m.store ∨
    ∃ f, (m.forget b).store = m.store.write (lateFailure f) := by
  unfold forget
  dsimp only
  split
  · next f _ => exact Or.inr ⟨f, rfl⟩
  · exact Or.inl rfl

/-! ## Jobs and steps -/

theorem Balanced.wake {rest : List Job} {j : Nat} (h : Balanced none m) (ha : m.active = none)
    (hr : m.ready = .wake j :: rest) : Balanced none ((m.withReady rest).wake j) := by
  obtain ⟨hj, -⟩ := h.waking j (by rw [hr]; exact List.mem_cons_self)
  have hp : Balanced (some (m.join j).owner) (m.withReady rest) :=
    h.pop hr (fun _ => rfl) (fun _ _ => nofun)
  have hd : Balanced (some (m.join j).owner) ((m.withReady rest).detachOpen (m.join j).branches) :=
    hp.detachOpen (h.branches j hj)
  have had : ((m.withReady rest).detachOpen (m.join j).branches).active = none :=
    (active_detachOpen _ _).trans ha
  unfold Schedule.wake
  dsimp only
  split
  · exact hp.activate ha _
  · exact hd.activate had _
  · split
    · exact hp.activate ha _
    · split
      · exact hd.activate had _
      · exact hp.activate ha _

theorem Balanced.doJob {rest : List Job} {job : Job} (h : Balanced none m) (ha : m.active = none)
    (hr : m.ready = job :: rest) : Balanced none ((m.withReady rest).doJob job) := by
  cases job with
  | resume b =>
    exact (h.pop hr (fun _ => rfl) (fun _ _ => nofun)).activate ha _
  | notify b n =>
    cases n with
    | count j => exact h.count hr
    | forget => exact (h.popForget hr).forget b
  | wake j => exact h.wake ha hr
  | ring b =>
    exact (h.pop hr (fun _ => rfl) (fun _ _ => nofun)).enqueueResume

variable {body : Procedure → Routine Value}

/-- The parts of the run that are waited for are the branches that start for them. -/
theorem startAndJoin_eq (m : Schedule) (b : Nat) (kind : JoinKind) {ps : List Procedure}
    (hps : ps ≠ []) (resume : Outcome → Routine Value) : m.startAndJoin body b kind ps resume =
      (m.spawnAll (ps.map body)).2.joinOn b kind (List.range' m.branches.size ps.length) resume := by
  cases ps with
  | nil => exact absurd rfl hps
  | cons p ps =>
    have hb := spawnAll_fst ((p :: ps).map body) m
    rw [List.length_map] at hb
    rw [← hb]
    rfl

theorem Balanced.startAndJoin (h : Balanced (some b) m) (ha : m.active = none) (kind : JoinKind)
    (ps : List Procedure) (resume : Outcome → Routine Value) :
    Balanced none (m.startAndJoin body b kind ps resume) := by
  by_cases hps : ps = []
  · subst hps
    exact h.activate ha _
  · have hs : Balanced (some b) (m.spawnAll (ps.map body)).2 := h.spawnAll _
    rw [startAndJoin_eq m b kind hps]
    refine hs.joinOn (by rw [spawnAll_snd]; exact ha) kind (fun b' hb' => ?_) ?_ resume
    · rw [size_spawnAll, List.length_map]
      exact (List.mem_range'_1.1 hb').2
    · simpa using hps

theorem Balanced.wait (h : Balanced (some b) m) (ha : m.active = none) (w : Wait)
    (resume : Outcome → Routine Value) : Balanced none (m.wait body b w resume) := by
  cases w with
  | call p => exact h.activate ha _
  | sleep seconds => exact h.sleep ha seconds resume
  | all ps => exact h.startAndJoin ha .all ps resume
  | first ps => exact h.startAndJoin ha .first ps resume
  | detached =>
    unfold Schedule.wait
    dsimp only
    split
    · exact h.activate ha _
    · next hne => exact h.joinOn ha .ended h.left (by simpa using hne) _

theorem joinOn_idle (m : Schedule) (b : Nat) (kind : JoinKind) (bs : List Nat)
    (resume : Outcome → Routine Value) : m.joinOn b kind bs resume = m.idle.joinOn b kind bs resume := by
  set x : Join := ⟨kind, b, bs, 0, false, none⟩ with hx
  have h := watchAll_idle (.count m.joins.size) bs (m.addJoin x)
  show _ = ((m.addJoin x).idle.watchAll (.count m.joins.size) bs).suspend b resume
  rw [h]
  rfl

theorem startAndJoin_idle (m : Schedule) (b : Nat) (kind : JoinKind) (ps : List Procedure)
    (resume : Outcome → Routine Value) :
    m.startAndJoin body b kind ps resume = m.idle.startAndJoin body b kind ps resume := by
  by_cases hps : ps = []
  · subst hps
    rfl
  · rw [startAndJoin_eq m b kind hps, startAndJoin_eq m.idle b kind hps, spawnAll_snd, spawnAll_snd,
      joinOn_idle]
    rfl

/-- An action of the active branch does not look at the turn that it ends. -/
theorem advance_idle (m : Schedule) (b : Nat) (r : Routine Value) :
    m.advance body b r = m.idle.advance body b r := by
  cases r with
  | done v => rfl
  | fail f => rfl
  | get k => rfl
  | put s r => rfl
  | await w k =>
    cases w with
    | call p => rfl
    | sleep seconds => rfl
    | all ps => exact startAndJoin_idle m b .all ps k
    | first ps => exact startAndJoin_idle m b .first ps k
    | detached =>
      unfold advance wait
      dsimp only
      by_cases hd : m.detached.isEmpty
      · rw [if_pos hd, if_pos (show m.idle.detached.isEmpty = true from hd)]
        rfl
      · rw [if_neg hd, if_neg (show ¬m.idle.detached.isEmpty = true from hd)]
        exact joinOn_idle m b .ended m.detached _

/-- The schedule over another store. -/
def withStore (m : Schedule) (s : Store) : Schedule := { m with store := s }

theorem Balanced.withStore (h : Balanced held m) (s : Store) : Balanced held (m.withStore s) :=
  h.congr rfl (fun _ => rfl) (fun _ => rfl) rfl rfl rfl rfl rfl

theorem Balanced.advance (h : Balanced (some b) m) (ha : m.active = none) (r : Routine Value) :
    Balanced none (m.advance body b r) := by
  cases r with
  | done v => exact h.finish ha _
  | fail f => exact h.finish ha _
  | get k => exact h.activate ha _
  | put s r => exact (h.withStore s).activate ha r
  | await w k => exact h.wait ha w k

/-- The three sorts of steps. -/
theorem step_cases {m' : Schedule} (hm : m.step body = some m') :
    (∃ b r, m.active = some (b, r) ∧ m' = m.advance body b r) ∨
      (∃ job rest, m.active = none ∧ m.ready = job :: rest ∧
        m' = (m.withReady rest).doJob job) ∨
      (m.active = none ∧ m.ready = [] ∧ m.jump = some m') := by
  unfold Schedule.step at hm
  split at hm
  · next b r ha => exact Or.inl ⟨b, r, ha, (Option.some.inj hm).symm⟩
  · next ha =>
    split at hm
    · next job rest hr => exact Or.inr (Or.inl ⟨job, rest, ha, hr, (Option.some.inj hm).symm⟩)
    · next hr => exact Or.inr (Or.inr ⟨ha, hr, hm⟩)

/-- **Every step keeps a schedule balanced.** -/
theorem Balanced.step {m' : Schedule} (h : Balanced none m) (hm : m.step body = some m') :
    Balanced none m' := by
  rcases step_cases hm with ⟨b, r, ha, rfl⟩ | ⟨job, rest, ha, hr, rfl⟩ | ⟨-, hr, hm⟩
  · rw [advance_idle]
    exact (h.take ha).advance rfl r
  · exact h.doJob ha hr
  · exact h.jump hr hm

/-! ## Runs -/

theorem balanced_ofStore (s : Store) : Balanced none (ofStore s) := by
  constructor
  case silent => exact fun b _ => notices_of_size_le (m := ofStore s) (Nat.zero_le b)
  all_goals simp [ofStore, Schedule.prospects, turn, waitsIn]

@[simp] theorem outcome?_launch (m : Schedule) (r : Routine Value) (b : Nat) :
    (m.launch r).2.outcome? b = m.outcome? b := by
  show ((m.branches.push default).getD b default).outcome? = _
  rw [branch_push]
  split
  · next hb => exact (outcome?_of_size_le (Nat.le_of_eq hb.symm)).symm
  · rfl

@[simp] theorem notices_launch (m : Schedule) (r : Routine Value) (b : Nat) :
    ((m.launch r).2.branch b).notices = (m.branch b).notices := by
  show ((m.branches.push default).getD b default).notices = _
  rw [branch_push]
  split
  · next hb => exact (notices_of_size_le (Nat.le_of_eq hb.symm)).symm
  · rfl

theorem owed_launch (m : Schedule) (r : Routine Value) (p : Job → Bool) :
    (m.launch r).2.owed p = m.owed p := by
  have hsize : (m.launch r).2.branches.size = m.branches.size + 1 := Array.size_push _
  rw [owed, hsize, Finset.sum_range_succ]
  simp only [notices_launch, notices_of_size_le le_rfl, List.countP_nil, Nat.add_zero]
  rfl

/-- A routine that begins has the turn of a new branch, as if that branch had been started and had
come to the head of the queue. -/
theorem Balanced.launch (h : Balanced none m) (ha : m.active = none) (r : Routine Value) :
    Balanced none (m.launch r).2 := by
  have hs := h.spawnAll [r]
  have hready : (m.spawnAll [r]).2.ready = m.ready ++ [.resume m.branches.size] := by
    rw [ready_spawnAll]
    rfl
  have hactive : (m.spawnAll [r]).2.active = none := by rw [spawnAll_snd]; exact ha
  refine hs.transfer ?_ (fun b => ?_) ?_ (fun b => ?_) (fun b j => ?_) (fun j hj => ?_) (fun j => ?_)
    (fun b j => ?_) (fun b hb => ?_) (fun b hb => ?_) fun b hb => ?_
  · rw [size_spawnAll]
    exact Array.size_push _
  · rw [outcome?_launch, outcome?_spawnAll]
  · rw [joins_spawnAll]
    rfl
  · rw [hready, List.countP_append, List.countP_singleton, turn, turn, hactive]
    show (if _ then 1 else 0) + m.ready.countP _ + m.timers.countP _ + _ =
      _ + (_ + if m.branches.size == b then 1 else 0) + _ + _
    rw [spawnAll_snd]
    simp only [beq_iff_eq]
    omega
  · rw [hready, List.mem_append, or_iff_left (by simp)]
    rfl
  · rw [hready]
    exact List.mem_append_left _ hj
  · rw [owed_launch, owed_spawnAll]
    exact fun _ => rfl
  · rw [notices_launch, notices_spawnAll]
  · rw [isOpen_spawnAll] at hb
    rw [notices_launch]
    exact h.silent b hb
  · rw [isOpen_spawnAll]
    exact (h.noticed b _ hb).1
  · rw [size_spawnAll]
    exact Nat.lt_add_right _ (h.left b hb)

/-! ## Steps in a row -/

/-- The steps that a schedule makes, at most as many as given, and where they lead. -/
def trail (body : Procedure → Routine Value) :
    Nat → Schedule → List (Schedule × Schedule) × Schedule
  | 0, m => ([], m)
  | n + 1, m =>
    match m.step body with
    | some m' => ((trail body n m').1 ++ [(m, m')], (trail body n m').2)
    | none => ([], m)

end Schedule

end Conductor
