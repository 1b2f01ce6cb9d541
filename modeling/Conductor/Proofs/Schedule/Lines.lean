import Conductor.Proofs.Schedule.Frame
import Conductor.Proofs.Schedule.Ownership

/-!
# Lines of execution

To the code of one branch all others are a background that changes the store while it waits. What
can be said about a branch therefore has three parts: what its code may do from here on, what it
relies on while others have their turn, and what it guarantees to them. A `Discipline` fixes these
parts. It is lawful if whatever the code may do leads to something that it may do, if the changes
that it makes are among those that the others rely on, and if a branch that goes on behind a join
may go on with every outcome that the branches of the join explain.

`Discipline.Config` says that every branch of a schedule is where its discipline allows it to be:
it has its turn, it rests, or it waits in a join.

The operations on schedules keep such a configuration: the branch that a step has in its hands goes
on (`Config.activate`), sleeps, ends or waits for others, and new branches begin where their sort
allows it (`Config.spawnAll`, `Config.launch`).
-/

namespace Conductor

namespace Schedule

/-! ## Disciplines -/

/-- What a wait starts side by side, and how it is waited for. -/
def sides : Wait → Option (JoinKind × List Procedure)
  | .all ps => some (.all, ps)
  | .first ps => some (.first, ps)
  | .call _ | .sleep _ | .detached => none

/-- Where a branch is: it has its turn, it will go on with a routine, or it waits for others. Each
comes with the store as the branch has last seen it. -/
inductive Stage (Γ : Type) where
  | turn (r : Routine Value) (s : Store)
  | rest (r : Routine Value) (s : Store)
  | joined (kind : JoinKind) (δs : List Γ) (k : Outcome → Routine Value) (s : Store)

/-- What the branches of a run may do, by the sorts `Γ` of branches. -/
structure Discipline (Γ : Type) where
  body : Procedure → Routine Value
  /-- The sort of the branch that runs a part. -/
  child : Procedure → Γ
  may : Γ → Stage Γ → Prop
  /-- What the branches of a sort have established when they end. -/
  post : Γ → Except Failure Value → Store → Prop
  /-- How the store may change while a branch waits. -/
  rely : Store → Store → Prop
  /-- How the store may change in one step. -/
  guarantee : Store → Store → Prop

namespace Discipline

variable {Γ : Type}

/-- The outcome of a join, given what its branches establish. -/
def Explains (D : Discipline Γ) : JoinKind → List Γ → Outcome → Store → Prop
  | .all, δs, .ok vs, s => List.Forall₂ (fun δ v => D.post δ (.ok v) s) δs vs
  | .all, δs, .error f, s => ∃ δ ∈ δs, D.post δ (.error f) s
  | .first, δs, o, s => ∃ δ ∈ δs, ∃ x, D.post δ x s ∧ o = x.map fun v => [v]
  | .ended, _, o, _ => o = .ok []

/-- The moves that a branch makes: the later stage first. -/
inductive Goes (D : Discipline Γ) : Stage Γ → Stage Γ → Prop where
  | get (k s) : Goes D (.turn (k s) s) (.turn (.get k) s)
  | put (r s t) : Goes D (.turn r t) (.turn (.put t r) s)
  | call (p k s) : Goes D (.turn ((D.body p).continueWith k) s) (.turn (.await (.call p) k) s)
  | sleep (x k s) : Goes D (.rest (k (.ok [])) s) (.turn (.await (.sleep x) k) s)
  | resume (r) {s t} (h : D.rely s t) : Goes D (.turn r t) (.rest r s)
  | join (k s) {w kind ps} (h : sides w = some (kind, ps)) :
    Goes D (.joined kind (ps.map D.child) k s) (.turn (.await w k) s)
  | skip (k s) {w kind} (h : sides w = some (kind, [])) :
    Goes D (.turn (k (.ok [])) s) (.turn (.await w k) s)
  | drain (δs k s) :
    Goes D (.joined .ended δs (fun _ => .await .detached k) s) (.turn (.await .detached k) s)
  | drained (k s) : Goes D (.turn (k (.ok [])) s) (.turn (.await .detached k) s)
  | goOn (k) {kind δs o s t} (h : D.rely s t) (ho : D.Explains kind δs o t) :
    Goes D (.turn (k o) t) (.joined kind δs k s)

/-- The moves that a branch makes, and where the branches begin that it starts. -/
inductive Next (D : Discipline Γ) : Stage Γ → Stage Γ → Prop where
  | go {x y} (h : Goes D x y) : Next D x y
  | start (k s) {w kind ps p} (h : sides w = some (kind, ps)) (hp : p ∈ ps) :
    Next D (.rest (D.body p) s) (.turn (.await w k) s)

/-- What the branches may do is closed under what they do, and they guarantee each other what they
rely on. -/
structure Lawful (D : Discipline Γ) : Prop where
  refl : ∀ s, D.rely s s
  trans : ∀ {s t u}, D.rely s t → D.rely t u → D.rely s u
  relied : ∀ {s t}, D.guarantee s t → D.rely s t
  clock : ∀ s x, D.guarantee s { s with clock := x }
  late : ∀ s f, D.guarantee s (s.write (lateFailure f))
  lasting : ∀ {γ o s t}, D.post γ o s → D.rely s t → D.post γ o t
  done : ∀ {γ v s}, D.may γ (.turn (.done v) s) → D.post γ (.ok v) s
  fail : ∀ {γ f s}, D.may γ (.turn (.fail f) s) → D.post γ (.error f) s
  get : ∀ {γ k s}, D.may γ (.turn (.get k) s) → D.may γ (.turn (k s) s)
  put : ∀ {γ r s t}, D.may γ (.turn (.put t r) s) → D.guarantee s t ∧ D.may γ (.turn r t)
  call : ∀ {γ p k s}, D.may γ (.turn (.await (.call p) k) s) →
    D.may γ (.turn ((D.body p).continueWith k) s)
  sleep : ∀ {γ x k s}, D.may γ (.turn (.await (.sleep x) k) s) → D.may γ (.rest (k (.ok [])) s)
  resume : ∀ {γ r s t}, D.may γ (.rest r s) → D.rely s t → D.may γ (.turn r t)
  sides : ∀ {γ w k s kind ps}, D.may γ (.turn (.await w k) s) → sides w = some (kind, ps) →
    (∀ p ∈ ps, D.may (D.child p) (.rest (D.body p) s)) ∧
      D.may γ (.joined kind (ps.map D.child) k s) ∧ (ps = [] → D.may γ (.turn (k (.ok [])) s))
  detached : ∀ {γ k s}, D.may γ (.turn (.await .detached k) s) →
    (∀ δs, D.may γ (.joined .ended δs (fun _ => .await .detached k) s)) ∧
      D.may γ (.turn (k (.ok [])) s)
  goOn : ∀ {γ kind δs k s t o}, D.may γ (.joined kind δs k s) → D.rely s t →
    D.Explains kind δs o t → D.may γ (.turn (k o) t)

end Discipline

/-! ## Resting -/

/-- A branch that goes on by itself, in the queue or behind a timer. -/
def Resting (m : Schedule) (b : Nat) : Prop :=
  .resume b ∈ m.ready ∨ .ring b ∈ m.ready ∨ ∃ t ∈ m.timers, t.branch = b

section Waiting

variable {m : Schedule} {b : Nat}

/-- A branch that a step has in its hands neither rests nor waits. -/
theorem not_resting (h : m.prospects b = 0) : ¬m.Resting b := by
  intro hr
  rw [Schedule.prospects] at h
  rcases hr with hr | hr | ⟨t, ht, hb⟩
  · have := List.countP_pos_iff.2 ⟨_, hr, show m.lets b (.resume b) = true by simp [lets]⟩
    omega
  · have := List.countP_pos_iff.2 ⟨_, hr, show m.lets b (.ring b) = true by simp [lets]⟩
    omega
  · have := (List.countP_pos_iff (p := (·.branch == b))).2 ⟨t, ht, by simpa using hb⟩
    omega

theorem owner_ne (h : m.prospects b = 0) {j : Nat} (hj : j < m.joins.size) (hl : m.Live j) :
    (m.join j).owner ≠ b := by
  rintro rfl
  rcases hl with hs | hw
  · have := prospects_pos_of_unsettled hj hs
    omega
  · have := prospects_pos_of_wake hw
    omega

theorem Balanced.lt_of_resting {held : Option Nat} (h : Balanced held m) (hr : m.Resting b) :
    b < m.branches.size := by
  by_contra hge
  have hp := h.prospects b
  rw [if_neg (c := b < m.branches.size ∧ _) (fun hc => hge hc.1)] at hp
  exact not_resting (by omega) hr

/-- Notices that come into the queue let nobody go on. -/
theorem mem_of_mem_append_notify {α : Type} {f : α → Nat} {g : α → Notice} {l : List α}
    {jobs : List Job} {job : Job} (hjob : ∀ d n, job ≠ .notify d n)
    (h : job ∈ jobs ++ l.map fun a => .notify (f a) (g a)) : job ∈ jobs := by
  rcases List.mem_append.1 h with h | h
  · exact h
  · obtain ⟨a, -, heq⟩ := List.mem_map.1 h
    exact absurd heq.symm (hjob _ _)

end Waiting

namespace Discipline

variable {Γ : Type} {D : Discipline Γ} {held : Option Nat} {γ : Nat → Γ} {st : Nat → Stage Γ}
  {m m' : Schedule} {b : Nat}

/-! ## Configurations -/

/-- Every branch is where its discipline allows it to be, and those that have ended have established
what they are to establish. The branch that a step has in its hands is nowhere. -/
structure Config (D : Discipline Γ) (held : Option Nat) (γ : Nat → Γ) (st : Nat → Stage Γ)
    (m : Schedule) : Prop where
  may : ∀ b < m.branches.size, m.isOpen b = true → held ≠ some b → D.may (γ b) (st b)
  turn : ∀ b r, m.active = some (b, r) → st b = .turn r m.store
  rest : ∀ b, m.Resting b → ∃ s, D.rely s m.store ∧ st b = .rest ((m.branch b).resume (.ok [])) s
  joined : ∀ j < m.joins.size, m.Live j → ∃ s, D.rely s m.store ∧ st (m.join j).owner =
    .joined (m.join j).kind ((m.join j).branches.map γ) (m.branch (m.join j).owner).resume s
  ended : ∀ b o, m.outcome? b = some o → D.post (γ b) o m.store
  below : ∀ j < m.joins.size, (m.join j).kind ≠ .ended → ∀ b ∈ (m.join j).branches,
    (m.join j).owner < b

theorem Config.take (h : D.Config none γ st m) : D.Config (some b) γ st m.idle :=
  ⟨fun b' hb' ho _ => h.may b' hb' ho nofun, nofun, h.rest, h.joined, h.ended, h.below⟩

theorem Config.pop {job : Job} {rest : List Job} (h : D.Config none γ st m)
    (hr : m.ready = job :: rest) (held : Option Nat) : D.Config held γ st (m.withReady rest) := by
  have hmem : ∀ {x : Job}, x ∈ rest → x ∈ m.ready := fun hx => by
    rw [hr]
    exact List.mem_cons_of_mem _ hx
  refine ⟨fun b' hb' ho _ => h.may b' hb' ho nofun, h.turn, fun b' hb' => h.rest b' ?_,
    fun j hj hl => h.joined j hj ?_, h.ended, h.below⟩
  · rcases hb' with hb' | hb' | hb'
    · exact Or.inl (hmem hb')
    · exact Or.inr (Or.inl (hmem hb'))
    · exact Or.inr (Or.inr hb')
  · rcases hl with hl | hl
    · exact Or.inl hl
    · exact Or.inr (hmem hl)

/-- While nobody has the turn the store may change. -/
theorem Config.withStore (hD : D.Lawful) (h : D.Config held γ st m) (ha : m.active = none)
    {s : Store} (hs : D.rely m.store s) : D.Config held γ st (m.withStore s) := by
  refine ⟨h.may, fun b r hb => ?_, fun b hb => ?_, fun j hj hl => ?_, fun b o ho => ?_, h.below⟩
  · cases ha.symm.trans hb
  · obtain ⟨t, ht, heq⟩ := h.rest b hb
    exact ⟨t, hD.trans ht hs, heq⟩
  · obtain ⟨t, ht, heq⟩ := h.joined j hj hl
    exact ⟨t, hD.trans ht hs, heq⟩
  · exact hD.lasting (h.ended b o ho) hs

/-- Whatever touches no branch, no join and nobody's rest keeps a configuration. -/
theorem Config.congr (h : D.Config held γ st m) (hs : m'.store = m.store)
    (hn : m'.branches.size = m.branches.size) (ho : ∀ b, m'.outcome? b = m.outcome? b)
    (hr : ∀ b, (m'.branch b).resume = (m.branch b).resume) (ha : m'.active = m.active)
    (hrest : ∀ b, m'.Resting b → m.Resting b) (hj : m'.joins.size = m.joins.size)
    (hk : ∀ j, (m'.join j).kind = (m.join j).kind)
    (hw : ∀ j, (m'.join j).owner = (m.join j).owner)
    (hb : ∀ j, (m'.join j).branches = (m.join j).branches)
    (hl : ∀ j, m'.Live j → m.Live j) : D.Config held γ st m' := by
  constructor
  case may =>
    intro b hb hopen
    rw [isOpen, ho] at hopen
    exact h.may b (hn ▸ hb) hopen
  case turn =>
    intro b r hb
    rw [ha] at hb
    rw [hs]
    exact h.turn b r hb
  case rest =>
    intro b hb
    rw [hs, hr]
    exact h.rest b (hrest b hb)
  case joined =>
    intro j hjs hlive
    rw [hs, hk, hw, hb, hr]
    exact h.joined j (hj ▸ hjs) (hl j hlive)
  case ended =>
    intro b o hb
    rw [ho] at hb
    rw [hs]
    exact h.ended b o hb
  case below =>
    intro j hjs
    rw [hk, hw, hb]
    exact h.below j (hj ▸ hjs)

/-- The branch that a step has in its hands comes to a new stage, or it ends. -/
theorem Config.change (hD : D.Lawful) (h : D.Config (some b) γ st m) (hB : Balanced (some b) m)
    (x : Stage Γ) (hs : m'.store = m.store) (hn : m'.branches.size = m.branches.size)
    (ho : ∀ d ≠ b, m'.outcome? d = m.outcome? d)
    (hr : ∀ d ≠ b, (m'.branch d).resume = (m.branch d).resume)
    (hmay : m'.isOpen b = true → D.may (γ b) x)
    (hended : ∀ o, m'.outcome? b = some o → D.post (γ b) o m.store)
    (hturn : ∀ d r, m'.active = some (d, r) → d = b ∧ x = .turn r m.store)
    (hrest : ∀ d, m'.Resting d →
      m.Resting d ∨ d = b ∧ x = .rest ((m'.branch b).resume (.ok [])) m.store)
    (hjoined : ∀ j < m'.joins.size,
      (j < m.joins.size ∧ m'.join j = m.join j ∧ (m'.Live j → m.Live j)) ∨
      ((m'.join j).owner = b ∧ ((m'.join j).kind ≠ .ended → ∀ d ∈ (m'.join j).branches, b < d) ∧
        x = .joined (m'.join j).kind ((m'.join j).branches.map γ) (m'.branch b).resume m.store)) :
    D.Config none γ (Function.update st b x) m' := by
  obtain ⟨-, -, hp⟩ := hB.of_held
  have hne : ∀ {d}, d ≠ b → Function.update st b x d = st d := fun hd =>
    Function.update_of_ne hd x st
  constructor
  case may =>
    intro d hd hopen _
    by_cases heq : d = b
    · subst heq
      rw [Function.update_self]
      exact hmay hopen
    · rw [hne heq]
      rw [isOpen, ho d heq] at hopen
      exact h.may d (hn ▸ hd) hopen fun hc => heq (Option.some.inj hc).symm
  case turn =>
    intro d r hd
    obtain ⟨rfl, rfl⟩ := hturn d r hd
    rw [Function.update_self, hs]
  case rest =>
    intro d hd
    rcases hrest d hd with hd' | ⟨rfl, rfl⟩
    · have heq : d ≠ b := by
        rintro rfl
        exact not_resting hp hd'
      rw [hne heq, hs, hr d heq]
      exact h.rest d hd'
    · exact ⟨m.store, by rw [hs]; exact hD.refl _, by rw [Function.update_self]⟩
  case joined =>
    intro j hj hl
    rcases hjoined j hj with ⟨hj', heq, hlive⟩ | ⟨howner, -, hx⟩
    · have hb := owner_ne hp hj' (hlive hl)
      rw [heq, hne hb, hs, hr _ hb]
      exact h.joined j hj' (hlive hl)
    · refine ⟨m.store, by rw [hs]; exact hD.refl _, ?_⟩
      rw [howner, Function.update_self]
      exact hx
  case ended =>
    intro d o hd
    rw [hs]
    by_cases heq : d = b
    · subst heq
      exact hended o hd
    · rw [ho d heq] at hd
      exact h.ended d o hd
  case below =>
    intro j hj
    rcases hjoined j hj with ⟨hj', heq, -⟩ | ⟨howner, hlt, -⟩
    · rw [heq]
      exact h.below j hj'
    · rw [howner]
      exact hlt

/-! ## The branch in hand goes on -/

theorem Config.activate (hD : D.Lawful) (h : D.Config (some b) γ st m)
    (hB : Balanced (some b) m) {r : Routine Value} (hr : D.may (γ b) (.turn r m.store)) :
    D.Config none γ (Function.update st b (.turn r m.store)) (m.activate b r) := by
  refine h.change hD hB _ rfl rfl (fun _ _ => rfl) (fun _ _ => rfl) (fun _ => hr)
    (fun o ho => h.ended b o ho) (fun d r' hd => ?_) (fun d hd => Or.inl hd)
    fun j hj => Or.inl ⟨hj, rfl, id⟩
  cases hd
  exact ⟨rfl, rfl⟩

theorem Config.sleep (hD : D.Lawful) (h : D.Config (some b) γ st m) (hB : Balanced (some b) m)
    (x : Binary64) {k : Outcome → Routine Value}
    (hr : D.may (γ b) (.rest (k (.ok [])) m.store)) :
    D.Config none γ (Function.update st b (.rest (k (.ok [])) m.store)) (m.sleep b x k) := by
  obtain ⟨hb, ho, -⟩ := hB.of_held
  have hout : ∀ o, (m.suspend b k).outcome? b = some o → D.post (γ b) o m.store := fun o hc =>
    h.ended b o ((outcome?_suspend m b k b).symm.trans hc)
  unfold Schedule.sleep
  dsimp only
  split
  · refine h.change hD hB _ rfl (m.size_updateBranch b _) (fun d _ => outcome?_suspend m b k d)
      (fun d hd => congrArg Branch.resume (branch_suspend_of_ne hd hb k)) (fun _ => hr) hout
      (fun d r hd => nomatch hd) (fun d hd => ?_) fun j hj => Or.inl ⟨hj, rfl, id⟩
    rcases hd with hd | hd | ⟨t, ht, htb⟩
    · exact Or.inl (Or.inl hd)
    · exact Or.inl (Or.inr (Or.inl hd))
    · rcases List.mem_append.1 ht with ht | ht
      · exact Or.inl (Or.inr (Or.inr ⟨t, ht, htb⟩))
      · rw [List.mem_singleton.1 ht] at htb
        exact Or.inr ⟨htb.symm, congrArg (Stage.rest · m.store)
          (congrFun (resume_suspend hb k) (.ok [])).symm⟩
  · refine h.change hD hB _ rfl (m.size_updateBranch b _) (fun d _ => outcome?_suspend m b k d)
      (fun d hd => congrArg Branch.resume (branch_suspend_of_ne hd hb k)) (fun _ => hr) hout
      (fun d r hd => nomatch hd) (fun d hd => ?_) fun j hj => Or.inl ⟨hj, rfl, fun hl => ?_⟩
    · rcases hd with hd | hd | hd
      · rcases List.mem_append.1 hd with hd | hd
        · exact Or.inl (Or.inl hd)
        · cases List.mem_singleton.1 hd
          exact Or.inr ⟨rfl, congrArg (Stage.rest · m.store)
            (congrFun (resume_suspend hb k) (.ok [])).symm⟩
      · rcases List.mem_append.1 hd with hd | hd
        · exact Or.inl (Or.inr (Or.inl hd))
        · cases List.mem_singleton.1 hd
      · exact Or.inl (Or.inr (Or.inr hd))
    · rcases hl with hl | hl
      · exact Or.inl hl
      · rcases List.mem_append.1 hl with hl | hl
        · exact Or.inr hl
        · cases List.mem_singleton.1 hl

theorem Config.finish (hD : D.Lawful) (h : D.Config (some b) γ st m) (hB : Balanced (some b) m)
    {o : Except Failure Value} (ho : D.post (γ b) o m.store) :
    D.Config none γ (Function.update st b (st b)) (m.finish b o) := by
  obtain ⟨hb, -, -⟩ := hB.of_held
  have hout := m.outcome?_finish o hb
  refine h.change hD hB _ rfl (m.size_finish b o) (fun d hd => by rw [hout, if_neg hd])
    (fun d hd => by rw [m.branch_finish o hb, if_neg hd]) (fun hopen => ?_) (fun o' ho' => ?_)
    (fun d r hd => nomatch hd) (fun d hd => ?_) fun j hj => Or.inl ⟨hj, rfl, fun hl => ?_⟩
  · rw [isOpen, hout, if_pos rfl] at hopen
    cases hopen
  · rw [hout, if_pos rfl] at ho'
    cases ho'
    exact ho
  · rcases hd with hd | hd | hd
    · exact Or.inl (Or.inl (mem_of_mem_append_notify (by simp) hd))
    · exact Or.inl (Or.inr (Or.inl (mem_of_mem_append_notify (by simp) hd)))
    · exact Or.inl (Or.inr (Or.inr hd))
  · rcases hl with hl | hl
    · exact Or.inl hl
    · exact Or.inr (mem_of_mem_append_notify (by simp) hl)

theorem Config.joinOn (hD : D.Lawful) (h : D.Config (some b) γ st m) (hB : Balanced (some b) m)
    (kind : JoinKind) (bs : List Nat) {k : Outcome → Routine Value}
    (hr : D.may (γ b) (.joined kind (bs.map γ) k m.store))
    (hlt : kind ≠ .ended → ∀ d ∈ bs, b < d) :
    D.Config none γ (Function.update st b (.joined kind (bs.map γ) k m.store))
      (m.joinOn b kind bs k) := by
  obtain ⟨hb, -, -⟩ := hB.of_held
  have hready : ∀ {job : Job}, (∀ d n, job ≠ .notify d n) →
      job ∈ (m.joinOn b kind bs k).ready → job ∈ m.ready := by
    intro job hjob hmem
    rw [ready_joinOn] at hmem
    exact mem_of_mem_append_notify hjob hmem
  have htimers : (m.joinOn b kind bs k).timers = m.timers := timers_watchAll _ _ _
  refine h.change hD hB _ (store_watchAll _ _ _) (size_joinOn _ _ _ _ _)
    (fun d _ => outcome?_joinOn _ _ _ _ _ d) (fun d hd => resume_joinOn_of_ne hd hb _ _ _)
    (fun _ => hr) (fun o ho => h.ended b o ((outcome?_joinOn _ _ _ _ _ b).symm.trans ho))
    (fun d r hd => nomatch hd) (fun d hd => ?_) fun j hj => ?_
  · rcases hd with hd | hd | hd
    · exact Or.inl (Or.inl (hready (by simp) hd))
    · exact Or.inl (Or.inr (Or.inl (hready (by simp) hd)))
    · rw [htimers] at hd
      exact Or.inl (Or.inr (Or.inr hd))
  · rw [size_joins_joinOn] at hj
    by_cases hlast : j = m.joins.size
    · refine Or.inr ?_
      rw [join_joinOn, if_pos hlast, resume_joinOn hb]
      exact ⟨rfl, hlt, rfl⟩
    · refine Or.inl ⟨by omega, ?_, fun hl => ?_⟩
      · rw [join_joinOn, if_neg hlast]
      · rw [Live, join_joinOn, if_neg hlast] at hl
        rcases hl with hl | hl
        · exact Or.inl hl
        · exact Or.inr (hready (by simp) hl)

/-! ## New branches -/

/-- Something that is known of the branches below `n`, and of those behind them by the parts that
they run. -/
def withNew {α : Type} (f : Nat → α) (n : Nat) (g : Procedure → α) (ps : List Procedure)
    (d : Nat) : α := if d < n then f d else (ps[d - n]?).elim (f d) g

theorem withNew_old {α : Type} (f : Nat → α) {n d : Nat} (g : Procedure → α)
    (ps : List Procedure) (h : d < n) : withNew f n g ps d = f d := if_pos h

theorem withNew_new {α : Type} (f : Nat → α) (n : Nat) (g : Procedure → α) {ps : List Procedure}
    {i : Nat} (h : i < ps.length) : withNew f n g ps (n + i) = g ps[i] := by
  rw [withNew, if_neg (by omega), Nat.add_sub_cancel_left, List.getElem?_eq_getElem h]
  rfl

theorem map_withNew {α : Type} (f : Nat → α) (n : Nat) (g : Procedure → α) (ps : List Procedure) :
    (List.range' n ps.length).map (withNew f n g ps) = ps.map g := by
  refine List.ext_getElem (by simp) fun i h₁ h₂ => ?_
  rw [List.getElem_map, List.getElem_map, List.getElem_range', one_mul,
    withNew_new f n g (by simpa using h₂)]

theorem Config.spawnAll (hD : D.Lawful) (h : D.Config (some b) γ st m) (hB : Balanced (some b) m)
    (ha : m.active = none) {ps : List Procedure}
    (hps : ∀ p ∈ ps, D.may (D.child p) (.rest (D.body p) m.store)) :
    D.Config (some b) (withNew γ m.branches.size D.child ps)
      (withNew st m.branches.size (fun p => .rest (D.body p) m.store) ps)
      (m.spawnAll (ps.map D.body)).2 := by
  set n := m.branches.size with hn
  set γ' := withNew γ n D.child ps with hγ
  set st' := withNew st n (fun p => .rest (D.body p) m.store) ps with hst
  have hγ_old : ∀ {d}, d < n → γ' d = γ d := fun hd => withNew_old γ _ ps hd
  have hst_old : ∀ {d}, d < n → st' d = st d := fun hd => withNew_old st _ ps hd
  have hstore : (m.spawnAll (ps.map D.body)).2.store = m.store := by rw [spawnAll_snd]
  have hbranch_old : ∀ {d}, d < n → (m.spawnAll (ps.map D.body)).2.branch d = m.branch d :=
    fun hd => by rw [branch_spawnAll, if_neg (fun hc => Nat.not_lt.2 hc.1 hd)]
  have hjoin : ∀ j, (m.spawnAll (ps.map D.body)).2.join j = m.join j := fun j => by
    simp only [join, joins_spawnAll]
  constructor
  case may =>
    intro d hd ho hne
    rw [size_spawnAll, List.length_map] at hd
    by_cases hlt : d < n
    · rw [hγ_old hlt, hst_old hlt]
      rw [isOpen_spawnAll] at ho
      exact h.may d hlt ho hne
    · obtain ⟨i, rfl⟩ := Nat.exists_eq_add_of_le (Nat.le_of_not_lt hlt)
      have hi : i < ps.length := by omega
      rw [hγ, hst, withNew_new _ _ _ hi, withNew_new _ _ _ hi]
      exact hps _ (List.getElem_mem hi)
  case turn =>
    intro d r hd
    rw [spawnAll_snd] at hd
    cases ha.symm.trans hd
  case rest =>
    intro d hd
    rw [hstore]
    have hold : m.Resting d → ∃ s, D.rely s m.store ∧ st' d =
        .rest (((m.spawnAll (ps.map D.body)).2.branch d).resume (.ok [])) s := by
      intro hd
      have hlt : d < n := hB.lt_of_resting hd
      rw [hst_old hlt, hbranch_old hlt]
      exact h.rest d hd
    rcases hd with hd | hd | hd
    · rw [ready_spawnAll, List.length_map] at hd
      rcases List.mem_append.1 hd with hd | hd
      · exact hold (Or.inl hd)
      · obtain ⟨d', hmem, heq⟩ := List.mem_map.1 hd
        cases heq
        obtain ⟨hle, hlt⟩ := List.mem_range'_1.1 hmem
        obtain ⟨i, rfl⟩ := Nat.exists_eq_add_of_le hle
        have hi : i < ps.length := by omega
        refine ⟨m.store, hD.refl _, ?_⟩
        rw [hst, withNew_new _ _ _ hi, branch_spawnAll,
          if_pos ⟨Nat.le_add_right _ _, by rw [List.length_map]; omega⟩]
        simp [hi]
    · rw [ready_spawnAll] at hd
      rcases List.mem_append.1 hd with hd | hd
      · exact hold (Or.inr (Or.inl hd))
      · simp at hd
    · rw [spawnAll_snd] at hd
      exact hold (Or.inr (Or.inr hd))
  case joined =>
    intro j hj hl
    rw [joins_spawnAll] at hj
    have hl' : m.Live j := by
      rw [Live, hjoin, ready_spawnAll, List.mem_append] at hl
      simpa [Live] using hl
    have ho := hB.owner j hj
    rw [hstore, hjoin, hst_old ho, hbranch_old ho,
      List.map_congr_left fun d hd => hγ_old (hB.branches j hj d hd)]
    exact h.joined j hj hl'
  case ended =>
    intro d o ho
    rw [outcome?_spawnAll] at ho
    have hlt : d < n := by
      by_contra hge
      rw [outcome?_of_size_le (Nat.le_of_not_lt hge)] at ho
      cases ho
    rw [hstore, hγ_old hlt]
    exact h.ended d o ho
  case below =>
    intro j hj
    rw [joins_spawnAll] at hj
    rw [hjoin]
    exact h.below j hj

/-- A routine that begins is one more branch, and has the turn. -/
theorem Config.launch (h : D.Config none γ st m) (hB : Balanced none m) {g : Γ}
    {r : Routine Value} (hr : D.may g (.turn r m.store)) :
    D.Config none (Function.update γ m.branches.size g)
      (Function.update st m.branches.size (.turn r m.store)) (m.launch r).2 := by
  set n := m.branches.size with hn
  have hold : ∀ {α : Type} (f : Nat → α) (x : α) {d : Nat}, d < n → Function.update f n x d = f d :=
    fun f x _ hd => Function.update_of_ne (Nat.ne_of_lt hd) x f
  have hsize : (m.launch r).2.branches.size = n + 1 := Array.size_push _
  have hbranch : ∀ {d}, d < n → (m.launch r).2.branch d = m.branch d := fun hd =>
    (branch_push m.branches default _).trans (if_neg (Nat.ne_of_lt hd))
  constructor
  case may =>
    intro d hd ho _
    rw [isOpen, outcome?_launch] at ho
    by_cases hlt : d < n
    · rw [hold γ g hlt, hold st _ hlt]
      exact h.may d hlt ho (by simp)
    · obtain rfl : d = n := by omega
      rw [Function.update_self, Function.update_self]
      exact hr
  case turn =>
    intro d r' hd
    cases hd
    exact Function.update_self _ _ _
  case rest =>
    intro d hd
    have hlt : d < n := hB.lt_of_resting hd
    rw [hold st _ hlt, hbranch hlt]
    exact h.rest d hd
  case joined =>
    intro j hj hl
    have ho := hB.owner j hj
    have hγ : (m.join j).branches.map (Function.update γ n g) = (m.join j).branches.map γ :=
      List.map_congr_left fun d hd => hold γ g (hB.branches j hj d hd)
    show ∃ s, D.rely s m.store ∧ Function.update st n _ (m.join j).owner =
      .joined (m.join j).kind ((m.join j).branches.map _)
        ((m.launch r).2.branch (m.join j).owner).resume s
    rw [hold st _ ho, hbranch ho, hγ]
    exact h.joined j hj hl
  case ended =>
    intro d o ho
    rw [outcome?_launch] at ho
    have hlt : d < n := by
      by_contra hge
      rw [outcome?_of_size_le (Nat.le_of_not_lt hge)] at ho
      cases ho
    rw [hold γ g hlt]
    exact h.ended d o ho
  case below => exact h.below

end Discipline

end Schedule

end Conductor
