import Conductor.Proofs.Account.Asking

/-!
# What a branch leaves as it is

Code of the model that waits for nothing makes a store of which something is known (`Routine.Gives`).
Between such pieces user code is called. What is true of the store before is true behind all of it if
neither the writes of the model nor the calls of user code make an end of it (`Outline.Keeps`).

What a branch does by itself, also in the parts that it calls, but not in user code, stands in one
line (`Deed.line`).

Main result: an outline that keeps a property of stores leaves a store that has it, if all calls of
user code do (`Account.keeps`).
-/

namespace Conductor

variable {body : Procedure → Routine Value} {R : Run body} {run : Handlers}
  {plan : Procedure → Outline Value} {N : Nat} {α β : Type} {b n t : Nat} {ds ds' : List Deed}
  {s : Store}

/-! ## Code that waits for nothing -/

namespace Routine

/-- A routine returns without waiting, and of its result and the store that it makes something holds. -/
def Gives (P : α → Store → Prop) : Routine α → Store → Prop
  | .done a, s => P a s
  | .fail _, _ => False
  | .get k, s => Gives P (k s) s
  | .put t r, _ => Gives P r t
  | .await .., _ => False

variable {P : α → Store → Prop} {Q : β → Store → Prop}

theorem Gives.mono {P' : α → Store → Prop} {r : Routine α} (h : r.Gives P s)
    (hP : ∀ a t, P a t → P' a t) : r.Gives P' s := by
  induction r generalizing s with
  | done a => exact hP a s h
  | fail f => exact h
  | get k ih => exact ih s h
  | put t r ih => exact ih h
  | await w k => exact h

theorem Gives.bind {r : Routine α} {g : α → Routine β} (h : r.Gives P s)
    (hg : ∀ a t, P a t → (g a).Gives Q t) : (r.bind g).Gives Q s := by
  induction r generalizing s with
  | done a => exact hg a s h
  | fail f => exact h.elim
  | get k ih => exact ih s h
  | put t r ih => exact ih h
  | await w k => exact h.elim

theorem gives_query {f : Store → Except Cause α} {a : α} (h : f s = .ok a) (hP : P a s) :
    (query f).Gives P s := by
  show (ofExcept (f s)).Gives P s
  rw [h]
  exact hP

end Routine

namespace Account

variable {P : α → Store → Prop}

theorem gives {r : Routine α} {e : Ending α} (h : Account R run plan N b n (.now (.plain r)) ds e)
    (hr : r.Gives P (R.store n)) : ds = [] ∧ ∀ t o, e = some (t, o) → n ≤ t ∧
      ∃ a, o = .ok a ∧ P a (R.store t) := by
  induction r generalizing n ds with
  | done a =>
    obtain ⟨rfl, rfl⟩ := h.done_iff
    refine ⟨rfl, fun t o he => ?_⟩
    cases he
    exact ⟨le_rfl, a, rfl, hr⟩
  | fail f => exact hr.elim
  | get k ih =>
    cases h with
    | stop => exact ⟨rfl, by simp⟩
    | get hn ht hs h =>
      obtain ⟨rfl, hend⟩ := ih (R.store n) h (by rw [hs]; exact hr)
      exact ⟨rfl, fun t o he => ⟨Nat.le_of_succ_le (hend t o he).1, (hend t o he).2⟩⟩
  | put t r ih =>
    cases h with
    | stop => exact ⟨rfl, by simp⟩
    | put hn ht hs h =>
      obtain ⟨rfl, hend⟩ := ih h (by rw [hs]; exact hr)
      exact ⟨rfl, fun t o he => ⟨Nat.le_of_succ_le (hend t o he).1, (hend t o he).2⟩⟩
  | await w k => exact hr.elim

/-- Behind a piece that gives something the rest goes on. -/
theorem gives_bind {r : Routine α} {g : α → Outline β} {o : Except Failure β}
    (h : Account R run plan N b n (.now (.plain r >>= g)) ds (some (t, o)))
    (hr : r.Gives P (R.store n)) :
    ∃ m a, n ≤ m ∧ P a (R.store m) ∧ Account R run plan N b m (.now (g a)) ds (some (t, o)) := by
  rcases h.bind with ⟨ds₁, m, a, ds₂, h₁, h₂, rfl⟩ | ⟨m, f, h₁, he⟩ | ⟨-, he⟩
  · obtain ⟨rfl, hend⟩ := h₁.gives hr
    obtain ⟨hnm, a', ha, hP⟩ := hend _ _ rfl
    cases ha
    exact ⟨m, a, hnm, hP, h₂⟩
  · obtain ⟨-, a', ha, -⟩ := (h₁.gives hr).2 _ _ rfl
    cases ha
  · cases he

end Account

/-! ## What is kept -/

namespace Routine

/-- A routine waits for nothing, and whatever it writes has a property that the store has before. -/
def Keeps (P : Store → Prop) : Routine α → Prop
  | .done _ | .fail _ => True
  | .get k => ∀ s, P s → (k s).Keeps P
  | .put t r => P t ∧ r.Keeps P
  | .await .. => False

variable {P : Store → Prop}

theorem Keeps.bind {r : Routine α} {g : α → Routine β} (hr : r.Keeps P) (hg : ∀ a, (g a).Keeps P) :
    (r.bind g).Keeps P := by
  induction r with
  | done a => exact hg a
  | fail f => trivial
  | get k ih => exact fun s hs => ih s (hr s hs)
  | put t r ih => exact ⟨hr.1, ih hr.2⟩
  | await w k => exact hr.elim

/-- With what a routine gives, all that it keeps is true of the store that it makes. -/
theorem Gives.keeping {Q : α → Store → Prop} {r : Routine α} (h : r.Gives Q s) :
    r.Gives (fun a t => Q a t ∧ ∀ P : Store → Prop, r.Keeps P → P s → P t) s := by
  induction r generalizing s with
  | done a => exact ⟨h, fun _ _ hs => hs⟩
  | fail f => exact h
  | get k ih => exact (ih s h).mono fun a t ht => ⟨ht.1, fun P hr hs => ht.2 P (hr s hs) hs⟩
  | put u r ih => exact (ih h).mono fun a t ht => ⟨ht.1, fun P hr _ => ht.2 P hr.2 hr.1⟩
  | await w k => exact h

theorem keeps_read (f : Store → α) : (read f).Keeps P := fun _ _ => trivial

theorem keeps_alter {f : Store → Store} (h : ∀ s, P s → P (f s)) : (alter f).Keeps P :=
  fun s hs => ⟨h s hs, trivial⟩

theorem keeps_modifyGet {f : Store → α × Store} (h : ∀ s, P s → P (f s).2) :
    (modifyGet f).Keeps P := fun s hs => ⟨h s hs, trivial⟩

theorem keeps_raise (h : ∀ s, P s → P { s with nextFailure := s.nextFailure + 1 }) (c : Cause) :
    (raise c : Routine α).Keeps P := fun s hs => ⟨h s hs, trivial⟩

theorem keeps_query (h : ∀ s, P s → P { s with nextFailure := s.nextFailure + 1 })
    (f : Store → Except Cause α) : (query f).Keeps P := by
  intro s _
  show (ofExcept (f s)).Keeps P
  cases f s with
  | ok a => trivial
  | error c => exact keeps_raise h c

theorem keeps_collect {f : β → Routine α} (h : ∀ x, (f x).Keeps P) :
    ∀ xs : List β, (collect f xs).Keeps P
  | [] => trivial
  | x :: xs => (h x).bind fun _ => (keeps_collect h xs).bind fun _ => show True from trivial

end Routine

namespace Outline

/-- An outline waits for nothing but user code, and whatever it writes has a property that the store
has before. -/
def Keeps (P : Store → Prop) : Outline α → Prop
  | .done _ | .fail _ => True
  | .get k => ∀ s, P s → (k s).Keeps P
  | .put t x => P t ∧ x.Keeps P
  | .await .. => False
  | .remark _ x => x.Keeps P
  | .ask _ _ _ k => ∀ o, (k o).Keeps P

variable {P : Store → Prop}

theorem Keeps.thenOn {x : Outline α} {g : Except Failure α → Outline β} (hx : x.Keeps P)
    (hg : ∀ o, (g o).Keeps P) : (x.thenOn g).Keeps P := by
  induction x with
  | done a => exact hg _
  | fail f => exact hg _
  | get k ih => exact fun s hs => ih s (hx s hs)
  | put t x ih => exact ⟨hx.1, ih hx.2⟩
  | await w k => exact hx.elim
  | remark l x ih => exact ih hx
  | ask u c args k ih => exact fun o => ih o (hx o)

theorem Keeps.bind {x : Outline α} {g : α → Outline β} (hx : x.Keeps P) (hg : ∀ a, (g a).Keeps P) :
    (x >>= g).Keeps P := by
  refine hx.thenOn fun o => ?_
  cases o with
  | ok a => exact hg a
  | error f => trivial

theorem Keeps.attempt {x : Outline α} (hx : x.Keeps P) : x.attempt.Keeps P := by
  refine hx.thenOn fun o => ?_
  cases o with
  | ok a => trivial
  | error f =>
    rw [caught]
    split <;> trivial

theorem keeps_plain {r : Routine α} (h : r.Keeps P) : (plain r).Keeps P := by
  induction r with
  | done | fail => trivial
  | get k ih => exact fun s hs => ih s (h s hs)
  | put t r ih => exact ⟨h.1, ih h.2⟩
  | await w k => exact h.elim

theorem keeps_pure (a : α) : (pure a : Outline α).Keeps P := trivial

theorem keeps_ofOutcome (o : Except Failure α) : (ofOutcome o).Keeps P := by cases o <;> trivial

theorem keeps_call (u : Use) (c : Ref .callable) (args : List Value) : (call u c args).Keeps P :=
  keeps_ofOutcome

theorem keeps_each {f : β → Outline Unit} (h : ∀ x, (f x).Keeps P) :
    ∀ xs : List β, (each f xs).Keeps P
  | [] => trivial
  | x :: xs => Keeps.bind (h x) fun _ => keeps_each h xs

/-- An emission only writes into the journal. -/
theorem keeps_emit (hlog : ∀ s h, P s → P (s.write h)) (name : HookName) (args : List Value) :
    (emit name args).Keeps P := by
  refine Keeps.bind (x := say _) trivial fun _ => ?_
  refine Keeps.bind (keeps_plain (Routine.keeps_read _)) fun hooks => ?_
  split
  · trivial
  · exact Keeps.bind (keeps_plain (Routine.keeps_alter fun s => hlog s _)) fun _ =>
      keeps_each (fun c => Keeps.bind (keeps_call _ c _) fun _ => keeps_pure ()) _

end Outline

/-- User code that is called in a list of deeds leaves a property of stores true. -/
structure Deed.Leave (R : Run body) (P : Store → Prop) (ds : List Deed) : Prop where
  asked : ∀ {m u c args inner t o}, .ask m u c args inner (some (t, o)) ∈ ds →
    P (R.store m) → P (R.store t)

theorem Deed.Leave.mono {P : Store → Prop} (h : Deed.Leave R P ds) (hs : ∀ d ∈ ds', d ∈ ds) :
    Deed.Leave R P ds' := ⟨fun hd => h.asked (hs _ hd)⟩

/-- **What an outline keeps is kept**, if all user code that is called leaves it true. Nothing else
is called or started. -/
theorem Account.keeps {P : Store → Prop} {x : Outline α} {e : Ending α}
    (h : Account R run plan N b n (.now x) ds e) (hx : x.Keeps P) (hn : P (R.store n))
    (hasks : Deed.Leave R P ds) : Deed.Bare ds ∧ ∀ t o, e = some (t, o) → P (R.store t) := by
  generalize hst : Stretch.now x = st at h
  induction h with
  | done a | fail f =>
    refine ⟨Deed.bare_nil, fun t o he => ?_⟩
    cases he
    exact hn
  | stop => exact ⟨Deed.bare_nil, by simp⟩
  | @remark _ b n l y _ _ h ih =>
    cases hst
    obtain ⟨hb, hk⟩ := ih (x := y) hx hn (hasks.mono fun _ => List.mem_cons_of_mem _) rfl
    exact ⟨hb.cons_remark, hk⟩
  | get _ ht hs h ih =>
    cases hst
    exact ih (hx _ hn) (by rw [hs]; exact hn) hasks rfl
  | put _ ht hs h ih =>
    cases hst
    exact ih hx.2 (by rw [hs]; exact hx.1) hasks rfl
  | @ask _ b n t u c args o k inner _ _ h hk _ ihk =>
    cases hst
    obtain ⟨hb, hrest⟩ := ihk (hx o) (hasks.asked List.mem_cons_self hn)
      (hasks.mono fun _ => List.mem_cons_of_mem _) rfl
    exact ⟨List.forall_mem_cons.2 ⟨Or.inr ⟨n, u, c, args, inner, _, rfl⟩, hb⟩, hrest⟩
  | @asking _ b n u c args k inner h =>
    cases hst
    refine ⟨fun d hd => ?_, by simp⟩
    exact Or.inr ⟨n, u, c, args, inner, none, List.mem_singleton.1 hd⟩
  | call | calling | sleep | skip | fork | forking | drain | drained =>
    cases hst
    exact hx.elim
  | resume | rest => cases hst

/-! ## In a line -/

namespace Deed

mutual

/-- A deed with what goes on in it by itself, if it is a part. -/
def unrolled : Deed → List Deed
  | .part n b p inner e => .part n b p inner e :: line inner
  | d => [d]

/-- Everything that is done in a list of deeds and in the parts that are called, in order. User code,
and branches that are started, do what they do on their own. -/
def line : List Deed → List Deed
  | [] => []
  | d :: ds => unrolled d ++ line ds

end

@[simp] theorem line_nil : line [] = [] := by rw [line]

@[simp] theorem line_remark (l : Remark) : line (.remark n l :: ds) = .remark n l :: line ds := by
  rw [line, unrolled]
  · rfl
  · simp

@[simp] theorem line_ask (u : Use) (c : Ref .callable) (args : List Value) (inner : List Deed)
    (e : Ending Value) : line (.ask n u c args inner e :: ds) = .ask n u c args inner e :: line ds := by
  rw [line, unrolled]
  · rfl
  · simp

@[simp] theorem line_part (p : Procedure) (inner : List Deed) (e : Ending Value) :
    line (.part n b p inner e :: ds) = .part n b p inner e :: (line inner ++ line ds) := by
  rw [line, unrolled]
  rfl

@[simp] theorem line_append : line (ds ++ ds') = line ds ++ line ds' := by
  induction ds with
  | nil => rw [line_nil]; rfl
  | cons d ds ih => rw [List.cons_append, line, line, ih, List.append_assoc]

theorem Bare.line (h : Bare ds) : line ds = ds := by
  induction ds with
  | nil => exact line_nil
  | cons d ds ih =>
    have hds := ih fun x hx => h x (List.mem_cons_of_mem _ hx)
    obtain ⟨n, l, rfl⟩ | ⟨n, u, c, args, inner, e, rfl⟩ := h d List.mem_cons_self
    · rw [line_remark, hds]
    · rw [line_ask, hds]

theorem mem_line {d : Deed} (h : d ∈ ds) : d ∈ line ds := by
  induction ds with
  | nil => cases h
  | cons x ds ih =>
    rw [line]
    rcases List.mem_cons.1 h with rfl | h
    · refine List.mem_append_left _ ?_
      cases d <;> simp [unrolled]
    · exact List.mem_append_right _ (ih h)

mutual

theorem occurs_of_mem_unrolled {d : Deed} : ∀ {x : Deed}, d ∈ unrolled x → d = x ∨ Occurs d x.inner
  | .part n b p inner e, h => by
    rw [unrolled] at h
    exact (List.mem_cons.1 h).imp id occurs_of_mem_line
  | .remark n l, h => Or.inl (List.mem_singleton.1 h)
  | .ask n u c args inner e, h => Or.inl (List.mem_singleton.1 h)
  | .fork n kind inner e, h => Or.inl (List.mem_singleton.1 h)

/-- What stands in a line occurs in what the line is of. -/
theorem occurs_of_mem_line {d : Deed} : ∀ {ds : List Deed}, d ∈ line ds → Occurs d ds
  | [], h => by
    rw [line_nil] at h
    cases h
  | x :: ds, h => by
    rw [line] at h
    rcases List.mem_append.1 h with h | h
    · exact Occurs.cons.2 ((occurs_of_mem_unrolled h).imp id Or.inl)
    · exact Occurs.cons.2 (Or.inr (Or.inr (occurs_of_mem_line h)))

end

end Deed

/-- User code that keeps a property of stores leaves it true wherever it is called. -/
theorem Account.leave {P : Store → Prop} (hrun : ∀ c args, (run c args).Keeps P) {s : Stretch α}
    {e : Ending α} (h : Account R run plan N b n s ds e) : Deed.Leave R P (Deed.line ds) := by
  refine ⟨fun hd hm => ?_⟩
  cases (h.occurs (Deed.occurs_of_mem_line hd)).2 with
  | ask u h =>
    refine (h.keeps (Outline.keeps_plain (hrun _ _)) hm ⟨fun hd => ?_⟩).2 _ _ rfl
    obtain ⟨_, _, _, _, _, heq⟩ | ⟨_, _, _, _, heq⟩ := h.silent_plain _ hd <;> cases heq

end Conductor
