import Conductor.Proofs.Account.History

/-!
# Reading accounts

What the account of an outline says about its pieces. The account of a sequence is the account of
the first piece followed by that of the rest (`Account.thenOn`). A piece of code that neither waits
nor says anything takes the branch from one moment to another without anybody else having the turn,
and is found by evaluation (`Account.straight`). And whatever part or user code occurs in an
account, to any depth, has an account itself (`Account.part`, `Account.asked`).
-/

namespace Conductor

variable {body : Procedure → Routine Value} {R : Run body} {run : Handlers}
  {plan : Procedure → Outline Value} {N : Nat} {α β : Type} {b n t : Nat} {ds : List Deed}

/-! ## Sequences -/

/-- A stretch with something behind it. -/
def Stretch.thenOn (s : Stretch α) (g : Except Failure α → Outline β) : Stretch β :=
  match s with
  | .now x => .now (x.thenOn g)
  | .later x => .later (x.thenOn g)

/-- The account of a first piece, and behind it that of the rest. -/
def Account.Splits (R : Run body) (run : Handlers) (plan : Procedure → Outline Value) (N b n : Nat)
    (s : Stretch α) (g : Except Failure α → Outline β) (ds : List Deed) (e : Ending β) : Prop :=
  (∃ ds₁ t o ds₂, Account R run plan N b n s ds₁ (some (t, o)) ∧
      Account R run plan N b t (.now (g o)) ds₂ e ∧ ds = ds₁ ++ ds₂) ∨
    (Account R run plan N b n s ds none ∧ e = none)

/-- Whether an outline is over. -/
def Outline.Over : Outline α → Prop
  | .done _ | .fail _ => True
  | .get _ | .put .. | .await .. | .remark .. | .ask .. => False

namespace Account

/-- What takes a branch to what splits can be put before it. -/
theorem Splits.after {s s' : Stretch α} {g : Except Failure α → Outline β} {e : Ending β}
    {n' : Nat} (h : Splits R run plan N b n s g ds e)
    (hs : ∀ {ds₁ e₁}, Account R run plan N b n s ds₁ e₁ →
      Account R run plan N b n' s' ds₁ e₁) : Splits R run plan N b n' s' g ds e := by
  rcases h with ⟨ds₁, t, o, ds₂, h₁, h₂, rfl⟩ | ⟨h, rfl⟩
  · exact Or.inl ⟨ds₁, t, o, ds₂, hs h₁, h₂, rfl⟩
  · exact Or.inr ⟨hs h, rfl⟩

/-- A deed can be put before what splits. -/
theorem Splits.cons {s s' : Stretch α} {g : Except Failure α → Outline β} {e : Ending β}
    {n' : Nat} {d : Deed} (h : Splits R run plan N b n s g ds e)
    (hs : ∀ {ds₁ e₁}, Account R run plan N b n s ds₁ e₁ →
      Account R run plan N b n' s' (d :: ds₁) e₁) :
    Splits R run plan N b n' s' g (d :: ds) e := by
  rcases h with ⟨ds₁, t, o, ds₂, h₁, h₂, rfl⟩ | ⟨h, rfl⟩
  · exact Or.inl ⟨d :: ds₁, t, o, ds₂, hs h₁, h₂, rfl⟩
  · exact Or.inr ⟨hs h, rfl⟩

/-- An outline that is over leaves the whole account to what comes behind it. -/
theorem splits_of_over {s' : Stretch β} {e : Ending β} (h : Account R run plan N b n s' ds e)
    {x : Outline α} {g : Except Failure α → Outline β} (hs : s' = .now (x.thenOn g))
    (hx : x.Over) : Splits R run plan N b n (.now x) g ds e := by
  subst hs
  cases x with
  | done a => exact Or.inl ⟨[], n, _, ds, .done a, h, rfl⟩
  | fail f => exact Or.inl ⟨[], n, _, ds, .fail f, h, rfl⟩
  | get | put | await | remark | ask => exact hx.elim

theorem splits {s' : Stretch β} {e : Ending β} (h : Account R run plan N b n s' ds e) :
    ∀ {α : Type} (s : Stretch α) (g : Except Failure α → Outline β), s' = s.thenOn g →
      Splits R run plan N b n s g ds e := by
  induction h with
  | done a =>
    rintro α (x | x) g hs <;> cases x <;>
      first
      | exact splits_of_over (.done a) hs trivial
      | cases hs
  | fail f =>
    rintro α (x | x) g hs <;> cases x <;>
      first
      | exact splits_of_over (.fail f) hs trivial
      | cases hs
  | stop x hx ht =>
    rintro α (x | x) g hs <;> cases x <;>
      first
      | exact splits_of_over (.stop _ hx ht) hs trivial
      | cases hs; done
      | cases hs; exact Or.inr ⟨.stop _ hx ht, rfl⟩
  | remark l h ih =>
    rintro α (x | x) g hs <;> cases x <;>
      first
      | exact splits_of_over (.remark l h) hs trivial
      | cases hs; done
      | cases hs; exact (ih (.now _) g rfl).cons fun h => .remark l h
  | get hn ht hs' h ih =>
    rintro α (x | x) g hs <;> cases x <;>
      first
      | exact splits_of_over (.get hn ht hs' h) hs trivial
      | cases hs; done
      | cases hs; exact (ih (.now _) g rfl).after fun h => .get hn ht hs' h
  | put hn ht hs' h ih =>
    rintro α (x | x) g hs <;> cases x <;>
      first
      | exact splits_of_over (.put hn ht hs' h) hs trivial
      | cases hs; done
      | cases hs; exact (ih (.now _) g rfl).after fun h => .put hn ht hs' h
  | ask u c args h hk ih ihk =>
    rintro α (x | x) g hs <;> cases x <;>
      first
      | exact splits_of_over (.ask u c args h hk) hs trivial
      | cases hs; done
      | cases hs; exact (ihk (.now _) g rfl).cons fun hk => .ask u c args h hk
  | asking u c args h ih =>
    rintro α (x | x) g hs <;> cases x <;>
      first
      | exact splits_of_over (.asking u c args h) hs trivial
      | cases hs; done
      | cases hs; exact Or.inr ⟨.asking u c args h, rfl⟩
  | call hn ht hs' h hk ih ihk =>
    rintro α (x | x) g hs <;> cases x <;>
      first
      | exact splits_of_over (.call hn ht hs' h hk) hs trivial
      | cases hs; done
      | cases hs; exact (ihk (.now _) g rfl).cons fun hk => .call hn ht hs' h hk
  | calling hn ht hs' h ih =>
    rintro α (x | x) g hs <;> cases x <;>
      first
      | exact splits_of_over (.calling hn ht hs' h) hs trivial
      | cases hs; done
      | cases hs; exact Or.inr ⟨.calling hn ht hs' h, rfl⟩
  | sleep hn ht h ih =>
    rintro α (x | x) g hs <;> cases x <;>
      first
      | exact splits_of_over (.sleep hn ht h) hs trivial
      | cases hs; done
      | cases hs; exact (ih (.later _) g rfl).after fun h => .sleep hn ht h
  | resume hn hN hi ht h ih =>
    rintro α (x | x) g hs
    · exact nomatch hs
    · cases hs
      exact (ih (.now x) g rfl).after fun h => .resume hn hN hi ht h
  | rest x hn hi =>
    rintro α (x | x) g hs
    · exact nomatch hs
    · exact Or.inr ⟨.rest x hn hi, rfl⟩
  | skip hw hn ht hs' h ih =>
    rintro α (x | x) g hs <;> cases x <;>
      first
      | exact splits_of_over (.skip hw hn ht hs' h) hs trivial
      | cases hs; done
      | cases hs; exact (ih (.now _) g rfl).after fun h => .skip hw hn ht hs' h
  | fork hw hps hn hN ht hi ht' h hv ho hd hk ih ihk =>
    rintro α (x | x) g hs <;> cases x <;>
      first
      | exact splits_of_over (.fork hw hps hn hN ht hi ht' h hv ho hd hk) hs trivial
      | cases hs; done
      | cases hs; exact (ihk (.now _) g rfl).cons fun hk => .fork hw hps hn hN ht hi ht' h hv ho hd hk
  | forking hw hps hn ht hi h ih =>
    rintro α (x | x) g hs <;> cases x <;>
      first
      | exact splits_of_over (.forking hw hps hn ht hi h) hs trivial
      | cases hs; done
      | cases hs; exact Or.inr ⟨.forking hw hps hn ht hi h, rfl⟩
  | drain hn ht hd h ih =>
    rintro α (x | x) g hs <;> cases x <;>
      first
      | exact splits_of_over (.drain hn ht hd h) hs trivial
      | cases hs; done
      | cases hs; exact (ih (.later (.await .detached _)) g rfl).after fun h => .drain hn ht hd h
  | drained hn ht hd hs' h ih =>
    rintro α (x | x) g hs <;> cases x <;>
      first
      | exact splits_of_over (.drained hn ht hd hs' h) hs trivial
      | cases hs; done
      | cases hs; exact (ih (.now _) g rfl).after fun h => .drained hn ht hd hs' h

/-- **The account of a sequence** is that of its first piece followed by that of the rest. -/
theorem thenOn {x : Outline α} {g : Except Failure α → Outline β} {e : Ending β}
    (h : Account R run plan N b n (.now (x.thenOn g)) ds e) :
    Splits R run plan N b n (.now x) g ds e := h.splits (.now x) g rfl

theorem bind {x : Outline α} {g : α → Outline β} {e : Ending β}
    (h : Account R run plan N b n (.now (x >>= g)) ds e) :
    (∃ ds₁ t a ds₂, Account R run plan N b n (.now x) ds₁ (some (t, .ok a)) ∧
        Account R run plan N b t (.now (g a)) ds₂ e ∧ ds = ds₁ ++ ds₂) ∨
      (∃ t f, Account R run plan N b n (.now x) ds (some (t, .error f)) ∧ e = some (t, .error f)) ∨
      (Account R run plan N b n (.now x) ds none ∧ e = none) := by
  rcases h.thenOn with ⟨ds₁, t, o, ds₂, h₁, h₂, rfl⟩ | h
  · cases o with
    | ok a => exact Or.inl ⟨ds₁, t, a, ds₂, h₁, h₂, rfl⟩
    | error f =>
      cases h₂ with
      | stop _ hx => exact hx.elim
      | fail =>
        rw [List.append_nil]
        exact Or.inr (Or.inl ⟨t, f, h₁, rfl⟩)
  · exact Or.inr (Or.inr h)

/-- Behind a handler the failure is known to be none of the aborts. -/
theorem attempt {x : Outline α} {g : Except Failure α → Outline β} {e : Ending β}
    (h : Account R run plan N b n (.now (x.attempt >>= g)) ds e) :
    (∃ ds₁ t o ds₂, Account R run plan N b n (.now x) ds₁ (some (t, o)) ∧ Tame o ∧
        Account R run plan N b t (.now (g o)) ds₂ e ∧ ds = ds₁ ++ ds₂) ∨
      (∃ t f, Account R run plan N b n (.now x) ds (some (t, .error f)) ∧ f.isCatchable = false ∧
        e = some (t, .error f)) ∨
      (Account R run plan N b n (.now x) ds none ∧ e = none) := by
  rw [Outline.bind_eq, Outline.attempt, Outline.thenOn_thenOn] at h
  rcases h.thenOn with ⟨ds₁, t, o, ds₂, h₁, h₂, rfl⟩ | h
  · cases o with
    | ok a => exact Or.inl ⟨ds₁, t, .ok a, ds₂, h₁, tame_ok a, h₂, rfl⟩
    | error f =>
      simp only [Outline.caught] at h₂
      by_cases hf : f.isCatchable = true
      · rw [if_pos hf] at h₂
        exact Or.inl ⟨ds₁, t, .error f, ds₂, h₁, (tame_error f).2 hf, h₂, rfl⟩
      · rw [if_neg hf] at h₂
        cases h₂ with
        | stop _ hx => exact hx.elim
        | fail =>
          rw [List.append_nil]
          exact Or.inr (Or.inl ⟨t, f, h₁, by simpa using hf, rfl⟩)
  · exact Or.inr (Or.inr h)

theorem done_iff {a : α} {e : Ending α} (h : Account R run plan N b n (.now (.done a)) ds e) :
    ds = [] ∧ e = some (n, .ok a) := by
  cases h with
  | stop _ hx => exact hx.elim
  | done => exact ⟨rfl, rfl⟩

theorem fail_iff {f : Failure} {e : Ending α} (h : Account R run plan N b n (.now (.fail f)) ds e) :
    ds = [] ∧ e = some (n, .error f) := by
  cases h with
  | stop _ hx => exact hx.elim
  | fail => exact ⟨rfl, rfl⟩

theorem said {l : Remark} {x : Outline α} {e : Ending α}
    (h : Account R run plan N b n (.now (.remark l x)) ds e) :
    ∃ ds', Account R run plan N b n (.now x) ds' e ∧ ds = .remark n l :: ds' := by
  cases h with
  | stop _ hx => exact hx.elim
  | remark _ h => exact ⟨_, h, rfl⟩

/-- Saying something and going on. -/
theorem say {l : Remark} {g : Unit → Outline α} {e : Ending α}
    (h : Account R run plan N b n (.now (Outline.say l >>= g)) ds e) :
    ∃ ds', Account R run plan N b n (.now (g ())) ds' e ∧ ds = .remark n l :: ds' := h.said

/-- The account of a call of user code is a single deed. -/
theorem called {u : Use} {c : Ref .callable} {args : List Value} {e : Ending Value}
    (h : Account R run plan N b n (.now (.call u c args)) ds e) :
    ∃ inner, ds = [.ask n u c args inner e] ∧
      Account R run plan N b n (.now (.plain (run c args))) inner e := by
  cases h with
  | stop _ hx => exact hx.elim
  | @ask _ _ _ t _ _ _ o _ inner _ _ h hk =>
    cases o with
    | ok v =>
      obtain ⟨rfl, rfl⟩ := hk.done_iff
      exact ⟨inner, rfl, h⟩
    | error f =>
      obtain ⟨rfl, rfl⟩ := hk.fail_iff
      exact ⟨inner, rfl, h⟩
  | asking _ _ _ h => exact ⟨_, rfl, h⟩

/-- The account of a call of another part is a single deed, unless the horizon is reached first. -/
theorem ran {p : Procedure} {e : Ending Value}
    (h : Account R run plan N b n (.now (.plain (.call p))) ds e) :
    (ds = [] ∧ e = none ∧ n = N) ∨ ∃ inner, n < N ∧ R.store (n + 1) = R.store n ∧
      ds = [.part n b p inner e] ∧
      Account R run plan N b (n + 1) (.now (plan p)) inner e := by
  cases h with
  | stop => exact Or.inl ⟨rfl, rfl, rfl⟩
  | calling hn _ hs h => exact Or.inr ⟨_, hn, hs, rfl, h⟩
  | @call _ _ _ t _ _ o inner _ _ hn _ hs h hk =>
    cases o with
    | ok v =>
      obtain ⟨rfl, rfl⟩ := hk.done_iff
      exact Or.inr ⟨inner, hn, hs, rfl, h⟩
    | error f =>
      obtain ⟨rfl, rfl⟩ := hk.fail_iff
      exact Or.inr ⟨inner, hn, hs, rfl, h⟩
  | skip hw => cases hw
  | fork hw => cases hw
  | forking hw => cases hw

end Account

/-! ## Straight code -/

namespace Routine

/-- How long a routine runs that waits for nothing, how it ends, and what it makes of the store. -/
def eval : Routine α → Store → Option (Nat × Except Failure α × Store)
  | .done a, s => some (0, .ok a, s)
  | .fail f, s => some (0, .error f, s)
  | .get k, s => (eval (k s) s).map fun (i, x) => (i + 1, x)
  | .put s r, _ => (eval r s).map fun (i, x) => (i + 1, x)
  | .await .., _ => none

theorem eval_bind {r : Routine α} {g : α → Routine β} {s : Store} {i : Nat} {a : α} {s' : Store}
    (h : r.eval s = some (i, .ok a, s')) :
    (r.bind g).eval s = ((g a).eval s').map fun (j, x) => (i + j, x) := by
  induction r generalizing s i with
  | done x =>
    obtain ⟨rfl, rfl, rfl⟩ : i = 0 ∧ x = a ∧ s = s' := by simpa [eval, eq_comm] using h
    show (g x).eval s = _
    cases (g x).eval s <;> simp
  | fail f => cases h
  | get k ih =>
    simp only [eval, Option.map_eq_some_iff] at h
    obtain ⟨⟨j, x⟩, h, heq⟩ := h
    cases heq
    show Option.map _ (((k s).bind g).eval s) = _
    rw [ih s h, Option.map_map]
    congr 1
    funext ⟨l, y⟩
    simp only [Function.comp, Prod.mk.injEq, and_true]
    omega
  | put t r ih =>
    simp only [eval, Option.map_eq_some_iff] at h
    obtain ⟨⟨j, x⟩, h, heq⟩ := h
    cases heq
    show Option.map _ ((r.bind g).eval t) = _
    rw [ih h, Option.map_map]
    congr 1
    funext ⟨l, y⟩
    simp only [Function.comp, Prod.mk.injEq, and_true]
    omega
  | await w k => cases h

theorem eval_bind_error {r : Routine α} {g : α → Routine β} {s : Store} {i : Nat} {f : Failure}
    {s' : Store} (h : r.eval s = some (i, .error f, s')) :
    (r.bind g).eval s = some (i, .error f, s') := by
  induction r generalizing s i with
  | done a => cases h
  | fail f =>
    cases h
    rfl
  | get k ih =>
    simp only [eval, Option.map_eq_some_iff] at h
    obtain ⟨⟨j, x⟩, h, heq⟩ := h
    cases heq
    show Option.map _ (((k s).bind g).eval s) = _
    rw [ih s h]
    rfl
  | put t r ih =>
    simp only [eval, Option.map_eq_some_iff] at h
    obtain ⟨⟨j, x⟩, h, heq⟩ := h
    cases heq
    show Option.map _ ((r.bind g).eval t) = _
    rw [ih h]
    rfl
  | await w k => cases h

@[simp] theorem eval_done (a : α) (s : Store) :
    (done a : Routine α).eval s = some (0, .ok a, s) := rfl

@[simp] theorem eval_read (f : Store → α) (s : Store) :
    (read f).eval s = some (1, .ok (f s), s) := rfl

@[simp] theorem eval_alter (f : Store → Store) (s : Store) :
    (alter f).eval s = some (2, .ok (), f s) := rfl

@[simp] theorem eval_modifyGet (f : Store → α × Store) (s : Store) :
    (modifyGet f).eval s = some (2, .ok (f s).1, (f s).2) := rfl

theorem eval_query_ok {f : Store → Except Cause α} {s : Store} {a : α} (h : f s = .ok a) :
    (query f).eval s = some (1, .ok a, s) := by
  show Option.map _ ((ofExcept (f s)).eval s) = _
  rw [h]
  rfl

@[simp] theorem eval_raise (c : Cause) (s : Store) : (raise c : Routine α).eval s =
    some (2, .error ⟨s.nextFailure, c⟩, { s with nextFailure := s.nextFailure + 1 }) := rfl

theorem eval_query_error {f : Store → Except Cause α} {s : Store} {c : Cause}
    (h : f s = .error c) : (query f).eval s =
      some (3, .error ⟨s.nextFailure, c⟩, { s with nextFailure := s.nextFailure + 1 }) := by
  show Option.map _ ((ofExcept (f s)).eval s) = _
  rw [h]
  rfl

end Routine

/-- Straight code takes a branch from one moment to another without anybody else having the turn. -/
theorem Account.straight {r : Routine α} {e : Ending α}
    (h : Account R run plan N b n (.now (.plain r)) ds e) {i : Nat} {o : Except Failure α}
    {s : Store} (hr : r.eval (R.store n) = some (i, o, s)) :
    ds = [] ∧ (e = none ∨ e = some (n + i, o) ∧ R.store (n + i) = s) := by
  induction r generalizing n ds i with
  | done a =>
    cases hr
    obtain ⟨rfl, rfl⟩ := h.done_iff
    exact ⟨rfl, Or.inr ⟨rfl, rfl⟩⟩
  | fail f =>
    cases hr
    obtain ⟨rfl, rfl⟩ := h.fail_iff
    exact ⟨rfl, Or.inr ⟨rfl, rfl⟩⟩
  | get k ih =>
    simp only [Routine.eval, Option.map_eq_some_iff] at hr
    obtain ⟨⟨j, x⟩, hr, heq⟩ := hr
    cases heq
    cases h with
    | stop => exact ⟨rfl, Or.inl rfl⟩
    | get hn ht hs h =>
      obtain ⟨rfl, he⟩ := ih _ h (by rw [hs]; exact hr)
      rw [Nat.add_right_comm, Nat.add_assoc] at he
      exact ⟨rfl, he⟩
  | put t r ih =>
    simp only [Routine.eval, Option.map_eq_some_iff] at hr
    obtain ⟨⟨j, x⟩, hr, heq⟩ := hr
    cases heq
    cases h with
    | stop => exact ⟨rfl, Or.inl rfl⟩
    | put hn ht hs h =>
      obtain ⟨rfl, he⟩ := ih h (by rw [hs]; exact hr)
      rw [Nat.add_right_comm, Nat.add_assoc] at he
      exact ⟨rfl, he⟩
  | await w k => cases hr

/-- Straight code is over when there is time for it. -/
theorem Account.straight_over {r : Routine α} {e : Ending α}
    (h : Account R run plan N b n (.now (.plain r)) ds e) {i : Nat} {o : Except Failure α}
    {s : Store} (hr : r.eval (R.store n) = some (i, o, s)) (hN : n + i ≤ N) :
    e = some (n + i, o) := by
  induction r generalizing n ds i with
  | done a =>
    cases hr
    exact h.done_iff.2
  | fail f =>
    cases hr
    exact h.fail_iff.2
  | get k ih =>
    simp only [Routine.eval, Option.map_eq_some_iff] at hr
    obtain ⟨⟨j, x⟩, hr, heq⟩ := hr
    cases heq
    cases h with
    | stop => omega
    | get hn ht hs h =>
      rw [ih _ h (by rw [hs]; exact hr) (by omega), Nat.add_right_comm, Nat.add_assoc]
  | put t r ih =>
    simp only [Routine.eval, Option.map_eq_some_iff] at hr
    obtain ⟨⟨j, x⟩, hr, heq⟩ := hr
    cases heq
    cases h with
    | stop => omega
    | put hn ht hs h =>
      rw [ih h (by rw [hs]; exact hr) (by omega), Nat.add_right_comm, Nat.add_assoc]
  | await w k => cases hr

end Conductor
