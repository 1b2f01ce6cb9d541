import Conductor.Proofs.Account.Asking

/-!
# How long a branch takes by itself

Between calls of user code a branch that waits for nothing else gets on at once: each of its actions
takes one moment. `Deed.Brisk` bounds what a branch needs of its own, so that a branch that has not come
to its end at the horizon either has a call of user code under way or has had no time yet.
-/

namespace Conductor

variable {body : Procedure → Routine Value} {R : Run body} {run : Handlers}
  {plan : Procedure → Outline Value} {N : Nat} {α β : Type} {b n t k l : Nat} {ds ds' : List Deed}

namespace Deed

/-- User code is at work. -/
def Busy (ds : List Deed) : Prop := ∃ m u c args inner, Deed.ask m u c args inner none ∈ ds

/-- A moment comes at most `k` moments after `n`, or after a return of user code. -/
def Soon (n : Nat) (ds : List Deed) (k t : Nat) : Prop :=
  ∃ i, (i = n ∨ ∃ m u c args inner o, Deed.ask m u c args inner (some (i, o)) ∈ ds) ∧ t ≤ i + k

/-- Deeds come to their end within `k` moments of their own, unless user code is at work. -/
def Brisk (N n : Nat) (ds : List Deed) (k : Nat) : Ending α → Prop
  | some (t, _) => Soon n ds k t
  | none => Busy ds ∨ Soon n ds k (N + 1)

theorem Busy.mono (h : Busy ds) (hs : ∀ d ∈ ds, d ∈ ds') : Busy ds' := by
  obtain ⟨m, u, c, args, inner, hd⟩ := h
  exact ⟨m, u, c, args, inner, hs _ hd⟩

theorem Soon.mono (h : Soon n ds k t) (hs : ∀ d ∈ ds, d ∈ ds') (hk : k ≤ l) : Soon n ds' l t := by
  obtain ⟨i, hi, ht⟩ := h
  refine ⟨i, hi.imp id fun ⟨m, u, c, args, inner, o, hd⟩ => ⟨m, u, c, args, inner, o, hs _ hd⟩, ?_⟩
  omega

/-- What comes soon after what has come soon. -/
theorem Soon.trans {t' : Nat} (h : Soon n ds k t) (h' : Soon t ds' l t') :
    Soon n (ds ++ ds') (k + l) t' := by
  obtain ⟨i, rfl | ⟨m, u, c, args, inner, o, hd⟩, ht'⟩ := h'
  · obtain ⟨j, hj, ht⟩ := h.mono (fun _ => List.mem_append_left ds') le_rfl
    exact ⟨j, hj, by omega⟩
  · exact ⟨i, Or.inr ⟨m, u, c, args, inner, o, List.mem_append_right _ hd⟩, by omega⟩

theorem Brisk.mono {e : Ending α} (h : Brisk N n ds k e) (hs : ∀ d ∈ ds, d ∈ ds') (hk : k ≤ l) :
    Brisk N n ds' l e := by
  cases e with
  | none => exact Or.imp (fun h => Busy.mono h hs) (fun h => Soon.mono h hs hk) h
  | some e => exact Soon.mono h hs hk

/-- What goes on after deeds that have come to their end. -/
theorem Brisk.append {o : Except Failure α} {e : Ending β} (h : Brisk N n ds k (some (t, o)))
    (h' : Brisk N t ds' l e) : Brisk N n (ds ++ ds') (k + l) e := by
  cases e with
  | none => exact Or.imp (fun h => h.mono fun _ => List.mem_append_right ds) (Soon.trans h) h'
  | some e => exact Soon.trans h h'

end Deed

open Deed

namespace Account

theorem brisk_done {a : α} {e : Ending α} (h : Account R run plan N b n (.now (.done a)) ds e) :
    Brisk N n ds 0 e := by
  obtain ⟨rfl, rfl⟩ := h.done_iff
  exact ⟨n, Or.inl rfl, le_rfl⟩

theorem brisk_bind {x : Outline α} {g : α → Outline β} {e : Ending β}
    (h : Account R run plan N b n (.now (x >>= g)) ds e)
    (hx : ∀ {ds e}, Account R run plan N b n (.now x) ds e → Brisk N n ds k e)
    (hg : ∀ {t a ds e}, Account R run plan N b t (.now (g a)) ds e → Brisk N t ds l e) :
    Brisk N n ds (k + l) e := by
  rcases h.bind with ⟨ds₁, t, a, ds₂, h₁, h₂, rfl⟩ | ⟨t, f, h₁, rfl⟩ | ⟨h₁, rfl⟩
  · exact (hx h₁).append (hg h₂)
  · exact (hx h₁).mono (fun _ => id) (Nat.le_add_right k l)
  · exact (hx h₁).mono (fun _ => id) (Nat.le_add_right k l)

/-- Straight code needs as many moments as it has actions. -/
theorem brisk_straight {r : Routine α} {e : Ending α}
    (h : Account R run plan N b n (.now (.plain r)) ds e) {o : Except Failure α} {s : Store}
    (hr : r.eval (R.store n) = some (k, o, s)) : Brisk N n ds k e := by
  by_cases hN : n + k ≤ N
  · rw [h.straight_over hr hN]
    exact ⟨n, Or.inl rfl, le_rfl⟩
  · rcases (h.straight hr).2 with rfl | ⟨rfl, -⟩
    · exact Or.inr ⟨n, Or.inl rfl, by omega⟩
    · exact ⟨n, Or.inl rfl, le_rfl⟩

theorem brisk_straight_bind {r : Routine α} {g : α → Outline β} {e : Ending β}
    (h : Account R run plan N b n (.now (.plain r >>= g)) ds e) {a : α} {s : Store}
    (hr : r.eval (R.store n) = some (k, .ok a, s))
    (hg : ∀ {ds e}, Account R run plan N b (n + k) (.now (g a)) ds e → Brisk N (n + k) ds l e) :
    Brisk N n ds (k + l) e := by
  rcases h.bind with ⟨ds₁, t, a', ds₂, h₁, h₂, rfl⟩ | ⟨t, f, h₁, rfl⟩ | ⟨h₁, rfl⟩
  · obtain ⟨-, he | ⟨he, -⟩⟩ := h₁.straight hr <;> cases he
    exact (h₁.brisk_straight hr).append (hg h₂)
  · exact (h₁.brisk_straight hr).mono (fun _ => id) (Nat.le_add_right k l)
  · exact (h₁.brisk_straight hr).mono (fun _ => id) (Nat.le_add_right k l)

theorem brisk_called {u : Use} {c : Ref .callable} {args : List Value} {e : Ending Value}
    (h : Account R run plan N b n (.now (.call u c args)) ds e) : Brisk N n ds 0 e := by
  obtain ⟨inner, rfl, -⟩ := h.called
  cases e with
  | none => exact Or.inl ⟨n, u, c, args, inner, List.mem_singleton_self _⟩
  | some e => exact ⟨e.1, Or.inr ⟨n, u, c, args, inner, e.2, List.mem_singleton_self _⟩, le_rfl⟩

theorem brisk_attempt {x : Outline α} {g : Except Failure α → Outline β} {e : Ending β}
    (h : Account R run plan N b n (.now (x.attempt >>= g)) ds e)
    (hx : ∀ {ds e}, Account R run plan N b n (.now x) ds e → Brisk N n ds k e)
    (hg : ∀ {t o ds e}, Account R run plan N b t (.now (g o)) ds e → Brisk N t ds l e) :
    Brisk N n ds (k + l) e := by
  rcases h.attempt with ⟨ds₁, t, o, ds₂, h₁, -, h₂, rfl⟩ | ⟨t, f, h₁, -, rfl⟩ | ⟨h₁, rfl⟩
  · exact (hx h₁).append (hg h₂)
  · exact (hx h₁).mono (fun _ => id) (Nat.le_add_right k l)
  · exact (hx h₁).mono (fun _ => id) (Nat.le_add_right k l)

theorem brisk_fail {f : Failure} {e : Ending α}
    (h : Account R run plan N b n (.now (.fail f)) ds e) : Brisk N n ds 0 e := by
  obtain ⟨rfl, rfl⟩ := h.fail_iff
  exact ⟨n, Or.inl rfl, le_rfl⟩

/-- Calls in a row take no time but that of user code. -/
theorem brisk_calls {u : Use} {args : List Value} {cs : List (Ref .callable)} {e : Ending Unit}
    (h : Account R run plan N b n
      (.now (Outline.each (fun c => Outline.call u c args >>= fun _ => pure ()) cs)) ds e) :
    Brisk N n ds 0 e := by
  induction cs generalizing n ds e with
  | nil => exact h.brisk_done
  | cons c cs ih =>
    exact h.brisk_bind (k := 0) (l := 0)
      (fun h => h.brisk_bind (k := 0) (l := 0) (fun h => h.brisk_called) fun h => h.brisk_done) ih

theorem brisk_emission {name : HookName} {args : List Value} {e : Ending Unit}
    (h : Account R run plan N b n (.now (.emit name args)) ds e) : Brisk N n ds 3 e := by
  obtain ⟨asks, h', rfl⟩ := Account.said h
  refine Brisk.mono (k := 1 + 2) ?_ (fun _ => List.mem_cons_of_mem _) le_rfl
  refine h'.brisk_straight_bind (Routine.eval_read _ _) fun h => ?_
  split at h
  · exact h.brisk_done.mono (fun _ => id) (by omega)
  · exact h.brisk_straight_bind (k := 2) (l := 0) (Routine.eval_alter _ _) fun h => h.brisk_calls

end Account

end Conductor
