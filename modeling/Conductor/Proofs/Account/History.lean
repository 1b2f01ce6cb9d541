import Conductor.Proofs.Account.Outline
import Conductor.Proofs.Account.Run

/-!
# Accounts of what a branch does

An account says what one branch does from some moment on, up to a horizon: what it remarks, which
user code it calls, which parts it calls or starts, each with what goes on inside, and how all of it
ends, if it ends before the horizon. Its entries are `Deed`s, in the order in which they begin, and
each carries the moment at which it begins.

`Account` follows the outline of the branch through a run: an action takes the branch from one
moment to the next, a wait takes it to the moment at which it gets the turn again. The accounts of
branches that are started side by side are part of the account of the branch that starts them.
-/

namespace Conductor

/-- When and how something ends, if it does. -/
abbrev Ending (α : Type) := Option (Nat × Except Failure α)

/-- What a branch does. -/
inductive Deed where
  | remark (n : Nat) (l : Remark)
  /-- User code is called. -/
  | ask (n : Nat) (u : Use) (c : Ref .callable) (args : List Value) (inner : List Deed)
    (e : Ending Value)
  /-- A part runs in a branch, having been called or started. -/
  | part (n : Nat) (b : BranchId) (p : Procedure) (inner : List Deed) (e : Ending Value)
  /-- Parts are started side by side. -/
  | fork (n : Nat) (kind : JoinKind) (inner : List Deed) (e : Ending (List Value))

namespace Deed

/-- The moment at which a deed begins. -/
def moment : Deed → Nat
  | .remark n _ | .ask n .. | .part n .. | .fork n .. => n

/-- What goes on inside a deed. -/
def inner : Deed → List Deed
  | .remark .. => []
  | .ask _ _ _ _ ds _ | .part _ _ _ ds _ | .fork _ _ ds _ => ds

end Deed

/-- A deed is among others, or inside of one of them, to any depth. -/
inductive Occurs (d : Deed) : List Deed → Prop where
  | here {ds : List Deed} (h : d ∈ ds) : Occurs d ds
  | inside {ds : List Deed} {d' : Deed} (h : d' ∈ ds) (hd : Occurs d d'.inner) : Occurs d ds

namespace Occurs

variable {d d' : Deed} {ds ds' : List Deed}

theorem mono (h : Occurs d ds) (hs : ∀ x ∈ ds, x ∈ ds') : Occurs d ds' := by
  cases h with
  | here h => exact .here (hs d h)
  | inside h hd => exact .inside (hs _ h) hd

theorem append : Occurs d (ds ++ ds') ↔ Occurs d ds ∨ Occurs d ds' := by
  constructor
  · intro h
    cases h with
    | here h => exact (List.mem_append.1 h).imp .here .here
    | inside h hd => exact (List.mem_append.1 h).imp (fun h => .inside h hd) fun h => .inside h hd
  · rintro (h | h)
    · exact h.mono fun x => List.mem_append_left _
    · exact h.mono fun x => List.mem_append_right _

theorem cons : Occurs d (d' :: ds) ↔ d = d' ∨ Occurs d d'.inner ∨ Occurs d ds := by
  constructor
  · intro h
    cases h with
    | here h => exact (List.mem_cons.1 h).imp id fun h => Or.inr (.here h)
    | inside h hd =>
      rcases List.mem_cons.1 h with rfl | h
      · exact Or.inr (Or.inl hd)
      · exact Or.inr (Or.inr (.inside h hd))
  · rintro (rfl | h | h)
    · exact .here List.mem_cons_self
    · exact .inside List.mem_cons_self h
    · exact h.mono fun x => List.mem_cons_of_mem _

@[simp] theorem not_nil : ¬Occurs d [] := by
  intro h
  cases h with
  | here h => cases h
  | inside h => cases h

theorem trans {x : Deed} (h : Occurs x d.inner) (hd : Occurs d ds) : Occurs x ds := by
  induction hd with
  | here hd => exact .inside hd h
  | inside hd' _ ih => exact .inside hd' ih

end Occurs

/-- Where a branch is: about to go on with an outline, or to do so when it gets the turn. -/
inductive Stretch (α : Type) where
  | now (x : Outline α)
  | later (x : Outline α)

/-- Whether an outline begins with an action. -/
def Outline.Acts {α : Type} : Outline α → Prop
  | .get _ | .put .. | .await .. => True
  | .done _ | .fail _ | .remark .. | .ask .. => False

/-- How a join over parts is left at a moment. -/
def JoinKind.Left (kind : JoinKind) {k : Nat} (es : Fin k → Ending Value) (n : Nat)
    (o : Outcome) : Prop :=
  match kind with
  | .all => (∃ vs : Fin k → Value, o = .ok (List.ofFn vs) ∧
        ∀ i, ∃ t < n, es i = some (t, .ok (vs i))) ∨
      ∃ f, o = .error f ∧ ∃ i, ∃ t < n, es i = some (t, .error f)
  | .first => ∃ i, ∃ t < n, ∃ x, es i = some (t, x) ∧ o = Routine.only x
  | .ended => False

section

variable {body : Procedure → Routine Value} (R : Run body) (run : Handlers)
  (plan : Procedure → Outline Value) (N : Nat)

/-- What parts that are started side by side do, each in a branch of its own. -/
def Deed.parts (n first : Nat) (ps : List Procedure) (dss : Fin ps.length → List Deed)
    (es : Fin ps.length → Ending Value) : List Deed :=
  List.ofFn fun i => .part n (first + i) (ps.get i) (dss i) (es i)

/-- What a branch does from a moment on, up to the moment `N`. -/
inductive Account : {α : Type} → Nat → Nat → Stretch α → List Deed → Ending α → Prop where
  | done {α : Type} {b n : Nat} (a : α) : Account b n (.now (.done a)) [] (some (n, .ok a))
  | fail {α : Type} {b n : Nat} (f : Failure) :
    Account (α := α) b n (.now (.fail f)) [] (some (n, .error f))
  | stop {α : Type} {b : Nat} (x : Outline α) (h : x.Acts) (ht : R.HasTurn b N) :
    Account b N (.now x) [] none
  | remark {α : Type} {b n : Nat} (l : Remark) {x : Outline α} {ds e}
    (h : Account b n (.now x) ds e) : Account b n (.now (.remark l x)) (.remark n l :: ds) e
  | get {α : Type} {b n : Nat} {k : Store → Outline α} {ds e} (hn : n < N) (ht : R.HasTurn b n)
    (hs : R.store (n + 1) = R.store n) (h : Account b (n + 1) (.now (k (R.store n))) ds e) :
    Account b n (.now (.get k)) ds e
  | put {α : Type} {b n : Nat} {s : Store} {x : Outline α} {ds e} (hn : n < N)
    (ht : R.HasTurn b n) (hs : R.store (n + 1) = s) (h : Account b (n + 1) (.now x) ds e) :
    Account b n (.now (.put s x)) ds e
  | ask {α : Type} {b n t : Nat} (u : Use) (c : Ref .callable) (args : List Value) {o}
    {k : Except Failure Value → Outline α} {ds ds' e}
    (h : Account b n (.now (.plain (run c args))) ds (some (t, o)))
    (hk : Account b t (.now (k o)) ds' e) :
    Account b n (.now (.ask u c args k)) (.ask n u c args ds (some (t, o)) :: ds') e
  | asking {α : Type} {b n : Nat} (u : Use) (c : Ref .callable) (args : List Value)
    {k : Except Failure Value → Outline α} {ds}
    (h : Account b n (.now (.plain (run c args))) ds none) :
    Account b n (.now (.ask u c args k)) [.ask n u c args ds none] none
  | call {α : Type} {b n t : Nat} {p : Procedure} {k : Outcome → Outline α} {o ds ds' e}
    (hn : n < N) (ht : R.HasTurn b n) (hs : R.store (n + 1) = R.store n)
    (h : Account b (n + 1) (.now (plan p)) ds (some (t, o)))
    (hk : Account b t (.now (k (Routine.only o))) ds' e) :
    Account b n (.now (.await (.call p) k)) (.part n b p ds (some (t, o)) :: ds') e
  | calling {α : Type} {b n : Nat} {p : Procedure} {k : Outcome → Outline α} {ds}
    (hn : n < N) (ht : R.HasTurn b n) (hs : R.store (n + 1) = R.store n)
    (h : Account b (n + 1) (.now (plan p)) ds none) :
    Account b n (.now (.await (.call p) k)) [.part n b p ds none] none
  | sleep {α : Type} {b n : Nat} {x : Binary64} {k : Outcome → Outline α} {ds e} (hn : n < N)
    (ht : R.HasTurn b n) (h : Account b (n + 1) (.later (k (.ok []))) ds e) :
    Account b n (.now (.await (.sleep x) k)) ds e
  | resume {α : Type} {b n t : Nat} {x : Outline α} {ds e} (hn : n ≤ t) (hN : t ≤ N)
    (hi : R.Idle b n t) (ht : R.HasTurn b t) (h : Account b t (.now x) ds e) :
    Account b n (.later x) ds e
  | rest {α : Type} {b n : Nat} (x : Outline α) (hn : n ≤ N) (hi : R.Idle b n (N + 1)) :
    Account b n (.later x) [] none
  | skip {α : Type} {b n : Nat} {w : Wait} {kind : JoinKind} {k : Outcome → Outline α} {ds e}
    (hw : Schedule.sides w = some (kind, [])) (hn : n < N) (ht : R.HasTurn b n)
    (hs : R.store (n + 1) = R.store n) (h : Account b (n + 1) (.now (k (.ok []))) ds e) :
    Account b n (.now (.await w k)) ds e
  | fork {α : Type} {b n t : Nat} {w : Wait} {kind : JoinKind} {ps : List Procedure}
    {k : Outcome → Outline α} {o ds e} {dss : Fin ps.length → List Deed}
    {es : Fin ps.length → Ending Value} (hw : Schedule.sides w = some (kind, ps)) (hps : ps ≠ [])
    (hn : n < t) (hN : t ≤ N) (ht : R.HasTurn b n) (hi : R.Idle b (n + 1) t)
    (ht' : R.HasTurn b t)
    (h : ∀ i : Fin ps.length, Account ((R.moment n).branches.size + i) (n + 1)
      (.later (plan (ps.get i))) (dss i) (es i))
    (hv : R.Woken t o) (ho : kind.Left es t o)
    (hd : ∀ i : Fin ps.length, (∃ s < t, ∃ x, es i = some (s, x)) ∨
      (R.moment n).branches.size + i ∈ (R.moment t).detached ∨
        ∃ f, o = .error f ∧ f.isCatchable = false)
    (hk : Account b t (.now (k o)) ds e) :
    Account b n (.now (.await w k))
      (.fork n kind (Deed.parts n (R.moment n).branches.size ps dss es) (some (t, o)) :: ds) e
  | forking {α : Type} {b n : Nat} {w : Wait} {kind : JoinKind} {ps : List Procedure}
    {k : Outcome → Outline α} {dss : Fin ps.length → List Deed}
    {es : Fin ps.length → Ending Value} (hw : Schedule.sides w = some (kind, ps)) (hps : ps ≠ [])
    (hn : n < N) (ht : R.HasTurn b n) (hi : R.Idle b (n + 1) (N + 1))
    (h : ∀ i : Fin ps.length, Account ((R.moment n).branches.size + i) (n + 1)
      (.later (plan (ps.get i))) (dss i) (es i)) :
    Account b n (.now (.await w k))
      [.fork n kind (Deed.parts n (R.moment n).branches.size ps dss es) none] none
  | drain {α : Type} {b n : Nat} {k : Outcome → Outline α} {ds e} (hn : n < N)
    (ht : R.HasTurn b n) (hd : (R.moment n).detached ≠ []) (h : Account b (n + 1) (.later (.await .detached k)) ds e) :
    Account b n (.now (.await .detached k)) ds e
  | drained {α : Type} {b n : Nat} {k : Outcome → Outline α} {ds e} (hn : n < N)
    (ht : R.HasTurn b n) (hd : (R.moment n).detached = []) (hs : R.store (n + 1) = R.store n)
    (h : Account b (n + 1) (.now (k (.ok []))) ds e) :
    Account b n (.now (.await .detached k)) ds e

end

end Conductor
