import Conductor.Proofs.Account.Upkeep
import Conductor.Proofs.Store.Writing

/-!
# What attempts leave as it is

An attempt writes into its own execution and the dictionaries of it, adds to what executions have
logged, and puts new things into the store. A property of stores that none of this makes an end of is
spared (`Pursuit.Spared`): that an execution that is not its own is what it is and has logged what it
has logged (`Store.Holds`), that a value is a mapping with certain entries (`Store.Shows`), and how
often a goal may be attempted (`Store.Limits`).

Main result: all code of an attempt keeps every property that is spared (`Outlined.prepare_keeps` and
the lemmas beside it).
-/

namespace Conductor

/-- What an execution is apart from the names of the subtasks, which are noted while it goes on. -/
def Execution.stem (e : Execution) : Execution := { e with subtasks := default }

/-! ## Facts about stores -/

namespace Store

/-- What is in a list of log entries. -/
def logged (s : Store) (r : Ref .sequence) : List LogEntry :=
  (s.get r).filterMap fun v => match v with | .entry e => s.logEntries[e.index]? | _ => none

/-- An execution is there, it is what it is known to be, and some entries are in its log. -/
structure Holds (s : Store) (r : Ref .execution) (e : Execution) (es : List LogEntry) : Prop where
  there : r.index < s.executions.size
  stem : (s.get r).stem = e
  logs : e.logs.index < s.sequences.size
  entries : ∀ x ∈ es, x ∈ s.logged e.logs

/-- A value that is there is a mapping with certain entries. -/
def Shows (s : Store) (v : Value) (es : Entries Value) : Prop :=
  match v with
  | .dict r => r.index < s.dicts.size ∧ s.get r = es
  | .results r => r.index < s.results.size ∧ s.get r = es
  | .steps w => w.index < s.workflows.size ∧ s.mapping? v = some es
  | _ => False

/-- A goal is there, and may be attempted that often, if it says so. -/
def Limits (s : Store) (g : Ref .goal) (most : Option Int) : Prop :=
  g.index < s.goals.size ∧ (s.get g).maxAttempts = most

/-- A goal is there, and has a name. -/
def Named (s : Store) (g : Ref .goal) (name : String) : Prop :=
  g.index < s.goals.size ∧ (s.get g).name = name

variable {s t : Store} {v : Value} {es : Entries Value}

theorem Shows.mapping (h : s.Shows v es) : s.mapping? v = some es := by
  cases v with
  | dict r => exact congrArg some h.2
  | results r => exact congrArg some h.2
  | steps w => exact h.2
  | _ => exact h.elim

theorem Holds.mono {r : Ref .execution} {e : Execution} {xs ys : List LogEntry} (h : s.Holds r e xs)
    (hs : ∀ y ∈ ys, y ∈ xs) : s.Holds r e ys :=
  ⟨h.there, h.stem, h.logs, fun y hy => h.entries y (hs y hy)⟩

end Store

/-! ## What is spared -/

namespace Pursuit

/-- A property of stores that no write of an attempt makes an end of, up to writes into some
executions, of which only the subtasks may be noted, and into some dictionaries. -/
structure Spared (X : Set (Ref .execution)) (D : Set (Ref .dict)) (P : Store → Prop) : Prop where
  counted : ∀ s k, P s → P { s with executionCount := k }
  kept : ∀ s h, P s → P { s with history := h }
  failed : ∀ s, P s → P { s with nextFailure := s.nextFailure + 1 }
  written : ∀ s h, P s → P (s.write h)
  sequence : ∀ s xs, P s → P (s.alloc (t := .sequence) xs).2
  appended : ∀ s (q : Ref .sequence) xs, P s → P (s.update q fun ys => ys ++ xs)
  dict : ∀ s es, P s → P (s.newDict es).2
  inserted : ∀ s d key v, d ∉ D → P s → P (s.insert d key v)
  goal : ∀ s x, P s → P (s.alloc (t := .goal) x).2
  evaluation : ∀ s x, P s → P (s.alloc (t := .evaluation) x).2
  reply : ∀ s x, P s → P (s.alloc (t := .reply) x).2
  entry : ∀ s x, P s → P (s.alloc (t := .entry) x).2
  execution : ∀ s x, P s → P (s.alloc (t := .execution) x).2
  updated : ∀ s r f, r ∉ X ∨ (∀ e : Execution, (f e).stem = e.stem) → P s → P (s.update r f)

variable {X Y : Set (Ref .execution)} {D E : Set (Ref .dict)} {P Q : Store → Prop}

theorem Spared.mono (h : Spared X D P) (hX : X ⊆ Y) (hD : D ⊆ E) : Spared Y E P :=
  { h with
    inserted := fun s d key v hd => h.inserted s d key v fun hd' => hd (hD hd')
    updated := fun s r f hr => h.updated s r f (hr.imp_left fun hr hr' => hr (hX hr')) }

/-- What is spared for each of some reasons is spared for all of them. -/
theorem Spared.forall {ι : Sort*} {P : ι → Store → Prop} (h : ∀ i, Spared X D (P i)) :
    Spared X D fun s => ∀ i, P i s where
  counted s k hs i := (h i).counted s k (hs i)
  kept s x hs i := (h i).kept s x (hs i)
  failed s hs i := (h i).failed s (hs i)
  written s x hs i := (h i).written s x (hs i)
  sequence s xs hs i := (h i).sequence s xs (hs i)
  appended s q xs hs i := (h i).appended s q xs (hs i)
  dict s es hs i := (h i).dict s es (hs i)
  inserted s d key v hd hs i := (h i).inserted s d key v hd (hs i)
  goal s x hs i := (h i).goal s x (hs i)
  evaluation s x hs i := (h i).evaluation s x (hs i)
  reply s x hs i := (h i).reply s x (hs i)
  entry s x hs i := (h i).entry s x (hs i)
  execution s x hs i := (h i).execution s x (hs i)
  updated s r f hr hs i := (h i).updated s r f hr (hs i)

theorem Spared.and (h : Spared X D P) (h' : Spared Y E Q) :
    Spared (X ∪ Y) (D ∪ E) fun s => P s ∧ Q s := by
  have h₁ : Spared (X ∪ Y) (D ∪ E) P := h.mono Set.subset_union_left Set.subset_union_left
  have h₂ : Spared (X ∪ Y) (D ∪ E) Q := h'.mono Set.subset_union_right Set.subset_union_right
  have hall := Spared.forall (P := fun b : Bool => cond b P Q) fun b => by
    cases b
    · exact h₂
    · exact h₁
  have heq : (fun s => P s ∧ Q s) = fun s => ∀ b : Bool, cond b P Q s := by
    funext s
    exact propext ⟨fun hs b => by cases b; exacts [hs.2, hs.1], fun hs => ⟨hs true, hs false⟩⟩
  rw [heq]
  exact hall

section Facts

open Store

theorem spared_true : Spared ∅ ∅ fun _ => True := by constructor <;> intros <;> trivial

/-- What is known of an execution is spared by all writes but those into it. -/
theorem spared_holds (r : Ref .execution) (e : Execution) (es : List LogEntry) :
    Spared {r} ∅ fun s => s.Holds r e es where
  counted _ _ h := ⟨h.there, h.stem, h.logs, h.entries⟩
  kept _ _ h := ⟨h.there, h.stem, h.logs, h.entries⟩
  failed _ h := ⟨h.there, h.stem, h.logs, h.entries⟩
  written _ _ h := ⟨h.there, h.stem, h.logs, h.entries⟩
  dict _ _ h := ⟨h.there, h.stem, h.logs, h.entries⟩
  inserted _ _ _ _ _ h := ⟨h.there, h.stem, h.logs, h.entries⟩
  goal _ _ h := ⟨h.there, h.stem, h.logs, h.entries⟩
  evaluation _ _ h := ⟨h.there, h.stem, h.logs, h.entries⟩
  reply _ _ h := ⟨h.there, h.stem, h.logs, h.entries⟩
  sequence s xs h := by
    refine ⟨h.there, h.stem, ?_, fun x hx => ?_⟩
    · exact (Nat.lt_succ_of_lt h.logs).trans_eq (Array.size_push _).symm
    · have hget : (s.alloc (t := .sequence) xs).2.get e.logs = s.get e.logs := getD_push_of_lt h.logs
      have hx := h.entries x hx
      unfold logged at hx ⊢
      rw [hget]
      exact hx
  appended s q xs h := by
    refine ⟨h.there, h.stem, h.logs.trans_eq Array.size_setIfInBounds.symm, fun x hx => ?_⟩
    have hx := h.entries x hx
    unfold logged at hx ⊢
    by_cases hq : e.logs = q
    · subst hq
      have hget : (s.update e.logs fun ys => ys ++ xs).get e.logs = s.get e.logs ++ xs :=
        getD_setIfInBounds_self h.logs
      rw [hget, List.filterMap_append]
      exact List.mem_append_left _ hx
    · have hget : (s.update q fun ys => ys ++ xs).get e.logs = s.get e.logs :=
        getD_setIfInBounds_of_ne fun heq => hq (congrArg Ref.mk heq)
      rw [hget]
      exact hx
  entry s y h := by
    refine ⟨h.there, h.stem, h.logs, fun x hx => ?_⟩
    obtain ⟨v, hv, hx⟩ := List.mem_filterMap.1 (h.entries x hx)
    refine List.mem_filterMap.2 ⟨v, hv, ?_⟩
    cases v with
    | entry i =>
      have hi : i.index ≠ s.logEntries.size := Nat.ne_of_lt (Array.getElem?_eq_some_iff.1 hx).1
      exact Array.getElem?_push.trans ((if_neg hi).trans hx)
    | _ => exact hx
  execution s y h := by
    refine ⟨?_, ?_, h.logs, h.entries⟩
    · exact (Nat.lt_succ_of_lt h.there).trans_eq (Array.size_push _).symm
    · exact (congrArg Execution.stem (getD_push_of_lt h.there)).trans h.stem
  updated s q f hq h := by
    refine ⟨h.there.trans_eq Array.size_setIfInBounds.symm, ?_, h.logs, h.entries⟩
    by_cases hr : r = q
    · subst hr
      refine (congrArg Execution.stem (getD_setIfInBounds_self h.there)).trans ?_
      exact (hq.resolve_left (by simp) _).trans h.stem
    · refine (congrArg Execution.stem (getD_setIfInBounds_of_ne fun heq => ?_)).trans h.stem
      exact hr (congrArg Ref.mk heq)

/-- The entries of a mapping are spared by all writes but those into it. -/
theorem spared_shows (v : Value) (es : Entries Value) :
    Spared ∅ {d | v = .dict d} fun s => s.Shows v es where
  counted _ _ h := by cases v <;> exact h
  kept _ _ h := by cases v <;> exact h
  failed _ h := by cases v <;> exact h
  written _ _ h := by cases v <;> exact h
  sequence _ _ h := by cases v <;> exact h
  appended _ _ _ h := by cases v <;> exact h
  goal _ _ h := by cases v <;> exact h
  evaluation _ _ h := by cases v <;> exact h
  reply _ _ h := by cases v <;> exact h
  entry _ _ h := by cases v <;> exact h
  execution _ _ h := by cases v <;> exact h
  updated _ _ _ _ h := by cases v <;> exact h
  dict s xs h := by
    cases v with
    | dict d =>
      exact ⟨(Nat.lt_succ_of_lt h.1).trans_eq (Array.size_push _).symm,
        Eq.trans (getD_push_of_lt h.1) h.2⟩
    | _ => exact h
  inserted s d key x hd h := by
    cases v with
    | dict d' =>
      refine ⟨h.1.trans_eq Array.size_setIfInBounds.symm,
        Eq.trans (getD_setIfInBounds_of_ne fun heq => hd ?_) h.2⟩
      exact congrArg Value.dict (congrArg Ref.mk heq)
    | _ => exact h

/-- What a goal is is spared by all writes. -/
theorem spared_goal (g : Ref .goal) (Q : Goal → Prop) :
    Spared ∅ ∅ fun s => g.index < s.goals.size ∧ Q (s.get g) where
  counted _ _ h := h
  kept _ _ h := h
  failed _ h := h
  written _ _ h := h
  sequence _ _ h := h
  appended _ _ _ h := h
  dict _ _ h := h
  inserted _ _ _ _ _ h := h
  evaluation _ _ h := h
  reply _ _ h := h
  entry _ _ h := h
  execution _ _ h := h
  updated _ _ _ _ h := h
  goal s x h := by
    have hget : (s.alloc (t := .goal) x).2.get g = s.get g := getD_push_of_lt h.1
    exact ⟨(Nat.lt_succ_of_lt h.1).trans_eq (Array.size_push _).symm, hget ▸ h.2⟩

/-- How often a goal may be attempted is spared by all writes. -/
theorem spared_limits (g : Ref .goal) (most : Option Int) :
    Spared ∅ ∅ fun s => s.Limits g most := spared_goal g fun x => x.maxAttempts = most

/-- The name of a goal is spared by all writes. -/
theorem spared_named (g : Ref .goal) (name : String) : Spared ∅ ∅ fun s => s.Named g name :=
  spared_goal g fun x => x.name = name

/-- The time is spared by all writes. -/
theorem spared_now (x : Except Cause Int) : Spared ∅ ∅ fun s => s.now = x where
  counted _ _ h := h
  kept _ _ h := h
  failed _ h := h
  written _ _ h := h
  sequence _ _ h := h
  appended _ _ _ h := h
  dict _ _ h := h
  inserted _ _ _ _ _ h := h
  goal _ _ h := h
  evaluation _ _ h := h
  reply _ _ h := h
  entry _ _ h := h
  execution _ _ h := h
  updated _ _ _ _ h := h

end Facts

/-- From one store to another, all that is spared is kept, up to writes into some executions. -/
def Spares (W : Set (Ref .execution)) (s t : Store) : Prop :=
  ∀ ⦃X D P⦄, Spared X D P → Disjoint W X → P s → P t

namespace Spares

variable {W : Set (Ref .execution)} {s t u : Store}

theorem refl (W : Set (Ref .execution)) (s : Store) : Spares W s s := fun _ _ _ _ _ h => h

theorem trans (h : Spares W s t) (h' : Spares W t u) : Spares W s u :=
  fun _ _ _ hP hW hs => h' hP hW (h hP hW hs)

theorem mono (h : Spares ∅ s t) : Spares W s t :=
  fun _ _ _ hP _ hs => h hP (Set.empty_disjoint _) hs

theorem holds (h : Spares W s t) {r : Ref .execution} (hr : r ∉ W) {e : Execution}
    {es : List LogEntry} (hs : s.Holds r e es) : t.Holds r e es :=
  h (spared_holds r e es) (Set.disjoint_singleton_right.2 hr) hs

theorem now (h : Spares W s t) : t.now = s.now :=
  h (spared_now s.now) (Set.disjoint_empty _) rfl

theorem shows (h : Spares W s t) {v : Value} {es : Entries Value} (hs : s.Shows v es) :
    t.Shows v es :=
  h (spared_shows v es) (Set.disjoint_empty _) hs

theorem limits (h : Spares W s t) {g : Ref .goal} {most : Option Int} (hs : s.Limits g most) :
    t.Limits g most :=
  h (spared_limits g most) (Set.disjoint_empty _) hs

end Spares

/-! ## The code of attempts -/

section Code

open Routine

variable (hP : Spared X D P) (δ : Desk) {r : Ref .execution}

include hP

theorem log_keeps (level : LogLevel) (logger message : String) (extras : List (String × Datum)) :
    (Routine.log level logger message extras).Keeps P :=
  keeps_alter fun s => hP.written s _

theorem executionLog_keeps (r : Ref .execution) (level message : String) (data : Value) :
    (Execution.log r level message data).Keeps P := by
  refine Keeps.bind (Keeps.bind (keeps_query hP.failed _) fun moment => keeps_modifyGet fun s hs => ?_)
    fun entry => Keeps.bind (keeps_read _) fun e => ?_
  · exact hP.appended _ _ [.entry _] (hP.entry s _ hs)
  · split
    · exact Keeps.bind (log_keeps hP _ _ _ _) fun _ => show True from trivial
    · trivial
    · exact keeps_raise hP.failed _

theorem finish_keeps (hr : r ∉ X) (status : Status) : (Execution.finish r status).Keeps P :=
  Keeps.bind (keeps_alter fun s => hP.updated s r _ (Or.inl hr)) fun _ =>
    Keeps.bind (keeps_query hP.failed _) fun _ => keeps_alter fun s => hP.updated s r _ (Or.inl hr)

theorem progress_keeps (e : Ref .execution) (message : String) : (δ.progress e message).Keeps P :=
  Keeps.bind (keeps_read _) fun _ => log_keeps hP _ _ _ _

theorem subtask_keeps (g : Ref .goal) (input : Entries Value) (capability : String) :
    (Desk.subtask g input capability).Keeps P :=
  keeps_modifyGet fun s hs => hP.goal _ _ (hP.dict _ _ (hP.sequence _ _ (hP.dict s _ hs)))

theorem decompose_keeps (g : Ref .goal) (input : Entries Value) (strategy : Strategy) :
    (Desk.decompose g input strategy).Keeps P := by
  refine Keeps.bind (keeps_read _) fun cs => ?_
  dsimp only
  split
  · trivial
  · exact keeps_collect (subtask_keeps hP g input) _

theorem plan_keeps (r : Ref .execution) (g : Ref .goal) (input : Entries Value) :
    (δ.plan r g input).Keeps P := by
  refine Keeps.bind ?_ fun _ => Keeps.bind (decompose_keeps hP g input _) fun _ =>
    Keeps.bind (keeps_read _) fun _ => Keeps.bind (keeps_alter fun s hs => ?_) fun _ =>
      Keeps.bind (keeps_read _) fun _ => Keeps.bind (progress_keeps hP δ _ _) fun _ =>
        show True from trivial
  · unfold Desk.analyze
    split
    · trivial
    · exact keeps_read _
  · exact hP.updated _ r _ (Or.inr fun _ => rfl) (hP.sequence s _ hs)

theorem aggregate_keeps (names : List String) (results : List Value) :
    (Desk.aggregate names results).Keeps P := by
  unfold Desk.aggregate
  split
  · trivial
  · exact keeps_modifyGet fun s => hP.dict s _

theorem dump_keeps (e : Ref .evaluation) : (Evaluation.dump e).Keeps P :=
  keeps_modifyGet fun s hs => hP.dict _ _ (hP.sequence _ _ (hP.dict s _ hs))

theorem settleFor_keeps (r : Ref .execution) (goal : Goal) (result : Value) (e : Ref .evaluation) :
    (Desk.settleFor r goal result e).Keeps P :=
  Keeps.bind (keeps_read _) fun _ => Keeps.bind (dump_keeps hP e) fun _ =>
    Keeps.bind (executionLog_keeps hP r _ _ _) fun _ => Keeps.bind (dump_keeps hP e) fun _ =>
      keeps_modifyGet fun s => hP.dict s _

theorem enhance_keeps (input result : Value) (e : Ref .evaluation) :
    (Desk.enhance input result e).Keeps P :=
  Keeps.bind (dump_keeps hP e) fun _ => keeps_modifyGet fun s hs => hP.dict _ _ (hP.dict s _ hs)

theorem emit_keeps (name : HookName) (args : List Value) : (Outline.emit name args).Keeps P :=
  Outline.keeps_emit hP.written name args

theorem agent_keeps (a : Ref .agent) (task body : Value) (tools : Entries Value) :
    (Agent.outline a task body tools).Keeps P := by
  refine Outline.Keeps.bind (Outline.keeps_plain (keeps_modifyGet fun s => hP.dict s _)) fun _ =>
    Outline.Keeps.bind (emit_keeps hP _ _) fun _ => Outline.Keeps.bind (Outline.Keeps.attempt ?_)
      fun o => ?_
  · refine Outline.Keeps.bind (Outline.keeps_plain (keeps_read _)) fun _ =>
      Outline.Keeps.bind (Outline.keeps_plain (keeps_modifyGet fun s => hP.reply s _)) fun _ =>
        Outline.Keeps.bind (Outline.keeps_call _ _ _) fun _ s hs => ?_
    dsimp only
    split
    · trivial
    · trivial
    · exact Outline.keeps_plain (keeps_raise hP.failed _)
  · cases o with
    | ok v => exact Outline.Keeps.bind (emit_keeps hP _ _) fun _ => Outline.keeps_pure _
    | error f => exact Outline.Keeps.bind (emit_keeps hP _ _) fun _ => show True from trivial

theorem choose_keeps (hr : ∀ s, P s → (s.get r).agents ∉ D) (g : Ref .goal) :
    (δ.choose r g).Keeps P :=
  Keeps.bind (keeps_query hP.failed _) fun _ => Keeps.bind (keeps_read _) fun _ =>
    Keeps.bind (keeps_read _) fun _ =>
      Keeps.bind (keeps_alter fun s hs => hP.inserted s _ _ _ (hr s hs) hs) fun _ =>
        Keeps.bind (progress_keeps hP δ _ _) fun _ => show True from trivial

theorem file_keeps (hr : ∀ s, P s → (s.get r).results ∉ D) (g : Ref .goal) (known : Entries Value)
    (result : Value) : (δ.file r g known result).Keeps P :=
  Keeps.bind (keeps_read _) fun _ =>
    Keeps.bind (keeps_modifyGet fun s hs => hP.inserted s _ _ _ (hr s hs) hs) fun _ =>
      Keeps.bind (progress_keeps hP δ _ _) fun _ => show True from trivial

theorem handOut_keeps (hr : ∀ s, P s → (s.get r).agents ∉ D ∧ (s.get r).results ∉ D) (g : Ref .goal)
    (known : Entries Value) : (Outlined.handOut δ r g known).Keeps P :=
  Outline.Keeps.bind (Outline.keeps_plain (choose_keeps hP δ (fun s hs => (hr s hs).1) g)) fun _ =>
    Outline.Keeps.bind (Outline.keeps_plain (keeps_modifyGet fun s => hP.dict s _)) fun _ =>
      Outline.Keeps.bind (agent_keeps hP _ _ _ _) fun _ =>
        Outline.Keeps.bind (Outline.keeps_plain (file_keeps hP δ (fun s hs => (hr s hs).2) g _ _))
          fun _ => Outline.keeps_pure _

theorem handOutAll_keeps (hr : ∀ s, P s → (s.get r).agents ∉ D ∧ (s.get r).results ∉ D) :
    ∀ (gs : List (Ref .goal)) (known : Entries Value), (Outlined.handOutAll δ r known gs).Keeps P
  | [], _ => trivial
  | _ :: rest, _ => Outline.Keeps.bind (handOut_keeps hP δ hr _ _) fun _ =>
      Outline.Keeps.bind (handOutAll_keeps hr rest _) fun _ => Outline.keeps_pure _

theorem judge_keeps (j : Evaluation.Judge) (g : Ref .goal) (result : Value) :
    (Evaluation.Outlined.judge j g result).Keeps P := by
  have hrecord : ∀ passed score scores unmet,
      (Evaluation.record passed score scores unmet).Keeps P := fun _ _ _ _ =>
    keeps_modifyGet fun s hs => hP.evaluation _ _ (hP.sequence _ _ (hP.dict s _ hs))
  have hscores : ∀ criteria, (Evaluation.Outlined.scores j result criteria).Keeps P := by
    intro criteria
    induction criteria with
    | nil => trivial
    | cons x more ih =>
      refine Outline.Keeps.bind ?_ fun _ => Outline.Keeps.bind ih fun _ => Outline.keeps_pure _
      unfold Evaluation.Outlined.scoreOf
      split
      · exact Outline.keeps_plain (keeps_read _)
      · exact Outline.Keeps.bind (Outline.keeps_call _ _ _) fun _ =>
          Outline.keeps_plain (keeps_query hP.failed _)
  refine Outline.Keeps.bind (emit_keeps hP _ _) fun _ => Outline.Keeps.bind ?_ fun e =>
    Outline.Keeps.bind (emit_keeps hP _ _) fun _ => Outline.keeps_pure _
  refine Outline.Keeps.bind (Outline.keeps_plain (keeps_read _)) fun criteria => ?_
  split
  · exact Outline.keeps_plain (hrecord _ _ _ _)
  · refine Outline.Keeps.bind (hscores _) fun scored => Outline.keeps_plain ?_
    exact Keeps.bind (keeps_read _) fun _ => Keeps.bind (hrecord _ _ _ _) fun _ =>
      Keeps.bind (keeps_read _) fun _ => Keeps.bind (log_keeps hP _ _ _ _) fun _ =>
        show True from trivial

end Code

end Pursuit

end Conductor
