import Conductor.Proofs.Goal.Keeping

/-!
# The stages of an attempt

An attempt to reach a goal gets an execution (`Pursuit.Opened`), works until its result has been
judged (`Outlined.prepare`), concludes from that judgement, and is closed (`Outlined.close`). It
concludes by accepting its result (`Accepts`) or by calling a further attempt with feedback
(`Retries`), whose outcome then is its own.

Code that waits for nothing makes a known store of the one before: what it writes is stated by
`Logs`, `Finishes`, `Opened`, `Dumps`, `Enhances` and `Annotates`, and all else is left as it is
(`Spares`).

Main result: a call that pursues a goal and is over is a chain of attempts that have gone through
these stages (`attempts`).
-/

namespace Conductor

open Outline (say plain call emit)

namespace Pursuit

variable {s t u : Store} {r : Ref .execution}

section Straight

open Routine
open Store (getD_push_of_lt getD_setIfInBounds_self)

/-! ## Code that waits for nothing -/

/-- What code gives of which all that it keeps is known. -/
theorem gives_spares {α : Type} {c : Routine α} {Q : α → Store → Prop} (h : c.Gives Q s)
    (hc : ∀ {X D P}, Spared X D P → c.Keeps P) : c.Gives (fun a t => Q a t ∧ Spares ∅ s t) s :=
  h.keeping.mono fun _ _ ht => ⟨ht.1, fun _ _ _ hP _ => ht.2 _ (hc hP)⟩

/-- An entry has been added to the log of an execution. -/
def Logs (s : Store) (r : Ref .execution) (level message : String) (t : Store) : Prop :=
  t.evaluations = s.evaluations ∧ ∃ x : LogEntry, x.level = level ∧ x.message = message ∧
    ∀ e es, s.Holds r e es → t.Holds r e (x :: es)

theorem append_gives {moment : Int} (hnow : s.now = .ok moment) (level message : String)
    (data : Value) : (Execution.append r level message data).Gives
      (fun _ t => Logs s r level message t) s := by
  refine Gives.bind (gives_query (P := fun x t => moment = x ∧ s = t) hnow ⟨rfl, rfl⟩) ?_
  rintro _ _ ⟨rfl, rfl⟩
  refine ⟨rfl, ⟨moment, level, message, data⟩, rfl, rfl, fun e es h => ?_⟩
  have hlogs : (s.get r).logs = e.logs := by rw [← h.stem]; rfl
  have hold := (spared_holds r e es).appended _ (s.get r).logs
    [.entry (s.alloc (t := .entry) ⟨moment, level, message, data⟩).1]
    ((spared_holds r e es).entry s ⟨moment, level, message, data⟩ h)
  refine ⟨hold.there, hold.stem, hold.logs, fun y hy => ?_⟩
  rcases List.mem_cons.1 hy with rfl | hy
  · -- The new entry is the last in the list.
    refine List.mem_filterMap.2 ⟨.entry ⟨s.logEntries.size⟩, ?_, Array.getElem?_push_size⟩
    have hlast : Value.entry ⟨s.logEntries.size⟩ ∈ (s.update (s.get r).logs fun ys => ys ++
        [Value.entry ⟨s.logEntries.size⟩]).get e.logs := by
      rw [hlogs]
      refine (congrArg (Value.entry ⟨s.logEntries.size⟩ ∈ ·) (getD_setIfInBounds_self h.logs)).mpr ?_
      exact List.mem_append_right _ List.mem_cons_self
    exact hlast
  · exact hold.entries y hy

theorem log_gives {moment : Int} (hnow : s.now = .ok moment) {level : String} {l : LogLevel}
    (hl : LogLevel.ofText level = .level l) (message : String) (data : Value) :
    (Execution.log r level message data).Gives
      (fun _ t => Logs s r level message t ∧ Spares ∅ s t) s := by
  refine gives_spares ((append_gives hnow level message data).bind fun _ t ht => ?_)
    fun hP => executionLog_keeps hP r level message data
  show Gives _ (Routine.bind _ _) t
  refine Gives.bind (r := read _) (P := fun _ u => t = u) rfl ?_
  rintro e _ rfl
  rw [hl]
  obtain ⟨he, x, hx, hm, hh⟩ := ht
  exact ⟨he, x, hx, hm, fun e es h => (spared_holds r e (x :: es)).written _ _ (hh e es h)⟩

theorem holds_update {e : Execution} {es : List LogEntry} (h : s.Holds r e es)
    {f : Execution → Execution} (hf : ∀ x, (f x).stem = f x.stem) (hl : (f e).logs = e.logs) :
    (s.update r f).Holds r (f e) es := by
  refine ⟨h.there.trans_eq Array.size_setIfInBounds.symm, ?_, hl ▸ h.logs, hl ▸ h.entries⟩
  refine (congrArg Execution.stem (getD_setIfInBounds_self h.there)).trans ?_
  rw [hf]
  exact congrArg f h.stem

/-- An execution has been finished. -/
def Finishes (s : Store) (r : Ref .execution) (status : Status) (t : Store) : Prop :=
  ∃ moment, ∀ e es, s.Holds r e es →
    t.Holds r { e with status := status, endTime := some moment } es

theorem finish_gives {moment : Int} (hnow : s.now = .ok moment) (status : Status) :
    (Execution.finish r status).Gives (fun _ t => Finishes s r status t ∧ Spares {r} s t) s := by
  have hfinish : (Execution.finish r status).Gives (fun _ t => Finishes s r status t) s := by
    refine Gives.bind (r := Execution.setStatus r status)
      (P := fun _ t => (s.update r fun e => { e with status := status }) = t) rfl ?_
    rintro _ _ rfl
    refine Gives.bind (gives_query (P := fun x t => moment = x ∧ _ = t) hnow ⟨rfl, rfl⟩) ?_
    rintro _ _ ⟨rfl, rfl⟩
    refine ⟨moment, fun e es h => ?_⟩
    have h₁ := holds_update (f := fun e => { e with status := status }) h (fun _ => rfl) rfl
    exact holds_update (f := fun e => { e with endTime := some moment }) h₁ (fun _ => rfl) rfl
  exact hfinish.keeping.mono fun _ _ ht => ⟨ht.1, fun _ _ _ hP hW =>
    ht.2 _ (finish_keeps hP (Set.disjoint_singleton_left.1 hW) status)⟩

/-- An execution has been made, with its own copy of some entries as its input. -/
structure Opened (s : Store) (input : Entries Value) (attempt : Int) (parent : Option String)
    (r : Ref .execution) (e : Execution) (t : Store) : Prop where
  fresh : s.executions.size ≤ r.index
  holds : t.Holds r e []
  attempt : e.attempt = attempt
  parent : e.parent = parent
  input : ∃ d, e.input = .dict d ∧ t.Shows (.dict d) input
  agents : s.dicts.size ≤ e.agents.index
  results : s.dicts.size ≤ e.results.index
  spares : Spares {r} s t

section Opening

variable {input : Entries Value} {attempt : Int} {parent : Option String} {e : Execution}

theorem Opened.then (h : Opened s input attempt parent r e t) (hu : Spares ∅ t u) :
    Opened s input attempt parent r e u where
  fresh := h.fresh
  holds := hu.holds (Set.notMem_empty r) h.holds
  attempt := h.attempt
  parent := h.parent
  input := by
    obtain ⟨d, hd, hs⟩ := h.input
    exact ⟨d, hd, hu.shows hs⟩
  agents := h.agents
  results := h.results
  spares := h.spares.trans hu.mono

theorem Opened.setStatus (h : Opened s input attempt parent r e t) (status : Status) :
    Opened s input attempt parent r { e with status := status }
      (t.update r fun e => { e with status := status }) where
  fresh := h.fresh
  holds := holds_update h.holds (fun _ => rfl) rfl
  attempt := h.attempt
  parent := h.parent
  input := h.input
  agents := h.agents
  results := h.results
  spares := h.spares.trans fun _ _ _ hP hW => hP.updated t r _ (Or.inl (Set.disjoint_singleton_left.1 hW))

theorem opened_alloc (s : Store) (id : String) (input : Entries Value) (attempt : Int)
    (parent : Option String) (moment : Int) (h : Entries (Ref .execution)) :
    ∃ e, Opened s input attempt parent
      (Execution.alloc (s.newDict input).2 id parent attempt moment (.dict (s.newDict input).1)).1 e
      { (Execution.alloc (s.newDict input).2 id parent attempt moment
        (.dict (s.newDict input).1)).2 with history := h } := by
  let s₁ := (s.newDict input).2
  let s₂ := (s₁.newDict []).2
  let s₃ := (s₂.alloc (t := .sequence) []).2
  let s₄ := (s₃.alloc (t := .sequence) []).2
  let x : Execution := ⟨id, parent, attempt, moment, none, .dict (s.newDict input).1,
    (s₁.newDict []).1, (s₂.alloc (t := .sequence) []).1, (s₃.alloc (t := .sequence) []).1,
    (s₄.newDict []).1, .pending⟩
  refine ⟨x.stem, le_rfl, ⟨?_, congrArg Execution.stem (?_ : _ = x), ?_, by simp⟩, rfl, rfl,
    ⟨_, rfl, ?_⟩, ?_, ?_, ?_⟩
  · exact (Nat.lt_succ_self _).trans_eq (Array.size_push _).symm
  · show (s.executions.push x).getD s.executions.size default = x
    simp [Array.getD]
  · show s.sequences.size < ((s.sequences.push []).push []).size
    simp
  · have hnew : s₁.Shows (.dict (s.newDict input).1) input := by
      refine ⟨(Nat.lt_succ_self _).trans_eq (Array.size_push _).symm, ?_⟩
      show (s.dicts.push input).getD s.dicts.size default = input
      simp [Array.getD]
    have hP := spared_shows (.dict (s.newDict input).1) input
    exact hP.kept _ _ (hP.execution _ _ (hP.dict _ _ (hP.sequence _ _ (hP.sequence _ _
      (hP.dict _ _ hnew)))))
  · show s.dicts.size ≤ ((s.dicts.push input).push []).size
    simp
    omega
  · show s.dicts.size ≤ (s.dicts.push input).size
    simp
  · exact fun _ _ _ hP _ hs => hP.kept _ _ (hP.execution _ _ (hP.dict _ _ (hP.sequence _ _
      (hP.sequence _ _ (hP.dict _ _ (hP.dict _ _ hs))))))

theorem start_gives {moment : Int} (hnow : s.now = .ok moment) (goal : String)
    (input : Entries Value) (attempt : Int) (parent : Option String) :
    (Execution.start goal input attempt parent).Gives
      (fun r t => ∃ e, Opened s input attempt parent r e t) s := by
  let s' := { s with executionCount := s.executionCount + 1 }
  refine Gives.bind (r := modifyGet fun s : Store =>
      (s.executionCount + 1, { s with executionCount := s.executionCount + 1 }))
    (P := fun k t => s.executionCount + 1 = k ∧ s' = t) ⟨rfl, rfl⟩ ?_
  rintro _ _ ⟨rfl, rfl⟩
  refine Gives.bind (gives_query (P := fun x t => moment = x ∧ s' = t) hnow ⟨rfl, rfl⟩) ?_
  rintro _ _ ⟨rfl, rfl⟩
  obtain ⟨e, h⟩ := opened_alloc s' (Execution.idOf goal (s.executionCount + 1)) input attempt parent
    moment _
  exact ⟨e, { h with spares := fun _ _ _ hP hW hs => h.spares hP hW (hP.counted s _ hs) }⟩

/-- **An attempt begins** with an execution of its own, which runs. -/
theorem open_gives {moment : Int} (hnow : s.now = .ok moment) (g : Ref .goal)
    (input : Entries Value) (attempt : Int) (parent : Option String) :
    (Desk.openExecution g input attempt parent).Gives
      (fun r t => ∃ e, Opened s input attempt parent r e t) s := by
  refine Gives.bind (r := read _) (P := fun _ t => s = t) rfl ?_
  rintro name _ rfl
  refine Gives.bind (start_gives hnow name input attempt parent) ?_
  rintro r t ⟨e, ht⟩
  refine Gives.bind (gives_spares (Q := fun _ _ => True) (c := modifyGet fun s =>
    s.newDict [("attempt", .int attempt)]) trivial fun hP => keeps_modifyGet fun s => hP.dict s _) ?_
  rintro data u ⟨-, hu⟩
  have hnow' : u.now = .ok moment := (hu.now.trans ht.spares.now).trans hnow
  refine Gives.bind (log_gives hnow' (l := .info) (by decide) _ _) ?_
  rintro _ v ⟨-, hv⟩
  exact ⟨_, ((ht.then hu).then hv).setStatus .running⟩

end Opening

/-! ## Feedback -/

/-- A value is a copy of an evaluation as it is in a store. -/
def Dumps (t : Store) (v : Value) (s : Store) (e : Ref .evaluation) : Prop :=
  ∃ d c l, v = .dict d ∧ t.Shows (.dict d) [("passed", .bool (s.get e).passed),
      ("score", .float (s.get e).score), ("criteria", .dict c), ("unmet", .list l)] ∧
    t.Shows (.dict c) (s.get (s.get e).criteria) ∧ t.get l = s.get (s.get e).unmet

theorem shows_newDict (s : Store) (es : Entries Value) :
    (s.newDict es).2.Shows (.dict (s.newDict es).1) es := by
  refine ⟨(Nat.lt_succ_self _).trans_eq (Array.size_push _).symm, ?_⟩
  show (s.dicts.push es).getD s.dicts.size default = es
  simp [Array.getD]

theorem shows_then_newDict {v : Value} {es : Entries Value} (h : t.Shows v es)
    (more : Entries Value) : (t.newDict more).2.Shows v es := (spared_shows v es).dict t more h

theorem Dumps.newDict {v : Value} {e : Ref .evaluation} (h : Dumps t v s e) (es : Entries Value) :
    Dumps (t.newDict es).2 v s e := by
  obtain ⟨d, c, l, hv, hd, hc, hl⟩ := h
  exact ⟨d, c, l, hv, shows_then_newDict hd es, shows_then_newDict hc es, hl⟩

theorem dump_gives (s : Store) (e : Ref .evaluation) : (Evaluation.dump e).Gives
    (fun v t => Dumps t v s e ∧ Spares ∅ s t) s := by
  refine gives_spares ?_ fun hP => dump_keeps hP e
  refine ⟨_, _, ⟨s.sequences.size⟩, rfl, shows_newDict _ _, ?_, ?_⟩
  · exact shows_then_newDict ((spared_shows _ _).sequence _ _ (shows_newDict s _)) _
  · show (s.sequences.push _).getD s.sequences.size default = _
    simp [Array.getD]
    rfl

/-- A value is a mapping with the entries of an input and feedback on a result. -/
def Enhances (s : Store) (input result : Value) (e : Ref .evaluation) (v : Value) (t : Store) : Prop :=
  ∃ d p m, v = .dict d ∧ Dumps t m s e ∧
    t.Shows (.dict p) [("result", result), ("evaluation", m), ("feedback", .text feedback)] ∧
    ∀ es, s.Shows input es → t.Shows v (Entries.insert es "_previousAttempt" (.dict p))

theorem enhance_gives (s : Store) (input result : Value) (e : Ref .evaluation) :
    (Desk.enhance input result e).Gives
      (fun v t => Enhances s input result e v t ∧ Spares ∅ s t) s := by
  refine gives_spares ?_ fun hP => enhance_keeps hP input result e
  refine (dump_gives s e).bind fun m t ht => ?_
  let es : Entries Value := [("result", result), ("evaluation", m), ("feedback", .text feedback)]
  refine ⟨_, (t.newDict es).1, m, rfl, (ht.1.newDict es).newDict _,
    shows_then_newDict (shows_newDict t es) _, fun xs hxs => ?_⟩
  have hinput : ((t.newDict es).2.mapping? input).getD [] = xs := by
    rw [(shows_then_newDict (ht.2.shows hxs) es).mapping]
    rfl
  rw [← hinput]
  exact shows_newDict _ _

/-- A value is a copy of a result with remarks on its quality. -/
def Annotates (s : Store) (result : Value) (e : Ref .evaluation) (v : Value) (t : Store) : Prop :=
  ∃ d m, v = .dict d ∧ Dumps t m s e ∧
    ∀ es, s.Shows result es ∨ s.mapping? result = none ∧ es = [("result", result)] →
      t.Shows v (Entries.insertAll es [("_warning", .text warning), ("_evaluation", m)])

theorem mapping_eq_none (s t : Store) {v : Value} (h : s.mapping? v = none) : t.mapping? v = none := by
  cases v <;> first | rfl | cases h

theorem annotate_gives (s : Store) (result : Value) (e : Ref .evaluation) :
    (Desk.annotate result e).Gives (fun v t => Annotates s result e v t ∧ Spares ∅ s t) s := by
  refine gives_spares ?_ fun hP => Keeps.bind (dump_keeps hP e) fun _ =>
    keeps_modifyGet fun s => hP.dict s _
  refine (dump_gives s e).bind fun m t ht => ?_
  refine ⟨_, m, rfl, ht.1.newDict _, fun es hes => ?_⟩
  have hentries : (t.mapping? result).getD [("result", result)] = es := by
    rcases hes with hes | ⟨hnone, rfl⟩
    · rw [(ht.2.shows hes).mapping]
      rfl
    · rw [mapping_eq_none s t hnone]
      rfl
  rw [← hentries]
  exact shows_newDict _ _

end Straight

/-! ## Stages -/

namespace Outlined

variable (δ : Desk)

/-- An attempt up to the evaluation of its result. -/
def prepare (r : Ref .execution) (g : Ref .goal) (input : Value) :
    Outline (Value × Ref .evaluation) := do
  emit .goalStart [.goal g, .execution r]
  let (subtasks, known) ← plain do
    let entries ← .read fun s => (s.mapping? input).getD []
    let subtasks ← δ.plan r g entries
    let known ← .read fun s => (s.mapping? input).getD []
    pure (subtasks, known)
  let results ← handOutAll δ r known subtasks
  let whole ← plain do
    let names ← .read fun s => Desk.namesOf s subtasks
    Desk.aggregate names results
  let e ← Evaluation.Outlined.judge δ.evaluator g whole
  pure (whole, e)

theorem work_eq (r : Ref .execution) (g : Ref .goal) (input : Value) :
    work δ r g input = prepare δ r g input >>= fun x => conclude δ r g input x.1 x.2 := by
  simp only [work, prepare, bind_assoc, pure_bind]

theorem prepare_keeps {X : Set (Ref .execution)} {D : Set (Ref .dict)} {P : Store → Prop}
    (hP : Spared X D P) {r : Ref .execution}
    (hr : ∀ s, P s → (s.get r).agents ∉ D ∧ (s.get r).results ∉ D) (g : Ref .goal) (input : Value) :
    (prepare δ r g input).Keeps P := by
  refine Outline.Keeps.bind (emit_keeps hP _ _) fun _ => Outline.Keeps.bind (Outline.keeps_plain ?_)
    fun _ => Outline.Keeps.bind (handOutAll_keeps hP δ hr _ _) fun _ =>
      Outline.Keeps.bind (Outline.keeps_plain ?_) fun _ =>
        Outline.Keeps.bind (judge_keeps hP _ _ _) fun _ => Outline.keeps_pure _
  · exact Routine.Keeps.bind (Routine.keeps_read _) fun _ =>
      Routine.Keeps.bind (plan_keeps hP δ r g _) fun _ => Routine.Keeps.bind (Routine.keeps_read _) fun _ => show True from trivial
  · exact Routine.Keeps.bind (Routine.keeps_read _) fun _ => aggregate_keeps hP _ _

/-- What happens after an attempt has succeeded or failed. -/
def close (r : Ref .execution) (g : Ref .goal) : Except Failure Value → Outline Value
  | .ok v => closeCompleted δ r g v
  | .error f => closeFailed r g f

theorem close_keeps {X : Set (Ref .execution)} {D : Set (Ref .dict)} {P : Store → Prop}
    (hP : Spared X D P) {r : Ref .execution} (hr : r ∉ X) (g : Ref .goal) (o : Except Failure Value) :
    (close δ r g o).Keeps P := by
  cases o with
  | ok v =>
    exact Outline.Keeps.bind (Outline.keeps_plain (finish_keeps hP hr _)) fun _ =>
      Outline.Keeps.bind (emit_keeps hP _ _) fun _ => Outline.keeps_plain
        (Routine.Keeps.bind (Routine.keeps_read _) fun _ =>
          Routine.Keeps.bind (progress_keeps hP δ _ _) fun _ => show True from trivial)
  | error f =>
    refine Outline.Keeps.bind (Outline.keeps_plain ?_) fun _ =>
      Outline.Keeps.bind (emit_keeps hP _ _) fun _ => show True from trivial
    exact Routine.Keeps.bind (Routine.keeps_modifyGet fun s => hP.dict s _) fun _ =>
      Routine.Keeps.bind (executionLog_keeps hP _ _ _ _) fun _ => finish_keeps hP hr _

end Outlined

/-! ## What is said -/

end Pursuit

/-- Whether something is said about the work on an attempt, up to the evaluation of its result. -/
def Remark.OfWork : Remark → Bool
  | .reports _ => true
  | .emits name _ => name ∈ [.goalStart, .agentExecute, .agentError, .agentComplete, .evaluationStart,
      .evaluationEnd]
  | .records .. | .notes .. | .opens _ | .judges .. => false

section Says

open Outline (Says says_plain says_call says_emit says_pure)

variable {P : Remark → Prop} (hP : ∀ l, l.OfWork = true → P l)

include hP

theorem Agent.says_outline (r : Ref .agent) (task body : Value) (tools : Entries Value) :
    (Agent.outline r task body tools).Says P := by
  have hanswer : ∀ d, (Agent.Outlined.answerOf r task body d).Says P := by
    refine fun d => Says.bind (says_plain _) fun a => Says.bind (says_plain _) fun reply =>
      Says.bind (says_call _ _ _) fun _ s => ?_
    dsimp only
    split
    · trivial
    · exact ⟨hP _ rfl, trivial⟩
    · exact says_plain _
  refine Says.bind (says_plain _) fun d => Says.bind (says_emit (hP _ rfl)) fun _ =>
    Says.bind (hanswer d).attempt fun o => ?_
  cases o with
  | ok v => exact Says.bind (says_emit (hP _ rfl)) fun _ => says_pure _
  | error f => exact Says.bind (says_emit (hP _ rfl)) fun _ => trivial

theorem Evaluation.Outlined.says_judge (j : Judge) (g : Ref .goal) (result : Value) :
    (judge j g result).Says P := by
  have hscores : ∀ criteria, (scores j result criteria).Says P := by
    intro criteria
    induction criteria with
    | nil => trivial
    | cons x more ih =>
      refine Says.bind ?_ fun _ => Says.bind ih fun _ => says_pure _
      unfold scoreOf
      split
      · exact says_plain _
      · exact Says.bind (says_call _ _ _) fun _ => says_plain _
  refine Says.bind (says_emit (hP _ rfl)) fun _ => Says.bind (Says.bind (says_plain _)
    fun criteria => ?_) fun e => Says.bind (says_emit (hP _ rfl)) fun _ => says_pure _
  split
  · exact says_plain _
  · exact Says.bind (hscores _) fun _ => says_plain _

theorem Pursuit.Outlined.says_prepare (δ : Desk) (r : Ref .execution) (g : Ref .goal)
    (input : Value) : (prepare δ r g input).Says P := by
  have hhand : ∀ (gs : List (Ref .goal)) (known : Entries Value),
      (handOutAll δ r known gs).Says P := by
    intro gs
    induction gs with
    | nil => exact fun _ => trivial
    | cons g more ih =>
      exact fun known => Says.bind (Says.bind (says_plain _) fun _ => Says.bind (says_plain _) fun _ =>
        Says.bind (Agent.says_outline hP _ _ _ _) fun _ => Says.bind (says_plain _) fun _ =>
          says_pure _) fun _ => Says.bind (ih _) fun _ => says_pure _
  exact Says.bind (says_emit (hP _ rfl)) fun _ => Says.bind (says_plain _) fun x =>
    Says.bind (hhand _ _) fun _ => Says.bind (says_plain _) fun _ =>
      Says.bind (Evaluation.Outlined.says_judge hP _ _ _) fun _ => says_pure _

end Says

namespace Pursuit

/-! ## Attempts -/

variable {σ : Setup} {R : Run σ.body} {N b n j : Nat} {g : Ref .goal} {x w : Value}
  {e : Ref .evaluation} {ds : List Deed} {o : Except Failure Value}

/-- A result is accepted: it is good enough, or no further attempt is left, and then it is given back
with remarks. -/
inductive Accepts (σ : Setup) (R : Run σ.body) (g : Ref .goal) (r : Ref .execution) (w : Value)
    (e : Ref .evaluation) (j : Nat) : Bool → Value → Nat → Prop where
  | passed (h : ((R.store j).get e).passed = true) : Accepts σ R g r w e j true w j
  | exhausted {k t : Nat} {v : Value} (h : ((R.store j).get e).passed = false)
    (hbudget : σ.desk.budget ((R.store j).get g) ≤ ((R.store j).get r).attempt)
    (hk : j ≤ k) (hlog : Spares ∅ (R.store j) (R.store k))
    (hsame : (R.store k).evaluations = (R.store j).evaluations) (ht : k ≤ t)
    (hv : Annotates (R.store k) w e v (R.store t)) (hs : Spares ∅ (R.store k) (R.store t)) :
    Accepts σ R g r w e j false v t

/-- A result is insufficient, and a further attempt is about to begin with feedback on it. -/
structure Retries (σ : Setup) (R : Run σ.body) (g : Ref .goal) (r : Ref .execution) (x w : Value)
    (e : Ref .evaluation) (j : Nat) (y : Value) (i : Nat) : Prop where
  failed : ((R.store j).get e).passed = false
  left : ((R.store j).get r).attempt < σ.desk.budget ((R.store j).get g)
  input : ∃ k, j ≤ k ∧ Spares ∅ (R.store j) (R.store k) ∧
    (R.store k).evaluations = (R.store j).evaluations ∧ k ≤ i ∧
    Enhances (R.store k) x w e y (R.store i) ∧ Spares ∅ (R.store k) (R.store i)

namespace Outlined

variable {r : Ref .execution} {t : Nat}

theorem conclude_stages (hclock : ∀ i, ∃ moment, (R.store i).now = .ok moment)
    (h : σ.Does R N b n (conclude σ.desk r g x w e) ds (some (t, o))) :
    ∃ j, n ≤ j ∧ R.store j = R.store n ∧
      ((∃ passed v, ds = [.remark j (.judges w e passed)] ∧ o = .ok v ∧
          Accepts σ R g r w e j passed v t) ∨
        ∃ y i inner, Retries σ R g r x w e j y i ∧ ds = [.remark j (.judges w e false),
          .part i b (.pursue g y (((R.store j).get r).attempt + 1) (some ((R.store j).get r).id))
            inner (some (t, o))] ∧ R.store (i + 1) = R.store i ∧
          σ.Does R N b (i + 1) (pursue σ.desk g y (((R.store j).get r).attempt + 1)
            (some ((R.store j).get r).id)) inner (some (t, o))) := by
  obtain ⟨j, passed, hnj, ⟨hpassed, hsj⟩, h⟩ := h.gives_bind
    (P := fun a s => a = ((R.store n).get e).passed ∧ s = R.store n) ⟨rfl, rfl⟩
  refine ⟨j, hnj, hsj, ?_⟩
  rw [← hsj] at hpassed
  obtain ⟨ds', h', rfl⟩ := Account.say h
  cases passed with
  | true =>
    obtain ⟨rfl, he⟩ := h'.done_iff
    cases he
    exact Or.inl ⟨true, w, rfl, rfl, .passed hpassed.symm⟩
  | false =>
    obtain ⟨k, a, hjk, ⟨rfl, hsk⟩, h'⟩ := Account.gives_bind (P := fun a s =>
      a = ((R.store j).get g, ((R.store j).get r).attempt) ∧ s = R.store j) h' ⟨rfl, rfl⟩
    dsimp only at h'
    split at h'
    · next hbudget =>
      simp only [Desk.settleFor, Outline.plain_bind] at h'
      obtain ⟨k₁, attempt, hk₁, hs₁, h'⟩ := h'.gives_bind (P := fun _ s => s = R.store k) rfl
      obtain ⟨k₂, m, hk₂, ⟨he₂, hs₂⟩, h'⟩ := h'.gives_bind (gives_spares
        (Q := fun _ s => s.evaluations = (R.store k₁).evaluations) rfl fun hP => dump_keeps hP e)
      obtain ⟨moment, hnow⟩ := hclock k₂
      obtain ⟨k₃, _, hk₃, ⟨⟨he₃, -⟩, hs₃⟩, h'⟩ := h'.gives_bind (log_gives hnow (l := .warning)
        (by decide) _ _)
      obtain ⟨rfl, hend⟩ := h'.gives (annotate_gives _ w e)
      obtain ⟨hk₄, v, ho, hv, hs₄⟩ := hend t o rfl
      rw [hs₁, hsk] at hs₂ he₂
      exact Or.inl ⟨false, v, rfl, ho, .exhausted hpassed.symm hbudget (by omega)
        (hs₂.trans hs₃) (he₃.trans he₂) hk₄ hv hs₄⟩
    · next hleft =>
      simp only [Desk.tryAgain, Outline.plain_bind] at h'
      obtain ⟨k₁, execution, hk₁, ⟨rfl, hs₁⟩, h'⟩ := h'.gives_bind
        (P := fun a s => a = (R.store k).get r ∧ s = R.store k) ⟨rfl, rfl⟩
      obtain ⟨k₂, name, hk₂, hs₂, h'⟩ := h'.gives_bind (P := fun _ s => s = R.store k₁) rfl
      obtain ⟨k₃, score, hk₃, hs₃, h'⟩ := h'.gives_bind (P := fun _ s => s = R.store k₂) rfl
      obtain ⟨moment, hnow⟩ := hclock k₃
      obtain ⟨k₄, _, hk₄, ⟨⟨he₄, -⟩, hs₄⟩, h'⟩ := h'.gives_bind (log_gives hnow (l := .info)
        (by decide) _ _)
      obtain ⟨i, y, hi, ⟨hy, hsi⟩, h'⟩ := h'.gives_bind (enhance_gives _ x w e)
      rw [hs₃, hs₂, hs₁, hsk] at hs₄ he₄
      rw [hsk] at h'
      obtain ⟨-, he, -⟩ | ⟨inner, -, hs, rfl, hp⟩ := h'.ran
      · cases he
      · exact Or.inr ⟨y, i, inner, ⟨hpassed.symm, lt_of_not_ge hleft, k₄, by omega, hs₄, he₄, hi,
          hy, hsi⟩, rfl, hs, hp⟩

end Outlined

/-- The input that an attempt is made with. Without one the goal's own input is taken. -/
def inputOf (s : Store) (g : Ref .goal) (input : Value) : Value :=
  if input.isNull then .dict (s.get g).input else input

/-- What becomes of an attempt that is not followed by another one: it fails before its result is
judged, or its result is accepted. -/
inductive Settles (σ : Setup) (R : Run σ.body) (g : Ref .goal) (r : Ref .execution) (n : Nat) :
    Except Failure (Value × Ref .evaluation) → List Deed → Except Failure Value → Nat → Prop where
  | failed (f : Failure) : Settles σ R g r n (.error f) [] (.error f) n
  | accepted {w v : Value} {e : Ref .evaluation} {passed : Bool} {j t : Nat} (hj : n ≤ j)
    (hsame : R.store j = R.store n) (hv : Accepts σ R g r w e j passed v t) :
    Settles σ R g r n (.ok (w, e)) [.remark j (.judges w e passed)] (.ok v) t

/-- An attempt and all further attempts behind it, when they are over. An attempt has an execution and
works until its result is judged or it fails; it is settled, or another attempt comes to an outcome
in its place; and it is closed with that outcome. -/
inductive Attempts (σ : Setup) (R : Run σ.body) (N b : Nat) (g : Ref .goal) :
    Value → Int → Option String → Nat → List Deed → Nat → Except Failure Value → Prop where
  | last {x : Value} {es : Entries Value} {a : Int} {p : Option String} {n m t₁ t₂ t : Nat}
    {r : Ref .execution} {ex : Execution} {y : Except Failure (Value × Ref .evaluation)}
    {own verdict close : List Deed} {o' o : Except Failure Value}
    (hmap : (R.store n).mapping? x = some es) (hm : n ≤ m)
    (hopen : Opened (R.store n) es a p r ex (R.store m))
    (hown : σ.Does R N b m (Outlined.prepare σ.desk r g x) own (some (t₁, y)))
    (hend : Settles σ R g r t₁ y verdict o' t₂)
    (hclose : σ.Does R N b t₂ (Outlined.close σ.desk r g o') close (some (t, o))) :
    Attempts σ R N b g x a p n (.remark m (.opens r) :: (own ++ (verdict ++ close))) t o
  | again {x w y : Value} {es : Entries Value} {a : Int} {p : Option String}
    {n m t₁ j i t₃ t : Nat} {r : Ref .execution} {ex : Execution} {e : Ref .evaluation}
    {own inner close : List Deed} {o' o : Except Failure Value}
    (hmap : (R.store n).mapping? x = some es) (hm : n ≤ m)
    (hopen : Opened (R.store n) es a p r ex (R.store m))
    (hown : σ.Does R N b m (Outlined.prepare σ.desk r g x) own (some (t₁, .ok (w, e))))
    (hj : t₁ ≤ j) (hsame : R.store j = R.store t₁) (hretry : Retries σ R g r x w e j y i)
    (hcall : R.store (i + 1) = R.store i)
    (hinner : Attempts σ R N b g y (((R.store j).get r).attempt + 1)
      (some ((R.store j).get r).id) (i + 1) inner t₃ o')
    (hclose : σ.Does R N b t₃ (Outlined.close σ.desk r g o') close (some (t, o))) :
    Attempts σ R N b g x a p n (.remark m (.opens r) :: (own ++ ([.remark j (.judges w e false),
      .part i b (.pursue g y (((R.store j).get r).attempt + 1) (some ((R.store j).get r).id))
        inner (some (t₃, o'))] ++ close))) t o

theorem Settles.spares {r : Ref .execution} {y : Except Failure (Value × Ref .evaluation)} {t : Nat}
    (h : Settles σ R g r n y ds o t) : Spares ∅ (R.store n) (R.store t) := by
  cases h with
  | failed f => exact .refl _ _
  | accepted hj hsame hv =>
    rw [← hsame]
    cases hv with
    | passed => exact .refl _ _
    | exhausted _ _ _ hlog _ _ _ hs => exact hlog.trans hs

theorem Retries.spares {y : Value} {i : Nat} {r : Ref .execution}
    (h : Retries σ R g r x w e j y i) : Spares ∅ (R.store j) (R.store i) := by
  obtain ⟨k, -, hjk, -, -, -, hki⟩ := h.input
  exact hjk.trans hki

theorem Retries.le {y : Value} {i : Nat} {r : Ref .execution} (h : Retries σ R g r x w e j y i) :
    j ≤ i := by
  obtain ⟨k, hjk, -, -, hki, -⟩ := h.input
  exact hjk.trans hki

/-- **An attempt to reach a goal that is over** has gone through its stages. -/
theorem attempts (hclock : ∀ i, ∃ moment, (R.store i).now = .ok moment) {n t : Nat} {input : Value}
    {a : Int} {p : Option String} {ds : List Deed} {o : Except Failure Value}
    (h : σ.Does R N b n (Outlined.pursue σ.desk g input a p) ds (some (t, o))) (hc : Deed.Calm ds)
    (hmap : (R.store n).mapping? (inputOf (R.store n) g input) ≠ none) :
    Attempts σ R N b g (inputOf (R.store n) g input) a p n ds t o := by
  obtain ⟨es, hmap⟩ := Option.ne_none_iff_exists'.1 hmap
  obtain ⟨n₁, goal, hn₁, ⟨rfl, hs₁⟩, h⟩ := h.gives_bind
    (P := fun a s => a = (R.store n).get g ∧ s = R.store n) ⟨rfl, rfl⟩
  obtain ⟨n₂, entries, hn₂, ⟨hes, hs₂⟩, h⟩ := h.gives_bind
    (P := fun a s => a = some es ∧ s = R.store n) ⟨by rw [hs₁]; exact hmap, hs₁⟩
  subst hes
  obtain ⟨moment, hnow⟩ := hclock n₂
  obtain ⟨m, r, hm, ⟨ex, hopen⟩, h⟩ := h.gives_bind (open_gives hnow g es a p)
  rw [hs₂] at hopen
  have hnm : n ≤ m := by omega
  obtain ⟨ds', h', rfl⟩ := Account.say h
  rcases h'.attempt with ⟨dw, t', x, close, hw, -, hclose, rfl⟩ | ⟨t', f, hw, hf, -⟩ | ⟨-, he⟩
  · replace hclose : σ.Does R N b t' (Outlined.close σ.desk r g x) close (some (t, o)) := by
      cases x <;> exact hclose
    rw [Outlined.work_eq] at hw
    rcases hw.bind with ⟨own, t₁, ⟨w, e⟩, dc, hown, hcon, rfl⟩ | ⟨t₁, f, hown, he⟩ | ⟨-, he⟩
    · obtain ⟨j, hj, hsame, ⟨passed, v, rfl, rfl, hv⟩ | ⟨y, i, inner, hretry, rfl, hcall, hinner⟩⟩ :=
        Outlined.conclude_stages hclock hcon
      · rw [List.append_assoc]
        exact .last hmap hnm hopen hown (.accepted hj hsame hv) hclose
      · obtain ⟨-, -, -, -, -, ⟨d, -, -, rfl, -⟩, -⟩ := hretry.input
        have hrest := attempts hclock hinner (hc.tail.append.1.append.2.inner
          (List.mem_cons_of_mem _ List.mem_cons_self)) (by simp [inputOf, Value.isNull, Store.mapping?])
        rw [List.append_assoc]
        exact .again hmap hnm hopen hown hj hsame hretry hcall hrest hclose
    · cases he
      exact .last hmap hnm hopen hown (.failed f) hclose
    · cases he
  · rw [(tame_error f).1 (hw.tame σ.tame_plan (Outlined.tame_work _ _ _ _) hc.tail rfl)] at hf
    cases hf
  · cases he
termination_by t - n
decreasing_by
  have h₁ := hown.ending_ge rfl
  have h₂ := hretry.le
  have h₃ := hinner.ending_ge rfl
  have h₄ := hclose.ending_ge rfl
  omega

end Pursuit

end Conductor
