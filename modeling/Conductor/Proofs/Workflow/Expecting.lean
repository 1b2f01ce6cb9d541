import Conductor.Proofs.Schedule.Descent
import Conductor.Proofs.Workflow.Reference

/-!
# What visits expect of each other

Visits of one run work side by side in contexts whose inputs the run does not write into (`Here`). They
keep a contract in which the results of the context of the execution hold nothing but what the evaluator
has recorded (`Held`), and in which nothing is lost that has been recorded there (`Goes`).

A visit may be made if the evaluator gives a report for it (`Expects`). It has succeeded then, when it has
ended, with a value that looks like the result of the report, and everything in the report is recorded
(`Delivers`). User code that makes something new out of the input of its context, or out of what it is
called with, does nothing against the contract (`Computes`).
-/

namespace Conductor

open Store

namespace Reference

variable {E : Reference} {records : List (String × Look)} {s t u : Store} {c : Ref .context}
  {v input : Value} {d : Look} {r r' : Reference.Report} {x : String} {p : Procedure} {m n : Nat}

/-! ## What runs write -/

/-- The results of the context of the execution. -/
def table (E : Reference) : Ref .results := (E.start.get E.context).steps

/-- A fresh context is there for the workflow, and there are no hooks. What runs write into is apart from
the input, and from the items that the workflow names itself. -/
structure Ready (E : Reference) : Prop where
  workflow : E.workflow.index < E.start.workflows.size
  context : E.context.index < E.start.contexts.size
  sound : E.start.Sound
  hooks : E.start.hooks = []
  fresh : E.start.get E.table = []
  input : E.start.AtRest (E.start.get E.context).input
  literals : ∀ id step, (E.start.get E.workflow).step id = .ok step → ∀ v iterator concurrency,
    step.kind = .map (.literal v) iterator concurrency → E.start.AtRest v

/-- What is recorded in the context of the execution is what the evaluator has recorded. -/
structure Held (E : Reference) (records : List (String × Look)) (s : Store) : Prop where
  proceeds : Proceeds E.start s
  right : ∀ id v, Entries.get? (s.get E.table) id = some v →
    ∃ d, (id, d) ∈ records ∧ s.Appears v d

/-- Something is recorded for a step in the context of the execution. -/
def Recorded (E : Reference) (s : Store) (id : String) : Prop :=
  ∃ v, Entries.get? (s.get E.table) id = some v

/-- A run has gone on. -/
structure Goes (E : Reference) (records : List (String × Look)) (s t : Store) : Prop where
  proceeds : Proceeds s t
  held : E.Held records s → E.Held records t
  recorded : E.Held records s → ∀ id, E.Recorded s id → E.Recorded t id

theorem Goes.refl (E : Reference) (records : List (String × Look)) (s : Store) :
    E.Goes records s s := ⟨.refl s, id, fun _ _ => id⟩

theorem Goes.trans (h : E.Goes records s t) (h' : E.Goes records t u) : E.Goes records s u :=
  ⟨h.proceeds.trans h'.proceeds, h'.held ∘ h.held, fun hs x hx =>
    h'.recorded (h.held hs) x (h.recorded hs x hx)⟩

/-- A visit may be made in a context whose input is none of the things that runs write into. Only the
context of the execution has the results of the execution. -/
structure Here (E : Reference) (records : List (String × Look)) (c : Ref .context) (input : Value)
    (s : Store) : Prop where
  held : E.Held records s
  opened : c.index < s.contexts.size
  rests : E.start.AtRest input
  input : (s.get c).input = input
  apart : c ≠ E.context → (s.get c).steps ≠ E.table

theorem Here.lasting (h : E.Here records c input s) (hs : E.Goes records s t) :
    E.Here records c input t where
  held := hs.held h.held
  opened := hs.proceeds.opened h.opened
  input := (hs.proceeds.input h.opened).trans h.input
  rests := h.rests
  apart hc := by
    rw [hs.proceeds.steps h.opened]
    exact h.apart hc

/-- What a visit in a context gives. -/
structure Gives (E : Reference) (records : List (String × Look)) (c : Ref .context) (input : Value)
    (r : Report) (v : Value) (s : Store) : Prop where
  here : E.Here records c input s
  appears : s.Appears v r.1
  recorded : c = E.context → ∀ e ∈ r.2, E.Recorded s e.1

theorem Gives.lasting (h : E.Gives records c input r v s) (hs : E.Goes records s t) :
    E.Gives records c input r v t :=
  ⟨h.here.lasting hs, h.appears.lasting hs.proceeds, fun hc e he =>
    hs.recorded h.here.held _ (h.recorded hc e he)⟩

/-! ## Steps of a run -/

section Steps

theorem goes_of_get (hs : Proceeds s t) (hget : E.Held records s → t.get E.table = s.get E.table) :
    E.Goes records s t where
  proceeds := hs
  held h := by
    refine ⟨h.proceeds.trans hs, fun id v hv => ?_⟩
    rw [hget h] at hv
    obtain ⟨d, hd, happears⟩ := h.right id v hv
    exact ⟨d, hd, happears.lasting hs⟩
  recorded h id hx := by
    rw [Recorded, hget h]
    exact hx

/-- The counter of failures, the clock and the journal are nobody's concern. -/
theorem goes_mark (s : Store) (n : Nat) (x : Binary64) (j : List Event) :
    E.Goes records s { s with nextFailure := n, clock := x, journal := j } :=
  goes_of_get (s.proceeds_mark n x j) fun _ => rfl

theorem goes_newDict (s : Store) (es : Entries Value) : E.Goes records s (s.newDict es).2 :=
  goes_of_get (s.proceeds_newDict es) fun _ => rfl

theorem goes_newList (s : Store) (vs : List Value) : E.Goes records s (s.newList vs).2 :=
  goes_of_get (s.proceeds_newList vs) fun _ => rfl

theorem Here.goes_enter (h : E.Here records c input s) (id : String) : E.Goes records s (s.enter c id) :=
  goes_of_get (proceeds_enter h.opened id) fun _ => rfl

theorem Here.goes_insertAll (h : E.Here records c input s) (es : Entries Value) :
    E.Goes records s (s.insertAll (s.get c).output es) :=
  goes_of_get (proceeds_insertAll h.opened es) fun _ => rfl

variable (hE : E.Ready)
include hE

/-- The results of the execution are there. -/
theorem Held.there (h : E.Held records s) : E.table.index < s.results.size :=
  h.proceeds.still.stands (.results E.table) (hE.sound _ (.results hE.context))

/-- The results of the context of the execution are the ones that it began with. -/
theorem Held.steps (h : E.Held records s) : (s.get E.context).steps = E.table :=
  h.proceeds.steps hE.context

theorem goes_of_still (hs : Proceeds s t) (hstill : Still (fun _ => False) s t) :
    E.Goes records s t :=
  goes_of_get hs fun h => Option.some.inj
    (congrArg Prod.fst (hstill.sight (.results E.table) (h.there hE) id))

theorem goes_forkAll (s : Store) (c : Ref .context) (items : List Value) :
    E.Goes records s (s.forkAll c items).2 := by
  refine goes_of_get (proceeds_forkAll c items s) fun h => ?_
  have hkeeps := keeps_forkAll (X := ∅) c items s
  exact hkeeps.content (.results E.table) (Set.notMem_empty _) (h.there hE)

/-- The result of a step is recorded. -/
theorem Here.record (h : E.Here records c input s) (hv : s.Appears v d)
    (hd : c = E.context → (x, d) ∈ records) :
    E.Goes records s (s.record c x v) ∧ (c = E.context → E.Recorded (s.record c x v) x) := by
  have hproceeds := proceeds_record h.opened x v
  by_cases hc : c = E.context
  · subst hc
    have hget : (s.record E.context x v).get E.table = Entries.insert (s.get E.table) x v := by
      show (s.put (s.get E.context).steps _).get E.table = _
      rw [h.held.steps hE]
      exact getD_setIfInBounds_self (h.held.there hE)
    refine ⟨⟨hproceeds, fun hs => ⟨hs.proceeds.trans hproceeds, fun id w hw => ?_⟩, fun _ id hid => ?_⟩,
      fun _ => ⟨v, ?_⟩⟩
    · rw [hget] at hw
      by_cases hid : id = x
      · subst hid
        rw [Entries.get?_insert_self] at hw
        cases hw
        exact ⟨d, hd rfl, hv.lasting hproceeds⟩
      · rw [Entries.get?_insert_of_ne _ _ hid] at hw
        obtain ⟨d', hd', hw'⟩ := hs.right id w hw
        exact ⟨d', hd', hw'.lasting hproceeds⟩
    · rw [Recorded, hget]
      by_cases hx : id = x
      · subst hx
        exact ⟨v, Entries.get?_insert_self _ _ _⟩
      · rw [Entries.get?_insert_of_ne _ _ hx]
        exact hid
    · rw [hget]
      exact Entries.get?_insert_self _ _ _
  · refine ⟨goes_of_get hproceeds fun _ => ?_, fun h => absurd h hc⟩
    have hne := h.apart hc
    exact getD_setIfInBounds_of_ne fun heq => hne (congrArg Ref.mk heq.symm)

end Steps

/-! ## The contract of the visits -/

/-- The evaluator can evaluate a visit with a given fuel. -/
def Within (E : Reference) (m : Nat) (p : Procedure) (s : Store) : Prop :=
  ∃ x c r, p = .visit x E.workflow c ∧ E.evaluate m (s.get c).input x = some r

/-- A visit may be made, and the evaluator gives a report for it. -/
def Expects (E : Reference) (records : List (String × Look)) (p : Procedure) (r : Report)
    (m : Nat) (s : Store) : Prop :=
  ∃ x c input, p = .visit x E.workflow c ∧ E.Here records c input s ∧
    E.evaluate m input x = some r ∧ (c = E.context → ∀ e ∈ r.2, e ∈ records)

/-- A visit has given what the evaluator gives for it. -/
def Delivers (E : Reference) (records : List (String × Look)) (p : Procedure) (r : Report)
    (v : Value) (s : Store) : Prop :=
  ∃ x c input m, p = .visit x E.workflow c ∧ E.evaluate m input x = some r ∧
    E.Gives records c input r v s

theorem Delivers.lasting (h : E.Delivers records p r v s) (hs : E.Goes records s t) :
    E.Delivers records p r v t := by
  obtain ⟨x, c, input, m, rfl, hr, hgives⟩ := h
  exact ⟨x, c, input, m, rfl, hr, hgives.lasting hs⟩

/-- A visit gives what was expected of it. -/
theorem Expects.unique (h : E.Expects records p r m s) (hs : E.Goes records s t)
    (h' : E.Delivers records p r' v t) : r' = r := by
  obtain ⟨x, c, input, rfl, hhere, hr, -⟩ := h
  obtain ⟨x', c', input', m', heq, hr', hgives⟩ := h'
  cases heq
  obtain rfl := (hhere.lasting hs).input.symm.trans hgives.here.input
  exact evaluate_unique hr' hr

theorem Expects.within (h : E.Expects records p r m s) : E.Within m p s := by
  obtain ⟨x, c, input, rfl, hhere, hr, -⟩ := h
  exact ⟨x, c, r, rfl, hhere.input ▸ hr⟩

/-- The contract among the visits. -/
def contract (E : Reference) (records : List (String × Look)) : Contract where
  writes _ := E.Goes records
  rely := E.Goes records
  pre p s := ∃ r m, E.Expects records p r m s
  post p o s := ∃ r, IsOk (E.Delivers records p r) o s
  refl := .refl E records
  trans := .trans
  relied h := h
  lasting {_ o _ _} h hs := by
    obtain ⟨r, h⟩ := h
    cases o with
    | ok v => exact ⟨r, h.lasting hs⟩
    | error f => exact h.elim

/-- The terms of a visit for which the others that it waits for can be evaluated with some fuel. -/
def terms (E : Reference) (records : List (String × Look)) (m : Nat) : Terms :=
  (E.contract records).termsOf (E.Goes records) (fun h => h) fun w s =>
    (E.contract records).Asks (E.Goes records) w s ∧ w ≠ .detached ∧
      ∀ p ∈ w.procedures, E.Within m p s

/-! ## User code -/

/-- The terms of user code that only makes something new. It waits for nothing but the end of sleeps. -/
def computing : Terms where
  writes s t := Grows s t ∧ t.contexts.size = s.contexts.size ∧ t.hooks = s.hooks
  rely := Proceeds
  asks w _ := ∃ x, w = .sleep x
  answers w o _ := ∀ x, w = .sleep x → o = .ok []
  refl := .refl
  trans := .trans
  relied h := proceeds_of_still h.2.1 (fun c hc => (h.1.contexts c hc).2)
    (h.1.still.mono fun _ _ hf => hf.elim) h.1.freezes h.1.tasks h.2.2

/-- User code computes what the evaluator takes it to compute. It may sleep as it likes. Handlers give
what depends on how their input looks alone; conditions and sources may fail where the evaluator does. -/
structure Computes (call : Handlers) (E : Reference) : Prop where
  handlers : ∀ name a, E.start.task name = .ok a → ∀ v c s, Proceeds E.start s → s.AtRest v →
    (call (E.start.get a).handler [v, .context c]).Meets computing
      (IsOk fun w t => t.Appears w (E.handler (E.start.get a).handler (Look.of s v))) s
  conditions : ∀ a (c : Ref .context) s, Proceeds E.start s → c.index < s.contexts.size →
    E.start.AtRest (s.get c).input → ∀ b, E.holds a (s.get c).input = some b →
      (call a [.context c]).Meets computing (IsOk fun w t => t.isTruthy w = b) s
  sources : ∀ a (c : Ref .context) s, Proceeds E.start s → c.index < s.contexts.size →
    E.start.AtRest (s.get c).input → ∀ d, E.source a (s.get c).input = some d →
      (call a [.context c]).Meets computing (IsOk fun w t => t.Appears w d) s

/-- What user code does on its terms it does on those of a visit. -/
theorem meets_of_computing (hE : E.Ready) {α : Type} {r : Routine α}
    {Q : Except Failure α → Store → Prop} (h : r.Meets computing Q s) :
    r.Meets (E.terms records m) Q s := by
  refine Routine.Meets.weaken (T := computing) (fun h => ?_) (fun h => h.proceeds) ?_ ?_ h
  · exact goes_of_still hE (computing.relied h) h.1.still
  · rintro w s ⟨x, rfl⟩
    exact ⟨⟨fun p hp => absurd hp List.not_mem_nil, nofun⟩, nofun, fun p hp => absurd hp List.not_mem_nil⟩
  · rintro w o s h x rfl
    exact h

end Reference

end Conductor
