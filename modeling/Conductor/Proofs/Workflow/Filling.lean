import Conductor.Proofs.Store.Comparing
import Conductor.Proofs.Workflow.Frozen
import Conductor.Task.Registry

/-!
# Filling an output

Several steps fill the output of one context, each at targets of its own. What changes meanwhile is the
context itself with its results and errors, and the dictionaries of the output before the targets.
Values that lead to none of those stay what they are.

The output is filled in good order if things beside the targets stay, and if what has been written at a
target stays there until the same is written there again (`Fills`). All that steps do beside their
writes at targets leaves the output as it is (`fills_of_still`), and so does user code that changes
nothing that is there; a write at a target fills the output in good order (`fills_of_setPath`).
-/

namespace Conductor

namespace Store

variable {ts : List (List String)} {look : List String → Nat → Tree} {c : Ref .context}
  {s t u : Store} {v w : Value} {p q : List String}

/-- What changes while an output is filled. -/
inductive Busy (ts : List (List String)) (c : Ref .context) (s : Store) : Value → Prop where
  | context : Busy ts c s (.context c)
  | results : Busy ts c s (.results (s.get c).steps)
  | errors : Busy ts c s (.dict (s.get c).errors)
  | output {q : List String} {r : Ref .dict} (hq : Free ts q)
    (h : s.walk (.dict (s.get c).output) q = some (.dict r)) : Busy ts c s (.dict r)

theorem Busy.not_plain (h : Busy ts c s v) : v.isPlain = false := by cases h <;> rfl

/-- A context is there, and the dictionaries of its output form a tree before the targets, to which its
errors do not belong. No target is at another one or behind it. -/
structure Poised (ts : List (List String)) (c : Ref .context) (s : Store) : Prop where
  split : Split ts
  opened : c.index < s.contexts.size
  errors : s.Has (.dict (s.get c).errors)
  apart : ∀ q, Free ts q → s.walk (.dict (s.get c).output) q ≠ some (.dict (s.get c).errors)
  nested : Nested ts (s.get c).output s

/-- At a target there is a value that looks as it should, and to which nothing happens any more. -/
def Filled (ts : List (List String)) (look : List String → Nat → Tree) (c : Ref .context) (s : Store)
    (p : List String) : Prop :=
  ∃ v, s.walk (.dict (s.get c).output) p = some v ∧ Clear (Busy ts c s) s v ∧
    ∀ n, s.unfold n v = look p n

/-- The same tasks are registered, with the same handlers. -/
structure SameTasks (s t : Store) : Prop where
  task : ∀ name, t.task name = s.task name
  handler : ∀ name r, s.task name = .ok r → (t.get r).handler = (s.get r).handler

theorem SameTasks.refl (s : Store) : SameTasks s s := ⟨fun _ => rfl, fun _ _ _ => rfl⟩

theorem SameTasks.trans (h : SameTasks s t) (h' : SameTasks t u) : SameTasks s u :=
  ⟨fun name => (h'.task name).trans (h.task name), fun name r hr =>
    (h'.handler name r ((h.task name).trans hr)).trans (h.handler name r hr)⟩

theorem sameTasks_of_tables (ht : t.taskRegistry = s.taskRegistry) (htasks : t.tasks = s.tasks) :
    SameTasks s t where
  task name := by rw [task, ht, task]
  handler _ r _ := congrArg (fun ts : Array Task => (ts.getD r.index default).handler) htasks

/-- The output of a context is filled in good order. -/
structure Fills (ts : List (List String)) (look : List String → Nat → Tree) (c : Ref .context)
    (s t : Store) : Prop where
  poised : Poised ts c t
  contexts : ∀ d : Ref .context, d.index < s.contexts.size →
    d.index < t.contexts.size ∧ (t.get d).parts = (s.get d).parts
  still : Still (Busy ts c s) s t
  busy : ∀ v, s.Stands v → Busy ts c t v → Busy ts c s v
  beside : ∀ q, Beside ts q →
    t.walk (.dict (s.get c).output) q = s.walk (.dict (s.get c).output) q
  filled : ∀ p ∈ ts, Filled ts look c s p → Filled ts look c t p
  freezes : Freezes s t
  tasks : SameTasks s t

theorem Fills.output (h : Fills ts look c s t) (hs : Poised ts c s) :
    (t.get c).output = (s.get c).output :=
  congrArg (fun x => x.2.2.1) (h.contexts c hs.opened).2

theorem Fills.refl (hs : Poised ts c s) : Fills ts look c s s :=
  ⟨hs, fun _ hd => ⟨hd, rfl⟩, .refl _ s, fun _ _ => id, fun _ _ => rfl, fun _ _ => id, .refl s,
    .refl s⟩

theorem Fills.trans (hs : Poised ts c s) (h : Fills ts look c s t) (h' : Fills ts look c t u) :
    Fills ts look c s u where
  poised := h'.poised
  contexts d hd := by
    obtain ⟨ht, hp⟩ := h.contexts d hd
    obtain ⟨hu, hq⟩ := h'.contexts d ht
    exact ⟨hu, hq.trans hp⟩
  still := h.still.then h'.still h.busy
  busy v hv hb := h.busy v hv (h'.busy v (h.still.stands v hv) hb)
  beside q hq := by
    have hq' := h'.beside q hq
    rw [h.output hs] at hq'
    exact hq'.trans (h.beside q hq)
  filled p hp hf := h'.filled p hp (h.filled p hp hf)
  freezes := h.freezes.trans h'.freezes
  tasks := h.tasks.trans h'.tasks

/-- To values that lead to nothing busy, nothing happens. -/
theorem Fills.clear (h : Fills ts look c s t) (hv : Clear (Busy ts c s) s v) :
    Clear (Busy ts c t) t v := hv.lasting h.still h.busy

theorem get_of_sight {r : Ref .dict} (h : t.sight (.dict r) = s.sight (.dict r)) :
    t.get r = s.get r := Option.some.inj (congrArg Prod.fst h)

/-- A value that is at its target stays there and looks as it did. -/
theorem filled_of_walk (hs : Filled ts look c s p) (hstill : Still (Busy ts c s) s t)
    (hbusy : ∀ v, s.Stands v → Busy ts c t v → Busy ts c s v)
    (hwalk : t.walk (.dict (t.get c).output) p = s.walk (.dict (s.get c).output) p) :
    Filled ts look c t p := by
  obtain ⟨v, hv, hclear, hlook⟩ := hs
  exact ⟨v, hwalk.trans hv, hclear.lasting hstill hbusy, fun n =>
    (Clear.unfold hstill hclear).trans (hlook n)⟩

/-! ## What is done beside the writes at targets -/

/-- What steps change beside the output. -/
inductive Noise (c : Ref .context) (s : Store) : Value → Prop where
  | context : Noise c s (.context c)
  | results : Noise c s (.results (s.get c).steps)
  | errors : Noise c s (.dict (s.get c).errors)

theorem Noise.not_plain (h : Noise c s v) : v.isPlain = false := by cases h <;> rfl

theorem Noise.busy (h : Noise c s v) : Busy ts c s v := by
  cases h
  · exact .context
  · exact .results
  · exact .errors

/-- **Whatever leaves the output as it is** fills it in good order. -/
theorem fills_of_still (hs : Poised ts c s) (hstill : Still (Noise c s) s t)
    (hcontexts : ∀ d : Ref .context, d.index < s.contexts.size →
      d.index < t.contexts.size ∧ (t.get d).parts = (s.get d).parts)
    (hfreezes : Freezes s t) (htasks : SameTasks s t) : Fills ts look c s t := by
  obtain ⟨hopened, hparts⟩ := hcontexts c hs.opened
  simp only [Context.parts, Prod.mk.injEq] at hparts
  obtain ⟨-, hsteps, houtput, herrors, -⟩ := hparts
  have hwalk : ∀ {q}, (∀ p, p <+: q → p ≠ q → Free ts p) →
      t.walk (.dict (t.get c).output) q = s.walk (.dict (s.get c).output) q := by
    intro q hq
    rw [houtput]
    refine walk_congr fun p k hp x hx => ?_
    have hfree : Free ts p := hq p ((List.prefix_append p [k]).trans hp) (ne_of_snoc_prefixed hp)
    cases x with
    | dict r =>
      refine congrArg (Entries.get? · k) (get_of_sight (hstill.sight _ ?_ fun hn => ?_))
      · exact hs.nested.there p r hfree hx
      · cases hn
        exact hs.apart p hfree hx
    | _ => rfl
  have hfree : ∀ {q}, Free ts q →
      t.walk (.dict (t.get c).output) q = s.walk (.dict (s.get c).output) q := fun hq =>
    hwalk fun _ hp _ => hq.before hp
  have hstill' : Still (Busy ts c s) s t := hstill.mono fun _ _ => Noise.busy
  have hbusy : ∀ v, s.Stands v → Busy ts c t v → Busy ts c s v := by
    intro v _ hb
    cases hb with
    | context => exact .context
    | results =>
      rw [hsteps]
      exact .results
    | errors =>
      rw [herrors]
      exact .errors
    | output hq h => exact .output hq ((hfree hq).symm.trans h)
  refine ⟨⟨hs.split, hopened, ?_, fun q hq hw => ?_, ⟨fun q r hq hw => ?_, fun p q r hp hq hpr hqr => ?_,
    fun p hp q hqp hne x hx => ?_⟩⟩, hcontexts, hstill', hbusy, fun q hq => ?_, fun p hp hf => ?_,
    hfreezes, htasks⟩
  · rw [herrors]
    exact hstill.stands (.dict _) hs.errors
  · rw [herrors] at hw
    exact hs.apart q hq ((hfree hq).symm.trans hw)
  · exact hstill.stands (.dict r) (hs.nested.there q r hq ((hfree hq).symm.trans hw))
  · exact hs.nested.single p q r hp hq ((hfree hp).symm.trans hpr) ((hfree hq).symm.trans hqr)
  · exact hs.nested.passable p hp q hqp hne x
      ((hfree (hs.split.free hp hqp hne)).symm.trans hx)
  · rw [← hfree hq.1, houtput]
  · exact filled_of_walk hf hstill' hbusy (hwalk fun q hqp hne => hs.split.free hp hqp hne)

/-- User code that changes nothing that is there. -/
structure Grows (s t : Store) : Prop where
  still : Still (fun _ => False) s t
  contexts : ∀ d : Ref .context, d.index < s.contexts.size →
    d.index < t.contexts.size ∧ (t.get d).parts = (s.get d).parts
  freezes : Freezes s t
  tasks : SameTasks s t

theorem Grows.fills (h : Grows s t) (hs : Poised ts c s) : Fills ts look c s t :=
  fills_of_still hs (h.still.mono fun _ _ hf => hf.elim) h.contexts h.freezes h.tasks

/-- A new dictionary changes nothing that is there. -/
theorem grows_newDict (s : Store) (es : Entries Value) : Grows s (s.newDict es).2 where
  still := still_newDict _ s es
  contexts := (keeps_newDict (X := ∅) s es).contexts
  freezes := freezes_of_workflows rfl
  tasks := sameTasks_of_tables rfl rfl

/-- A new dictionary of plain values is none of those that change. -/
theorem clear_newDict (hs : Poised ts c s) {es : Entries Value} (hes : ∀ e ∈ es, e.2.isPlain = true) :
    Clear (Busy ts c (s.newDict es).2) (s.newDict es).2 (.dict (s.newDict es).1) := by
  intro w hw
  rcases hw.cases_head with rfl | ⟨x, hx, hw⟩
  · refine ⟨lt_size_push_self, fun hb => ?_⟩
    generalize hv : Value.dict (s.newDict es).1 = v at hb
    cases hb with
    | context | results => cases hv
    | errors =>
      have heq : (s.newDict es).1 = (s.get c).errors := Value.dict.inj hv
      have hlt : (s.newDict es).1.index < s.dicts.size := heq ▸ hs.errors
      exact absurd hlt (Nat.lt_irrefl _)
    | output hq h =>
      cases hv
      have hwalk := hs.nested.walk_newDict es fun p hp _ => hq.before hp
      exact absurd (hs.nested.there _ _ hq (hwalk.symm.trans h)) (Nat.lt_irrefl _)
  · have hplain : x.isPlain = true := by
      have hget : (s.newDict es).2.mapping? (.dict (s.newDict es).1) = some es :=
        congrArg some getD_push_size
      cases hx with
      | entry hm he =>
        cases hm.symm.trans hget
        exact hes _ he
      | item hm => cases hm
      | field key => rfl
    exact clear_plain (fun _ => Busy.not_plain) hplain w hw

/-! ## Writes at targets -/

/-- **A write at a target** fills the output in good order, if it writes what should be there. -/
theorem fills_of_setPath (hs : Poised ts c s) {path : String}
    (hp : Path.segments path ∈ ts) (hv : Clear (Busy ts c s) s v)
    (hlook : ∀ n, s.unfold n v = look (Path.segments path) n)
    (ht : s.setPath (s.get c).output path v = .ok t) :
    Fills ts look c s t ∧ Filled ts look c t (Path.segments path) := by
  have hw := hs.nested.setPath hs.split hp ht
  have hstill : Still (Busy ts c s) s t := (hs.nested.still hs.split hp ht).mono fun v _ hv => by
    obtain ⟨q, r, hq, hr, rfl⟩ := hv
    exact .output hq hr
  obtain ⟨ds, hsize, rfl⟩ := exists_dicts_writeAlong ht
  set t : Store := { s with dicts := ds } with ht'
  have hbusy : ∀ v, s.Stands v → Busy ts c t v → Busy ts c s v := by
    intro v hv hb
    cases hb with
    | context => exact .context
    | results => exact .results
    | errors => exact .errors
    | output hq h =>
      obtain ⟨q, r, hq, hr, hv⟩ := hw.before hv ⟨_, _, hq, h, rfl⟩
      cases hv
      exact .output hq hr
  have hhere : Filled ts look c t (Path.segments path) :=
    ⟨v, hw.here, hv.lasting hstill hbusy, fun n => (Clear.unfold hstill hv).trans (hlook n)⟩
  refine ⟨⟨⟨hs.split, hs.opened, hs.errors.trans_le hsize, fun q hq h => ?_, hw.nested⟩, fun d hd => ⟨hd, rfl⟩,
    hstill, hbusy, fun q hq => ?_, fun p hp' hf => ?_, freezes_of_workflows rfl,
    sameTasks_of_tables rfl rfl⟩, hhere⟩
  · rcases hw.fresh _ _ hq h with h | h
    · exact hs.apart q hq h
    · exact absurd hs.errors (Nat.not_lt.2 h)
  · exact hw.beside q (fun _ hp _ => hq.1.before hp) (hq.2 _ hp) (hq.1 _ hp)
  · by_cases heq : p = Path.segments path
    · exact heq ▸ hhere
    · refine filled_of_walk hf hstill hbusy (hw.beside p (fun q hqp hne => hs.split.free hp' hqp hne)
        (fun h => heq (hs.split p hp' _ hp h)) fun h => heq (hs.split _ hp p hp' h).symm)

end Store

end Conductor
