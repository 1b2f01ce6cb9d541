import Conductor.Proofs.Schedule.Course
import Conductor.Proofs.Store.Writing

/-!
# Recorded results

A context keeps the result of a step until the same step is recorded again. It keeps the value as it
is, without a copy, and so do the output, the results of other steps and forked contexts. Therefore
a recorded result looks different as soon as something is written into a container that it reaches.

User code is taken to write into no container that a context leads to. Then only the interpreter
itself is left, with its few writes into containers.

**Theorem (`Course.result_stays_iff`).** A recorded result looks the same until the same step is
recorded again if and only if no write of the interpreter lands in a container that the result
reaches and makes it look different there. The same holds for the input.

Such writes do happen: `sharedRun` merges a result into the output and then writes at a path through
a dictionary that the output shares with it.
-/

namespace Conductor

/-- The values that a context holds for as long as it exists. -/
def Context.held (c : Context) : List Value :=
  [c.input, .results c.steps, .dict c.output, .dict c.errors, .dict c.metadata]

namespace Store

variable {s t : Store} {c : Ref .context} {d : Container} {id : String} {v w : Value}

/-- The containers that contexts lead to. -/
def Held (s : Store) : Set Container :=
  {d | ∃ c : Ref .context, c.index < s.contexts.size ∧ ∃ v ∈ (s.get c).held, s.Reaches v d}

/-- What the result of a step looks like when it is read from a context. -/
def readBack (s : Store) (n : Nat) (c : Ref .context) (id : String) : Option Tree :=
  (Entries.get? (s.get (s.get c).steps) id).map (s.unfold n)

/-- What may happen to a store in one step: a change of containers that no context leads to, or a
write of the interpreter. -/
def Changes (s t : Store) : Prop := Keeps s.Heldᶜ s t ∨ ∃ d, Writes s d t

/-- The interpreter writes into a container that a value reaches, so that it looks different. -/
def Touches (s t : Store) (v : Value) : Prop :=
  ∃ d, Writes s d t ∧ s.Reaches v d ∧ ∃ n, t.look n d ≠ s.look n d

/-- Another value is recorded for a step. -/
def Rerecords (s t : Store) (steps : Ref .results) (id : String) (v : Value) : Prop :=
  ∃ c w, (s.get c).steps = steps ∧ w ≠ v ∧ t = s.record c id w

/-! ## One change -/

theorem Changes.has (h : t = s ∨ Changes s t) (hd : s.Has d) : t.Has d := by
  rcases h with rfl | h | ⟨e, h⟩
  · exact hd
  · exact h.has d hd
  · exact h.keeps.has d hd

theorem Changes.contexts (h : t = s ∨ Changes s t) (hc : c.index < s.contexts.size) :
    c.index < t.contexts.size ∧ (t.get c).parts = (s.get c).parts := by
  rcases h with rfl | h | ⟨e, h⟩
  · exact ⟨hc, rfl⟩
  · exact h.contexts c hc
  · exact h.keeps.contexts c hc

/-- **A value that a context leads to looks the same after a change** if and only if the change is no
write into it. -/
theorem Changes.unfold_eq_iff (h : t = s ∨ Changes s t) (hheld : ∀ d, s.Reaches v d → d ∈ s.Held)
    (hv : s.Grounds v) : (∀ n, t.unfold n v = s.unfold n v) ↔ ¬ Touches s t v := by
  constructor
  · rintro heq ⟨d, hw, hr, n, hne⟩
    have hk := hw.keeps
    exact hne ((Store.unfold_eq_iff hk.has (fun e he hed => hk.content e hed he) hv).1 heq hr n)
  · intro hnot
    rcases h with rfl | h | ⟨d, hw⟩
    · exact fun _ => rfl
    · refine unfold_eq_of_look fun e he => ⟨hv e he, h.has e (hv e he), Or.inl ?_⟩
      exact h.content e (fun hne => hne (hheld e he)) (hv e he)
    · have hk := hw.keeps
      refine (Store.unfold_eq_iff hk.has (fun e he hed => hk.content e hed he) hv).2 fun hr n => ?_
      by_contra hne
      exact hnot ⟨d, hw, hr, n, hne⟩

/-- A context has a value recorded for a step. -/
structure Records (s : Store) (c : Ref .context) (id : String) (v : Value) : Prop where
  context : c.index < s.contexts.size
  results : s.Has (.results (s.get c).steps)
  recorded : Entries.get? (s.get (s.get c).steps) id = some v

theorem Records.held (h : s.Records c id v) (hd : s.Reaches v d) : d ∈ s.Held := by
  refine ⟨c, h.context, .results (s.get c).steps, by simp [Context.held], ?_⟩
  exact .through (e := (id, v)) rfl (Entries.mem_of_get? h.recorded) hd

theorem held_input (hc : c.index < s.contexts.size) (hd : s.Reaches (s.get c).input d) :
    d ∈ s.Held :=
  ⟨c, hc, _, List.mem_cons_self, hd⟩

theorem Records.readBack (h : s.Records c id v) (n : Nat) :
    s.readBack n c id = some (s.unfold n v) := by
  rw [Store.readBack, h.recorded, Option.map_some]

/-- What has just been recorded is there. -/
theorem records_record (hc : c.index < s.contexts.size) (hr : s.Has (.results (s.get c).steps))
    (id : String) (v : Value) : (s.record c id v).Records c id v := by
  refine ⟨hc, (keeps_put_results s _ _).has _ hr, ?_⟩
  have hput : (s.record c id v).get (s.get c).steps =
      Entries.insert (s.get (s.get c).steps) id v := getD_setIfInBounds_self hr
  show Entries.get? ((s.record c id v).get (s.get c).steps) id = _
  rw [hput, Entries.get?_insert_self]

theorem not_rerecords {steps : Ref .results} (hs : s.Has (.results steps))
    (ht : Entries.get? (t.get steps) id = some v) : ¬ Rerecords s t steps id v := by
  rintro ⟨c, w, rfl, hne, rfl⟩
  have hput : (s.record c id w).get (s.get c).steps =
      Entries.insert (s.get (s.get c).steps) id w := getD_setIfInBounds_self hs
  rw [hput, Entries.get?_insert_self] at ht
  exact hne (Option.some_inj.1 ht)

/-- **A recorded value stays in its place** until another one is recorded. -/
theorem Records.change (h : s.Records c id v) (ht : t = s ∨ Changes s t)
    (hnot : ¬ Rerecords s t (s.get c).steps id v) : t.Records c id v := by
  obtain ⟨hc, hparts⟩ := Changes.contexts ht h.context
  have hsteps : (t.get c).steps = (s.get c).steps := congrArg (fun p => p.2.1) hparts
  have hsame : ∀ es, t.content (.results (s.get c).steps) = es →
      Entries.get? es id = some v → t.Records c id v := by
    intro es hes hget
    refine ⟨hc, hsteps ▸ Changes.has ht h.results, ?_⟩
    rw [hsteps]
    show Entries.get? (t.content (.results (s.get c).steps)) id = some v
    rw [hes, hget]
  rcases ht with rfl | hk | ⟨d, hw⟩
  · exact h
  · refine hsame _ (hk.content _ (fun hne => hne ?_) h.results) h.recorded
    exact ⟨c, h.context, .results (s.get c).steps, by simp [Context.held], .here rfl⟩
  · by_cases hd : d = .results (s.get c).steps
    · cases hw with
      | record x id' w =>
        have hx : (s.get x).steps = (s.get c).steps := by injection hd
        have hes : (s.record x id' w).content (.results (s.get c).steps) =
            Entries.insert (s.get (s.get c).steps) id' w := by
          show Array.getD ((s.results).setIfInBounds (s.get x).steps.index _)
            (s.get c).steps.index default = _
          rw [hx]
          exact getD_setIfInBounds_self h.results
        refine hsame _ hes ?_
        by_cases hid : id = id'
        · subst hid
          rw [Entries.get?_insert_self]
          by_contra hne
          exact hnot ⟨x, w, hx, fun heq => hne (congrArg some heq), rfl⟩
        · rw [Entries.get?_insert_of_ne _ _ hid]
          exact h.recorded
      | _ => cases hd
    · exact hsame _ (hw.keeps.content _ (fun he => hd he.symm) h.results) h.recorded

end Store

/-! ## User code -/

namespace Conduct

/-- The conduct of user code that writes into no container that a context leads to. -/
def sparing : Conduct where
  writes s t := Store.Keeps s.Heldᶜ s t
  rely _ _ := True
  calls p _ := p.IsVisit
  refl _ := trivial
  trans _ _ := trivial
  relied _ := trivial

/-- What the interpreter and such user code do together. -/
def changing : Conduct where
  writes := Store.Changes
  rely _ _ := True
  calls p _ := p.IsVisit
  refl _ := trivial
  trans _ _ := trivial
  relied _ := trivial

theorem changing_permits : changing.Permits where
  same s := Or.inl (.refl _ s)
  raise _ := Or.inl (Store.keeps_of_tables rfl rfl rfl rfl)
  log _ _ _ _ _ := Or.inl (Store.keeps_of_tables rfl rfl rfl rfl)
  enter s c _ := Or.inl (s.keeps_update_context c fun _ => rfl)
  record _ c id v := Or.inr ⟨_, .record c id v⟩
  noteError _ c name f := Or.inr ⟨_, .noteError c name f⟩
  merge _ c es := Or.inr ⟨_, .merge c es⟩
  path h := Or.inr ⟨_, .path _ h⟩
  list s vs := Or.inl (s.keeps_newList vs)
  dict s es := Or.inl (s.keeps_newDict es)
  fork s c items := Or.inl (Store.keeps_forkAll c items s)
  opened s t input metadata moment h := by
    rcases h with rfl | rfl
    · exact Or.inl (Store.keeps_newContext ..)
    · exact Or.inl ((s.keeps_newDict []).trans (Store.keeps_newContext ..))
  result s c _ := Or.inl (s.keeps_update_context c fun _ => rfl)
  closed s c moment := Or.inl (s.keeps_close c moment)
  failed _ c moment name f := Or.inr ⟨_, .failed c moment name f⟩

theorem obey_changing {call : Handlers} (h : call.Obey sparing) : call.Obey changing := by
  have hw : ∀ {s t}, sparing.writes s t → changing.writes s t := Or.inl
  exact fun c vs s => (h c vs s).mono hw id id

theorem changing_lawful {σ : Setup} (h : σ.desk.call.Obey sparing) :
    (changing.discipline σ.body).Lawful := by
  refine lawful (fun _ _ => Or.inl (Store.keeps_of_tables rfl rfl rfl rfl))
    (fun _ _ => Or.inl (Store.keeps_of_tables rfl rfl rfl rfl)) fun {p s t} hp _ => ?_
  cases p with
  | visit id w c =>
    exact Visit.Scene.visit_obeys changing_permits (obey_changing h) (fun _ _ _ _ => trivial)
      fun _ _ _ _ _ _ _ => Or.inl (Store.keeps_of_tables rfl rfl rfl rfl)
  | pursue => exact absurd hp id

end Conduct

namespace Schedule

namespace Discipline

variable {σ : Setup} {m₀ m : Schedule} {past later : List (Schedule × Schedule)}
  {c : Ref .context} {id : String} {v w : Value}

/-! ## Courses -/

section Course

variable (hσ : σ.desk.call.Obey .sparing)
  (h₀ : (Conduct.changing.discipline σ.body).Disciplined m₀)
  (hlater : (Conduct.changing.discipline σ.body).Course m₀ later m)
include hσ h₀ hlater

/-- A value is in its place for as long as no other one is recorded. -/
theorem Course.records (hv : m₀.store.Records c id v) (hnot : ∀ t ∈ later,
      ¬ t.1.store.Rerecords t.2.store (m₀.store.get c).steps id v) :
    ∀ t ∈ later, ∀ s ∈ [t.1.store, t.2.store],
      s.Records c id v ∧ (s.get c).parts = (m₀.store.get c).parts := by
  have h := (hlater.preserves (Conduct.changing_lawful hσ) h₀
    (P := fun s => s.Records c id v ∧ (s.get c).parts = (m₀.store.get c).parts) ⟨hv, rfl⟩
    fun t ht hs ⟨hr, hp⟩ => ?_).2
  · intro t ht s hs
    rcases List.mem_pair.1 hs with rfl | rfl
    · exact (h t ht).1
    · exact (h t ht).2
  · have hsteps : (t.1.store.get c).steps = (m₀.store.get c).steps := congrArg (fun p => p.2.1) hp
    exact ⟨hr.change hs (hsteps ▸ hnot t ht), (Store.Changes.contexts hs hr.context).2.trans hp⟩

/-- A value that is held by contexts all the time looks the same all the time if and only if nothing
is written into it. -/
theorem Course.unfold_eq_iff (hw : m₀.store.Grounds w)
    (hheld : ∀ t ∈ later, ∀ d, t.1.store.Reaches w d → d ∈ t.1.store.Held) :
    (∀ t ∈ later, ∀ n, t.2.store.unfold n w = m₀.store.unfold n w) ↔
      ∀ t ∈ later, ¬ t.1.store.Touches t.2.store w := by
  have hall := hlater.guaranteed (Conduct.changing_lawful hσ) h₀
  have hsame : ∀ {s : Store}, (∀ n, s.unfold n w = m₀.store.unfold n w) → s.Grounds w :=
    fun h => hw.of_unfold h
  constructor
  · intro heq t ht
    have h₁ := ((hlater.preserves (Conduct.changing_lawful hσ) h₀
      (P := fun s => ∀ n, s.unfold n w = m₀.store.unfold n w) (fun _ => rfl)
      fun t ht _ _ => heq t ht).2 t ht).1
    refine (Store.Changes.unfold_eq_iff (hall t ht) (hheld t ht) (hsame h₁)).1 fun n => ?_
    rw [heq t ht n, h₁ n]
  · intro hnot t ht
    refine ((hlater.preserves (Conduct.changing_lawful hσ) h₀
      (P := fun s => ∀ n, s.unfold n w = m₀.store.unfold n w) (fun _ => rfl)
      fun t ht hs h₁ n => ?_).2 t ht).2
    rw [(Store.Changes.unfold_eq_iff hs (hheld t ht) (hsame h₁)).2 (hnot t ht) n, h₁ n]

end Course

/-- **A recorded result looks the same until the same step is recorded again** if and only if no write
of the interpreter lands in a container that it reaches and makes it look different there; and so
does the input. -/
theorem Course.result_stays_iff (hσ : σ.desk.call.Obey .sparing) {s₀ : Store}
    (hpast : (Conduct.changing.discipline σ.body).Course (ofStore s₀) past m₀)
    (hv : m₀.store.Records c id v) (hgv : m₀.store.Grounds v)
    (hgi : m₀.store.Grounds (m₀.store.get c).input)
    (hlater : (Conduct.changing.discipline σ.body).Course m₀ later m)
    (hnot : ∀ t ∈ later, ¬ t.1.store.Rerecords t.2.store (m₀.store.get c).steps id v) :
    ((∀ t ∈ later, ∀ n, t.2.store.readBack n c id = m₀.store.readBack n c id) ↔
      ∀ t ∈ later, ¬ t.1.store.Touches t.2.store v) ∧
    ((∀ t ∈ later, ∀ n, t.2.store.unfold n (t.2.store.get c).input =
        m₀.store.unfold n (m₀.store.get c).input) ↔
      ∀ t ∈ later, ¬ t.1.store.Touches t.2.store (m₀.store.get c).input) := by
  have h₀ := hpast.disciplined (Conduct.changing_lawful hσ) (disciplined_ofStore _ s₀)
  have hrec := Course.records hσ h₀ hlater hv hnot
  have hinput : ∀ t ∈ later, ∀ s ∈ [t.1.store, t.2.store],
      (s.get c).input = (m₀.store.get c).input :=
    fun t ht s hs => congrArg (fun p => p.1) (hrec t ht s hs).2
  constructor
  · rw [← Course.unfold_eq_iff hσ h₀ hlater hgv fun t ht d hd =>
      (hrec t ht t.1.store (by simp)).1.held hd]
    refine forall₂_congr fun t ht => forall_congr' fun n => ?_
    rw [(hrec t ht t.2.store (by simp)).1.readBack, hv.readBack, Option.some_inj]
  · rw [← Course.unfold_eq_iff hσ h₀ hlater hgi fun t ht d hd => ?_]
    · refine forall₂_congr fun t ht => forall_congr' fun n => ?_
      rw [hinput t ht t.2.store (by simp)]
    · refine Store.held_input (hrec t ht t.1.store (by simp)).1.context ?_
      rwa [hinput t ht t.1.store (by simp)]

end Discipline

/-! ## A shared dictionary -/

/-- User code of two tasks: the result of the first holds a dictionary. -/
def sharedSetup : Setup :=
  ⟨default, ⟨fun r _ => .modifyGet fun s =>
    if r.index = 0 then
      let (inner, s) := s.newDict [("k", .int 1)]
      let (outer, s) := s.newDict [("x", .dict inner)]
      (.dict outer, s)
    else
      let (result, s) := s.newDict [("v", .int 2)]
      (.dict result, s), default, none, [], [], none⟩⟩

/-- A workflow that runs both tasks: the first result is merged into the output, and a part of the
second is written at a path in it. -/
def sharedStore : Store :=
  let first : Step := ⟨"a", .task ⟨"first", none, none, none, 0, .int 0⟩, .one "b"⟩
  let second : Step := ⟨"b", .task ⟨"second", none, some [("v", "x.j")], none, 0, .int 0⟩, .none⟩
  let s : Store := { Store.empty with
    workflows := #[⟨"w", "w", [("a", first), ("b", second)], "a", .null, .null, .null, [], [], []⟩]
    tasks := #[⟨"first", ⟨0⟩, .null, .null, .null⟩, ⟨"second", ⟨1⟩, .null, .null, .null⟩]
    taskRegistry := [("first", ⟨0⟩), ("second", ⟨1⟩)] }
  (s.newContext .null [] [] [] [] none 0).2

def sharedRun : Schedule := ((ofStore sharedStore).launch (.call (.visit "a" ⟨0⟩ ⟨0⟩))).2

/-- The moment at which the first result has been recorded. -/
def sharedMoment : Schedule := (sharedRun.trail sharedSetup.body 18).2

/-- What happens behind it. -/
def sharedRest : List (Schedule × Schedule) := (sharedMoment.trail sharedSetup.body 22).1

theorem shared_obey : sharedSetup.desk.call.Obey .sparing := by
  refine fun r _ s => Routine.obeys_modifyGet ?_
  show Store.Keeps _ s (ite _ _ _ : Value × Store).2
  split
  · exact (s.keeps_newDict _).trans (Store.keeps_newDict _ _)
  · exact s.keeps_newDict _

theorem shared_past : (Conduct.changing.discipline sharedSetup.body).Course (ofStore sharedStore)
    ((sharedRun.trail sharedSetup.body 18).1 ++ [(ofStore sharedStore, sharedRun)])
    sharedMoment :=
  (Discipline.Course.begin (.here) rfl (Or.inl (.refl _ _)) (g := ())
    (Routine.obeys_call (p := .visit "a" ⟨0⟩ ⟨0⟩) trivial)).trail 18

theorem shared_rest : (Conduct.changing.discipline sharedSetup.body).Course sharedMoment
    (sharedRest ++ []) (sharedMoment.trail sharedSetup.body 22).2 :=
  (Discipline.Course.here).trail 22

theorem shared_records : sharedMoment.store.Records ⟨0⟩ "a" (.dict ⟨4⟩) :=
  ⟨by decide +kernel, by decide +kernel, by decide +kernel⟩

theorem shared_once : ∀ t ∈ sharedRest ++ [], ¬ t.1.store.Rerecords t.2.store
    (sharedMoment.store.get (⟨0⟩ : Ref .context)).steps "a" (.dict ⟨4⟩) := by
  have h : (sharedRest.all fun t => t.1.store.Has (.results ⟨0⟩) &&
      Entries.get? (t.2.store.get (⟨0⟩ : Ref .results)) "a" == some (.dict ⟨4⟩)) = true := by
    decide +kernel
  have hsteps : (sharedMoment.store.get (⟨0⟩ : Ref .context)).steps = ⟨0⟩ := by decide +kernel
  intro t ht
  rw [List.append_nil] at ht
  have := List.all_eq_true.1 h t ht
  simp only [Bool.and_eq_true, decide_eq_true_eq, beq_iff_eq] at this
  rw [hsteps]
  exact Store.not_rerecords this.1 this.2

/-- How many entries there are in the only entry of a dictionary. -/
def innerSize : Option Tree → Nat
  | some (.node _ [(_, .node _ es)]) => es.length
  | _ => 0

theorem shared_differs : ∃ t ∈ sharedRest ++ [],
    t.2.store.readBack 3 ⟨0⟩ "a" ≠ sharedMoment.store.readBack 3 ⟨0⟩ "a" := by
  have h : (sharedRest.any fun t => innerSize (t.2.store.readBack 3 ⟨0⟩ "a") !=
      innerSize (sharedMoment.store.readBack 3 ⟨0⟩ "a")) = true := by decide +kernel
  obtain ⟨t, ht, hne⟩ := List.any_eq_true.1 h
  refine ⟨t, List.mem_append_left _ ht, fun heq => ?_⟩
  rw [heq] at hne
  simp at hne

/-- The second task writes into the result of the first. -/
theorem result_stays_iff_shared : sharedSetup.desk.call.Obey .sparing ∧
    sharedMoment.store.Records ⟨0⟩ "a" (.dict ⟨4⟩) ∧
    (∀ t ∈ sharedRest ++ [], ¬ t.1.store.Rerecords t.2.store
      (sharedMoment.store.get (⟨0⟩ : Ref .context)).steps "a" (.dict ⟨4⟩)) ∧
    ∃ t ∈ sharedRest ++ [], t.1.store.Touches t.2.store (.dict ⟨4⟩) := by
  refine ⟨shared_obey, shared_records, shared_once, ?_⟩
  by_contra hnot
  push Not at hnot
  have hgv : sharedMoment.store.isGround 3 (.dict ⟨4⟩) = true := by decide +kernel
  have hgi : sharedMoment.store.isGround 3
      (sharedMoment.store.get (⟨0⟩ : Ref .context)).input = true := by decide +kernel
  obtain ⟨t, ht, hne⟩ := shared_differs
  exact hne ((Discipline.Course.result_stays_iff shared_obey shared_past shared_records
    (Store.grounds_of_isGround hgv) (Store.grounds_of_isGround hgi) shared_rest
    shared_once).1.2 hnot t ht 3)

/-- A recorded result does not stay what it was, although user code writes nowhere and nothing else
is recorded for its step. -/
theorem recorded_result_changes : ¬ ∀ {σ : Setup} {s₀ : Store} {m₀ m : Schedule}
    {past later : List (Schedule × Schedule)} {c : Ref .context} {id : String} {v : Value},
    σ.desk.call.Obey .sparing →
    (Conduct.changing.discipline σ.body).Course (ofStore s₀) past m₀ →
    m₀.store.Records c id v → m₀.store.Grounds v →
    (Conduct.changing.discipline σ.body).Course m₀ later m →
    (∀ t ∈ later, ¬ t.1.store.Rerecords t.2.store (m₀.store.get c).steps id v) →
    ∀ t ∈ later, ∀ n, t.2.store.readBack n c id = m₀.store.readBack n c id := by
  intro hclaim
  have hgv : sharedMoment.store.isGround 3 (.dict ⟨4⟩) = true := by decide +kernel
  obtain ⟨t, ht, hne⟩ := shared_differs
  exact hne (hclaim shared_obey shared_past shared_records (Store.grounds_of_isGround hgv)
    shared_rest shared_once t ht 3)

end Schedule

end Conductor
