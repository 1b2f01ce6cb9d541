import Conductor.Proofs.Account.Launched
import Conductor.Proofs.Account.Obeying
import Conductor.Proofs.Store.Writing

/-!
# What a context finds

Every context has a table of its own with the results of steps. A result is recorded in the table of one
context; a fork starts with a copy of the table of its parent, and from then on each goes its own way
(`Store.Advances`).

**Theorem (`Run.finds_iff`).** What a context finds for a step is the result that was recorded last for it
in this context. If none was, it is what the context that it was forked from found at that moment, and
nothing if it was not forked. Nothing that is recorded elsewhere, or later in the parent, has a part in it.
-/

namespace Conductor

namespace Store

variable {s t u : Store} {c d p : Ref .context} {id : String} {v : Value} {es : Entries Value}

/-- What is recorded for a step in a context. -/
def found (s : Store) (c : Ref .context) (id : String) : Option Value :=
  Entries.get? (s.get (s.get c).steps) id

/-- Contexts have tables of their own. -/
structure Owned (s : Store) : Prop where
  there : ∀ c : Ref .context, c.index < s.contexts.size → (s.get c).steps.index < s.results.size
  own : ∀ c d : Ref .context, c.index < s.contexts.size → d.index < s.contexts.size →
    (s.get c).steps = (s.get d).steps → c = d

/-! ## Changes of tables -/

/-- Contexts keep their tables, and tables what is in them. -/
structure KeepsResults (s t : Store) : Prop where
  contexts : s.contexts.size ≤ t.contexts.size
  steps : ∀ c : Ref .context, c.index < s.contexts.size → (t.get c).steps = (s.get c).steps
  results : ∀ r : Ref .results, r.index < s.results.size →
    r.index < t.results.size ∧ t.get r = s.get r

/-- No context is made, either. -/
structure LeavesResults (s t : Store) : Prop extends KeepsResults s t where
  none : t.contexts.size ≤ s.contexts.size

/-- A context is made with a table of its own. -/
structure Makes (s : Store) (d : Ref .context) (es : Entries Value) (t : Store) : Prop
    extends KeepsResults s t where
  index : d.index = s.contexts.size
  size : t.contexts.size = s.contexts.size + 1
  fresh : s.results.size ≤ (t.get d).steps.index
  there : (t.get d).steps.index < t.results.size
  content : t.get (t.get d).steps = es

theorem KeepsResults.refl (s : Store) : KeepsResults s s := ⟨le_rfl, fun _ _ => rfl, fun _ h => ⟨h, rfl⟩⟩

theorem KeepsResults.trans (h : KeepsResults s t) (h' : KeepsResults t u) : KeepsResults s u where
  contexts := h.contexts.trans h'.contexts
  steps c hc := (h'.steps c (hc.trans_le h.contexts)).trans (h.steps c hc)
  results r hr := by
    obtain ⟨ht, hs⟩ := h.results r hr
    exact ⟨(h'.results r ht).1, (h'.results r ht).2.trans hs⟩

theorem KeepsResults.found (h : KeepsResults s t) (hs : s.Owned) (hc : c.index < s.contexts.size)
    (id : String) : t.found c id = s.found c id := by
  rw [Store.found, Store.found, h.steps c hc, (h.results _ (hs.there c hc)).2]

/-- A context may be made behind a change that leaves tables alone. -/
theorem LeavesResults.makes (h : LeavesResults s t) (h' : Makes t d es u) : Makes s d es u where
  toKeepsResults := h.toKeepsResults.trans h'.toKeepsResults
  index := h'.index.trans (h.none.antisymm h.contexts)
  size := h'.size.trans (congrArg Nat.succ (h.none.antisymm h.contexts))
  fresh := by
    refine le_trans (Nat.le_of_not_lt fun hlt => ?_) h'.fresh
    exact Nat.lt_irrefl _ (h.results ⟨t.results.size⟩ hlt).1
  there := h'.there
  content := h'.content

/-- Whatever leaves containers as they are, up to lists and dictionaries, leaves tables alone. -/
theorem Keeps.leavesResults {X : Set Container} (h : Keeps X s t) (hX : ∀ r, .results r ∉ X)
    (hsize : t.contexts.size = s.contexts.size) : LeavesResults s t where
  contexts := hsize.ge
  steps c hc := congrArg (fun p => p.2.1) (h.contexts c hc).2
  results r hr := ⟨h.has (.results r) hr, h.content (.results r) (hX r) hr⟩
  none := hsize.le

theorem makes_newContext (s : Store) (input : Value) (results output errors metadata : Entries Value)
    (currentStep : Option String) (startTime : Int) :
    Makes s (s.newContext input results output errors metadata currentStep startTime).1 results
      (s.newContext input results output errors metadata currentStep startTime).2 := by
  let t := s.newContext input results output errors metadata currentStep startTime
  have hkeeps : Keeps ∅ s t.2 := s.keeps_newContext _ _ _ _ _ _ _
  have hsteps : (t.2.get t.1).steps = ⟨s.results.size⟩ := congrArg Context.steps getD_push_size
  have hsize : t.2.contexts.size = s.contexts.size + 1 := Array.size_push _
  refine ⟨⟨hsize ▸ Nat.le_succ _, fun c hc => congrArg (fun p => p.2.1) (hkeeps.contexts c hc).2,
    fun r hr => ⟨hkeeps.has (.results r) hr, hkeeps.content (.results r) (Set.notMem_empty _) hr⟩⟩,
    rfl, hsize, hsteps ▸ le_rfl, hsteps ▸ ?_, ?_⟩
  · exact (Nat.lt_succ_self _).trans_eq (Array.size_push _).symm
  · show t.2.get (t.2.get t.1).steps = results
    rw [hsteps]
    exact getD_push_size

namespace Owned

theorem leaves (h : s.Owned) (ht : LeavesResults s t) : t.Owned := by
  have hold : ∀ c : Ref .context, c.index < t.contexts.size → c.index < s.contexts.size :=
    fun c hc => hc.trans_le ht.none
  refine ⟨fun c hc => ?_, fun c d hc hd heq => ?_⟩
  · rw [ht.steps c (hold c hc)]
    exact (ht.results _ (h.there c (hold c hc))).1
  · rw [ht.steps c (hold c hc), ht.steps d (hold d hd)] at heq
    exact h.own c d (hold c hc) (hold d hd) heq

theorem makes (h : s.Owned) (ht : Makes s d es t) : t.Owned := by
  have hcases : ∀ c : Ref .context, c.index < t.contexts.size → c.index < s.contexts.size ∨ c = d := by
    intro c hc
    rw [ht.size] at hc
    rcases Nat.lt_succ_iff_lt_or_eq.1 hc with hc | hc
    · exact Or.inl hc
    · exact Or.inr (congrArg Ref.mk (hc.trans ht.index.symm))
  -- Tables that were there are not the new one.
  have hne : ∀ c : Ref .context, c.index < s.contexts.size → (t.get c).steps ≠ (t.get d).steps := by
    intro c hc heq
    rw [ht.steps c hc] at heq
    exact Nat.not_lt.2 ht.fresh (heq ▸ h.there c hc)
  refine ⟨fun c hc => ?_, fun c c' hc hc' heq => ?_⟩
  · rcases hcases c hc with hc | rfl
    · rw [ht.steps c hc]
      exact (ht.results _ (h.there c hc)).1
    · exact ht.there
  · rcases hcases c hc with hc | rfl <;> rcases hcases c' hc' with hc' | rfl
    · rw [ht.steps c hc, ht.steps c' hc'] at heq
      exact h.own c c' hc hc' heq
    · exact absurd heq (hne c hc)
    · exact absurd heq.symm (hne c' hc')
    · rfl

theorem record (h : s.Owned) (c : Ref .context) (id : String) (v : Value) : (s.record c id v).Owned :=
  ⟨fun d hd => (h.there d hd).trans_eq Array.size_setIfInBounds.symm, h.own⟩

/-- Recording is seen in one context only. -/
theorem found_record (h : s.Owned) (hc : c.index < s.contexts.size) (hd : d.index < s.contexts.size)
    (id id' : String) (v : Value) : (s.record d id' v).found c id =
      if c = d ∧ id = id' then some v else s.found c id := by
  show Entries.get? ((s.results.setIfInBounds (s.get d).steps.index _).getD (s.get c).steps.index
    default) id = _
  by_cases hcd : c = d
  · subst hcd
    rw [getD_setIfInBounds_self (h.there c hc)]
    by_cases hid : id = id'
    · subst hid
      rw [Entries.get?_insert_self, if_pos ⟨rfl, rfl⟩]
    · rw [Entries.get?_insert_of_ne _ _ hid, if_neg fun hboth => hid hboth.2]
      rfl
  · rw [getD_setIfInBounds_of_ne fun heq => hcd (h.own c d hc hd (congrArg Ref.mk heq)),
      if_neg fun hboth => hcd hboth.1]
    rfl

end Owned

/-! ## Forks -/

theorem keepsResults_forkAll (p : Ref .context) : ∀ (items : List Value) (s : Store),
    KeepsResults s (s.forkAll p items).2
  | [], s => .refl s
  | _ :: items, s => (s.makes_newContext ..).toKeepsResults.trans (keepsResults_forkAll p items _)

theorem Owned.forkAll (p : Ref .context) : ∀ (items : List Value) {s : Store}, s.Owned →
    (s.forkAll p items).2.Owned
  | [], _, h => h
  | _ :: items, s, h => Owned.forkAll p items (h.makes (s.makes_newContext ..))

/-- Forks are there afterwards, and they are all that is new. -/
theorem mem_forkAll {p : Ref .context} {items : List Value} :
    c ∈ (s.forkAll p items).1 ↔
      s.contexts.size ≤ c.index ∧ c.index < (s.forkAll p items).2.contexts.size := by
  induction items generalizing s with
  | nil => exact ⟨nofun, fun h => absurd h.2 (Nat.not_lt.2 h.1)⟩
  | cons item items ih =>
    have hmake : Makes s (s.fork p item).1 _ (s.fork p item).2 := s.makes_newContext ..
    have hkeeps := keepsResults_forkAll p items (s.fork p item).2
    have hsize := hmake.size
    have hindex := hmake.index
    have hnew : (s.fork p item).1.index < (s.fork p item).2.contexts.size := by omega
    refine List.mem_cons.trans ⟨fun h => ?_, fun h => ?_⟩
    · rcases h with rfl | h
      · exact ⟨hindex.ge, hnew.trans_le hkeeps.contexts⟩
      · obtain ⟨hge, hlt⟩ := ih.1 h
        exact ⟨hmake.contexts.trans hge, hlt⟩
    · by_cases hc : c.index = s.contexts.size
      · exact Or.inl (congrArg Ref.mk (hc.trans hindex.symm))
      · refine Or.inr (ih.2 ⟨?_, h.2⟩)
        show (s.fork p item).2.contexts.size ≤ c.index
        omega

/-- **A fork finds what its parent finds** at that moment. -/
theorem found_forkAll {p : Ref .context} (hp : p.index < s.contexts.size) : ∀ {items : List Value},
    s.Owned → c ∈ (s.forkAll p items).1 → (s.forkAll p items).2.found c id = s.found p id := by
  intro items hs hc
  induction items generalizing s with
  | nil => cases hc
  | cons item items ih =>
    have hmake : Makes s (s.fork p item).1 (s.get (s.get p).steps) (s.fork p item).2 :=
      s.makes_newContext ..
    have hs' := hs.makes hmake
    rcases List.mem_cons.1 hc with rfl | hc
    · have hlt : (s.fork p item).1.index < (s.fork p item).2.contexts.size := by
        rw [hmake.size, hmake.index]
        exact Nat.lt_succ_self _
      refine ((keepsResults_forkAll p items _).found hs' hlt id).trans ?_
      exact congrArg (Entries.get? · id) hmake.content
    · exact (ih (hp.trans_le hmake.contexts) hs' hc).trans (hmake.toKeepsResults.found hs hp id)

/-! ## What a run does to tables -/

/-- How a change of the store is one of tables: none of them changes, a result is recorded for a step in
a context, a context is forked, or a new one is opened. -/
inductive Advances (s : Store) : Store → Prop where
  | leaves {t : Store} (h : LeavesResults s t) : Advances s t
  | records {c : Ref .context} (hc : c.index < s.contexts.size) (id : String) (v : Value) :
    Advances s (s.record c id v)
  | forks {p : Ref .context} (hp : p.index < s.contexts.size) (items : List Value) :
    Advances s (s.forkAll p items).2
  | opens {t : Store} {d : Ref .context} (h : Makes s d [] t) : Advances s t

namespace Advances

theorem size_le (h : s.Advances t) : s.contexts.size ≤ t.contexts.size := by
  cases h with
  | leaves h => exact h.contexts
  | records => exact le_rfl
  | forks _ items => exact (keepsResults_forkAll _ items s).contexts
  | opens h => exact h.contexts

theorem owned (h : s.Advances t) (hs : s.Owned) : t.Owned := by
  cases h with
  | leaves h => exact hs.leaves h
  | records _ id v => exact hs.record _ id v
  | forks _ items => exact hs.forkAll _ items
  | opens h => exact hs.makes h

/-- What a context finds changes only when something is recorded in it. -/
theorem found (h : s.Advances t) (hs : s.Owned) (hc : c.index < s.contexts.size) (id : String) :
    t.found c id = s.found c id ∨ ∃ v, t = s.record c id v := by
  cases h with
  | leaves h => exact Or.inl (h.found hs hc id)
  | @records d hd id' v =>
    by_cases hsame : c = d ∧ id = id'
    · obtain ⟨rfl, rfl⟩ := hsame
      exact Or.inr ⟨v, rfl⟩
    · exact Or.inl ((hs.found_record hc hd id id' v).trans (if_neg hsame))
  | forks _ items => exact Or.inl ((keepsResults_forkAll _ items s).found hs hc id)
  | opens h => exact Or.inl (h.toKeepsResults.found hs hc id)

/-- A context that was not there is forked from another one or opened. -/
theorem new (h : s.Advances t) (hc : s.contexts.size ≤ c.index) (ht : c.index < t.contexts.size) :
    (∃ p : Ref .context, p.index < s.contexts.size ∧ ∃ items, t = (s.forkAll p items).2 ∧
      c ∈ (s.forkAll p items).1) ∨ Makes s c [] t := by
  cases h with
  | leaves h => exact absurd (ht.trans_le h.none) (Nat.not_lt.2 hc)
  | records => exact absurd ht (Nat.not_lt.2 hc)
  | @forks p hp items => exact Or.inl ⟨p, hp, items, rfl, mem_forkAll.2 ⟨hc, ht⟩⟩
  | @opens _ d h =>
    have hsize := h.size
    obtain rfl : c = d := congrArg Ref.mk (by have := h.index; omega)
    exact Or.inr h

end Advances

end Store

/-! ## The conduct of a run -/

namespace Conduct

/-- Results are recorded in contexts that are there, and steps are visited in such contexts. -/
def advancing : Conduct where
  writes := Store.Advances
  rely s t := s.contexts.size ≤ t.contexts.size
  calls p s := ∃ id w, ∃ c : Ref .context, p = .visit id w c ∧ c.index < s.contexts.size
  refl _ := le_rfl
  trans := le_trans
  relied h := h.size_le

end Conduct

section Advancing

open Store

variable {s t : Store}

theorem Store.advances_of_keeps {X : Set Container} (h : Keeps X s t) (hX : ∀ r, .results r ∉ X)
    (hsize : t.contexts.size = s.contexts.size) : s.Advances t :=
  .leaves (h.leavesResults hX hsize)

/-- The tables of workflows, failures, time and the journal have nothing to do with results. -/
theorem Store.advances_of_tables (hq : t.sequences = s.sequences) (hd : t.dicts = s.dicts)
    (hr : t.results = s.results) (hc : t.contexts = s.contexts) : s.Advances t :=
  advances_of_keeps (X := ∅) (keeps_of_tables hq hd hr hc) (fun _ => Set.notMem_empty _)
    (congrArg Array.size hc)

theorem Store.advances_noteError (s : Store) (c : Ref .context) (name : String) (f : Failure) :
    s.Advances (s.noteError c name f) :=
  advances_of_keeps (Writes.noteError c name f).keeps (by simp) rfl

theorem Store.advances_update (s : Store) (c : Ref .context) {f : Context → Context}
    (hf : ∀ x, (f x).parts = x.parts) : s.Advances (s.update c f) :=
  advances_of_keeps (X := ∅) (s.keeps_update_context c hf) (fun _ => Set.notMem_empty _)
    Array.size_setIfInBounds

variable {call : Handlers} (hcall : call.Obey .advancing)
include hcall

theorem usual_advancing (s : Store) :
    Conduct.advancing.terms.Usual (fun _ _ => True) call s where
  same _ := advances_of_tables rfl rfl rfl rfl
  raise _ := advances_of_tables rfl rfl rfl rfl
  log _ _ _ _ _ := advances_of_tables rfl rfl rfl rfl
  dict {t} _ es := advances_of_keeps (X := ∅) (t.keeps_newDict es) (fun _ => Set.notMem_empty _) rfl
  list {t} _ vs _ :=
    ⟨advances_of_keeps (X := ∅) (t.keeps_newList vs) (fun _ => Set.notMem_empty _) rfl, trivial⟩
  null _ := trivial
  lasting _ _ _ := trivial
  user {t} _ c vs := Routine.obeys_iff_meets.1 (hcall c vs t)

omit hcall

variable {σ : Visit.Scene} {id : String} {step : Step}

/-- What a visit does to tables, it does in its own context and in contexts that it forks. -/
theorem grants_advancing (hcall : σ.call.Obey .advancing) (hc : σ.context.index < s.contexts.size) :
    σ.Grants Conduct.advancing.terms (fun _ _ => True) s id step where
  toUsual := usual_advancing hcall s
  enter {t} _ := t.advances_update _ fun _ => rfl
  noteError _ f := advances_noteError _ _ _ f
  sleep _ p hp := absurd hp List.not_mem_nil
  record ht _ := .records (hc.trans_le ht) _ _
  noteAttempt _ _ _ _ f := advances_noteError _ _ _ f
  merge _ _ _ := advances_of_keeps (Writes.merge _ _).keeps (by simp) rfl
  path {t u _ _ _ _} _ _ _ hu := by
    refine advances_of_keeps (Writes.path _ hu).keeps (by simp) ?_
    obtain ⟨ds, -, rfl⟩ := exists_dicts_writeAlong hu
    rfl
  fork {t} ht items iterator concurrency _ batch := by
    refine ⟨.forks (hc.trans_le ht) batch, fun p hp => ?_⟩
    obtain ⟨d, hd, rfl⟩ := List.mem_map.1 hp
    exact ⟨iterator, _, d, rfl, (mem_forkAll.1 hd).2⟩
  asks ht _ hw p hp := by
    obtain ⟨x, -, rfl⟩ := hw p hp
    exact ⟨x, _, _, rfl, hc.trans_le ht⟩
  answers _ _ _ _ := trivial

theorem dispatch_obeys_advancing (hcall : σ.call.Obey .advancing)
    (hc : σ.context.index < s.contexts.size) : (σ.dispatch step).Obeys .advancing s := by
  have h : σ.Grants Conduct.advancing.terms (fun _ _ => True) s step.id step :=
    grants_advancing hcall hc
  exact Routine.obeys_iff_meets.2 (h.meets_dispatch le_rfl)

theorem visit_obeys_advancing (hcall : σ.call.Obey .advancing)
    (hc : σ.context.index < s.contexts.size) : (σ.visit id).Obeys .advancing s := by
  have hgrants : ∀ step, (s.get σ.workflow).step id = .ok step →
      σ.Grants Conduct.advancing.terms (fun _ _ => True) s id step :=
    fun _ _ => grants_advancing hcall hc
  refine Routine.obeys_iff_meets.2
    (Visit.Scene.visit_meets (advances_of_tables rfl rfl rfl rfl) hgrants ?_)
  intro step t _ _ _ u hu
  refine ⟨advances_of_tables rfl rfl rfl rfl, fun p hp => ?_⟩
  exact ⟨_, _, _, List.mem_singleton.1 hp, hc.trans_le hu⟩

include hcall in
theorem meets_openContext (input : Value) (metadata : Entries Value) :
    (Workflow.openContext input metadata).Meets Conduct.advancing.terms
      (OnOk fun c t => c.index < t.contexts.size) s := by
  refine (usual_advancing hcall s).meets_query_bind (s := s) le_rfl fun moment _ => ?_
  have hmeets : ∀ (f : Store → Ref .context × Store), Makes s (f s).1 [] (f s).2 →
      (Routine.modifyGet f).Meets Conduct.advancing.terms
        (OnOk fun c t => c.index < t.contexts.size) s := fun f h => by
    refine Routine.meets_modifyGet (.opens h) ?_
    rw [h.size, h.index]
    exact Nat.lt_succ_self _
  refine hmeets _ ?_
  dsimp only
  split
  · have hdict : LeavesResults s (s.newDict []).2 :=
      (s.keeps_newDict []).leavesResults (X := ∅) (fun _ => Set.notMem_empty _) rfl
    exact hdict.makes (makes_newContext ..)
  · exact makes_newContext ..

section Closing

variable (hcall : call.Obey .advancing) (r : Ref .workflow) (c : Ref .context)
include hcall

theorem meets_closeFailed (f : Failure) : (Workflow.closeFailed call r c f).Meets
    Conduct.advancing.terms (OnOk fun _ _ => True) s := by
  have h := usual_advancing hcall
  refine (h s).meets_query_bind (s := s) le_rfl fun moment _ => ?_
  refine ⟨advances_of_keeps (Writes.failed c moment _ f).keeps (by simp) ?_, ?_⟩
  · exact Array.size_setIfInBounds
  refine ((h _).meets_log (s := _) le_rfl _ _ _ _).bind fun _ u _ _ => ?_
  refine ((h u).meets_emit le_rfl _ _).bind fun _ u _ _ => ?_
  exact ((h u).meets_tell le_rfl _ _).bind fun _ _ _ _ => trivial

theorem meets_closeCompleted (v : Value) : (Workflow.closeCompleted call r c v).Meets
    Conduct.advancing.terms (OnOk fun _ _ => True) s := by
  have h := usual_advancing hcall
  refine ⟨s.advances_update c fun _ => rfl, ?_⟩
  refine (h _).meets_query_bind (s := _) le_rfl fun moment _ => ?_
  refine ⟨Store.advances_update _ c fun _ => rfl, ?_⟩
  refine ((h _).meets_emit (s := _) le_rfl _ _).bind fun _ u _ _ => ?_
  refine ((h u).meets_tell le_rfl _ _).bind fun _ u _ _ => ?_
  exact ((h u).meets_log le_rfl _ _ _ _).bind fun _ _ _ _ => trivial

/-- A run of a workflow opens the context that it visits steps in. -/
theorem execute_obeys_advancing (input : Value) (metadata : Entries Value) :
    (Workflow.execute call r input metadata).Obeys .advancing s := by
  have h := usual_advancing hcall
  refine Routine.obeys_iff_meets.2 ((meets_openContext hcall input metadata).bind fun c t _ hc => ?_)
  show (Routine.bind (Routine.log ..) _).Meets _ _ t
  refine ((h t).meets_log le_rfl _ _ _ _).bind fun _ u hu _ => ?_
  refine ((h u).meets_emit le_rfl _ _).bind fun _ u' hu' _ => ?_
  have hvisit : (Routine.call (.visit (t.get r).entrypoint r c)).Meets Conduct.advancing.terms
      (OnOk fun _ _ => True) u' :=
    Routine.obeys_iff_meets.1 (Routine.obeys_call ⟨_, _, c, rfl, (hc.trans_le hu).trans_le hu'⟩)
  refine hvisit.attempt_bind fun o v _ _ => ?_
  cases o with
  | ok v => exact meets_closeCompleted hcall r c v
  | error f => exact meets_closeFailed hcall r c f

end Closing

end Advancing

theorem Conduct.lawful_advancing {σ : Setup} (h : σ.desk.call.Obey .advancing) :
    (advancing.discipline σ.body).Lawful := by
  refine lawful (fun _ _ => Store.advances_of_tables rfl rfl rfl rfl)
    (fun _ _ => Store.advances_of_tables rfl rfl rfl rfl) fun {p s t} hp ht => ?_
  obtain ⟨id, w, c, rfl, hc⟩ := hp
  exact visit_obeys_advancing h (hc.trans_le ht)

/-! ## Runs -/

namespace Run

variable {body : Procedure → Routine Value} (R : Run body) {c p : Ref .context} {id : String}
  {i j k : Nat} {r : Option Value} {v : Value}

/-- A result is recorded for a step in a context, from a moment to the next. -/
def Records (k : Nat) (c : Ref .context) (id : String) (v : Value) : Prop :=
  c.index < (R.store k).contexts.size ∧ R.store (k + 1) = (R.store k).record c id v

/-- A context is forked from another one. -/
def Copies (k : Nat) (p c : Ref .context) : Prop :=
  p.index < (R.store k).contexts.size ∧ ∃ items,
    R.store (k + 1) = ((R.store k).forkAll p items).2 ∧ c ∈ ((R.store k).forkAll p items).1

/-- A context is opened without results. -/
def Opens (k : Nat) (c : Ref .context) : Prop := (R.store k).Makes c [] (R.store (k + 1))

/-- What the records and forks of a run make a context find for a step at a moment. -/
inductive Finds (id : String) : Nat → Ref .context → Option Value → Prop where
  /-- The last result that was recorded in the context. -/
  | recorded {j k : Nat} {c : Ref .context} {v : Value} (hj : j < k) (h : R.Records j c id v)
    (hlast : ∀ i w, j < i → i < k → ¬R.Records i c id w) : Finds id k c (some v)
  /-- None was, so it finds what its parent found when the context was forked. -/
  | copied {j k : Nat} {p c : Ref .context} {r : Option Value} (hj : j < k) (h : R.Copies j p c)
    (hnone : ∀ i w, i < k → ¬R.Records i c id w) (hp : Finds id j p r) : Finds id k c r
  | opened {j k : Nat} {c : Ref .context} (hj : j < k) (h : R.Opens j c)
    (hnone : ∀ i w, i < k → ¬R.Records i c id w) : Finds id k c none
  /-- The context was there from the beginning. -/
  | given {k : Nat} {c : Ref .context} (hc : c.index < (R.store 0).contexts.size)
    (hnone : ∀ i w, i < k → ¬R.Records i c id w) : Finds id k c ((R.store 0).found c id)

end Run

/-- **A visit records the result of its step**, as soon as it goes on behind it. -/
theorem Account.settle_records {body : Procedure → Routine Value} {R : Run body} {run : Handlers}
    {plan : Procedure → Outline Value} {N b n : Nat} {ds : List Deed} {σ : Visit.Scene} {id : String}
    {step : Step} {v : Value} {t : Nat} {o : Except Failure Value}
    (hc : σ.context.index < (R.store n).contexts.size)
    (h : Account R run plan N b n (.now (Visit.Outlined.settle σ id step v)) ds (some (t, o))) :
    R.Records (n + 1) σ.context id v := by
  obtain ⟨ds', h', rfl⟩ := h.said
  cases h' with
  | get _ _ hs h =>
    cases h with
    | put _ _ hs' h => exact ⟨by rw [hs]; exact hc, by rw [hs, hs']⟩

section Finding

variable {σ : Setup} {R : Run σ.body} {c p : Ref .context} {id : String} {i j k : Nat}
  {r : Option Value}

section

variable (hσ : σ.desk.call.Obey .advancing) (hR : R.Minds .advancing)
include hσ hR

theorem Run.advances (k : Nat) : (R.store k).Advances (R.store (k + 1)) :=
  (Run.guaranteed (Conduct.lawful_advancing hσ) (fun _ => Store.advances_of_tables rfl rfl rfl rfl) hR
    k).elim (fun h => h ▸ Store.advances_of_tables rfl rfl rfl rfl) id

theorem Run.contexts_mono (h : i ≤ k) : (R.store i).contexts.size ≤ (R.store k).contexts.size :=
  Run.relies (Conduct.lawful_advancing hσ) (fun _ => Store.advances_of_tables rfl rfl rfl rfl) hR h

variable (h₀ : (R.store 0).Owned)
include h₀

theorem Run.owned (k : Nat) : (R.store k).Owned := by
  induction k with
  | zero => exact h₀
  | succ k ih => exact (Run.advances hσ hR k).owned ih

/-- As long as nothing is recorded for a step in a context, it finds the same. -/
theorem Run.found_kept (hc : c.index < (R.store i).contexts.size) (hik : i ≤ k)
    (hnone : ∀ j w, i ≤ j → j < k → ¬R.Records j c id w) :
    (R.store k).found c id = (R.store i).found c id := by
  induction k, hik using Nat.le_induction with
  | base => rfl
  | succ k hik ih =>
    have hck := hc.trans_le (Run.contexts_mono hσ hR hik)
    rcases (Run.advances hσ hR k).found (Run.owned hσ hR h₀ k) hck id with h | ⟨v, h⟩
    · exact h.trans (ih fun j w hij hj => hnone j w hij (Nat.lt_succ_of_lt hj))
    · exact absurd ⟨hck, h⟩ (hnone k v hik (Nat.lt_succ_self k))

theorem Run.Finds.sound (h : R.Finds id k c r) : (R.store k).found c id = r := by
  have howned := Run.owned hσ hR h₀
  induction h with
  | @recorded j k c v hj h hlast =>
    obtain ⟨hc, hrec⟩ := h
    have hc' : c.index < (R.store (j + 1)).contexts.size := by rw [hrec]; exact hc
    rw [Run.found_kept hσ hR h₀ hc' hj hlast, hrec, (howned j).found_record hc hc, if_pos ⟨rfl, rfl⟩]
  | @copied j k p c r hj h hnone hp ih =>
    obtain ⟨hp, items, hfork, hmem⟩ := h
    have hc : c.index < (R.store (j + 1)).contexts.size := by
      rw [hfork]
      exact (Store.mem_forkAll.1 hmem).2
    rw [Run.found_kept hσ hR h₀ hc hj fun i w _ hi => hnone i w hi, hfork,
      Store.found_forkAll hp (howned j) hmem, ih]
  | @opened j k c hj h hnone =>
    have hc : c.index < (R.store (j + 1)).contexts.size := by
      rw [h.size, h.index]
      exact Nat.lt_succ_self _
    rw [Run.found_kept hσ hR h₀ hc hj fun i w _ hi => hnone i w hi, Store.found, h.content]
    rfl
  | @given k c hc hnone =>
    exact Run.found_kept hσ hR h₀ hc (Nat.zero_le k) fun i w _ hi => hnone i w hi

omit h₀ in
/-- Every context that is there finds something, or nothing, by the records and forks. -/
theorem Run.exists_finds (id : String) (hc : c.index < (R.store k).contexts.size) :
    ∃ r, R.Finds id k c r := by
  induction k generalizing c with
  | zero => exact ⟨_, .given hc fun _ _ hi => absurd hi (Nat.not_lt_zero _)⟩
  | succ k ih =>
    by_cases hck : c.index < (R.store k).contexts.size
    · by_cases hrec : ∃ v, R.Records k c id v
      · obtain ⟨v, hv⟩ := hrec
        exact ⟨_, .recorded (Nat.lt_succ_self k) hv fun i w hi hik => absurd hik (by omega)⟩
      · have hnow : ∀ w, ¬R.Records k c id w := fun w hw => hrec ⟨w, hw⟩
        have hnone : (∀ i w, i < k → ¬R.Records i c id w) →
            ∀ i w, i < k + 1 → ¬R.Records i c id w := fun h i w hi =>
          (Nat.lt_succ_iff_lt_or_eq.1 hi).elim (h i w) fun heq => heq ▸ hnow w
        obtain ⟨r, hr⟩ := ih hck
        cases hr with
        | recorded hj h hlast =>
          refine ⟨_, .recorded (Nat.lt_succ_of_lt hj) h fun i w hi hik => ?_⟩
          exact (Nat.lt_succ_iff_lt_or_eq.1 hik).elim (hlast i w hi) fun heq => heq ▸ hnow w
        | copied hj h hn hp => exact ⟨_, .copied (Nat.lt_succ_of_lt hj) h (hnone hn) hp⟩
        | opened hj h hn => exact ⟨_, .opened (Nat.lt_succ_of_lt hj) h (hnone hn)⟩
        | given h hn => exact ⟨_, .given h (hnone hn)⟩
    · -- The context is new, so nothing has been recorded in it.
      have hnone : ∀ i w, i < k + 1 → ¬R.Records i c id w := fun i w hi hw =>
        hck (hw.1.trans_le (Run.contexts_mono hσ hR (Nat.le_of_lt_succ hi)))
      rcases (Run.advances hσ hR k).new (Nat.le_of_not_lt hck) hc with ⟨p, hp, items, hfork, hmem⟩ | h
      · obtain ⟨r, hr⟩ := ih hp
        exact ⟨r, .copied (Nat.lt_succ_self k) ⟨hp, items, hfork, hmem⟩ hnone hr⟩
      · exact ⟨none, .opened (Nat.lt_succ_self k) h hnone⟩

/-- **What a context finds for a step** is what the records and forks of the run make it find. -/
theorem Run.finds_iff (hc : c.index < (R.store k).contexts.size) :
    R.Finds id k c r ↔ (R.store k).found c id = r := by
  refine ⟨Run.Finds.sound hσ hR h₀, ?_⟩
  rintro rfl
  obtain ⟨r, hr⟩ := Run.exists_finds hσ hR id hc
  rwa [Run.Finds.sound hσ hR h₀ hr]

end

end Finding

end Conductor
