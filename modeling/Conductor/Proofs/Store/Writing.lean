import Conductor.Path
import Conductor.Proofs.Store.Deep
import Conductor.Proofs.Store.Merging
import Conductor.Workflow.Context

/-!
# Writes into containers

In the course of a run the interpreter writes into containers in four ways only: it records the
result of a step, it notes a failure, it merges a result into the output, and it writes a value at a
path in the output. Each of these changes the content of one container, and leaves all other
containers as they are. Whatever else happens at most adds new ones.

Main results: `Writes.keeps`, a write changes one container only; and `keeps_setPath`, which says
that the container changed by a write at a path is the one where the path leaves the dictionaries
that are there.
-/

namespace Conductor

namespace Entries

variable {α : Type}

theorem mem_of_get? : ∀ {es : Entries α} {key : String} {a : α}, get? es key = some a → (key, a) ∈ es
  | (k, b) :: es, key, a, h => by
    unfold get? at h
    split at h
    · next hk =>
      cases h
      subst hk
      exact List.mem_cons_self
    · exact List.mem_cons_of_mem _ (mem_of_get? h)

/-- What has been written is found, and so is what was there. -/
theorem exists_get?_insertAll {key : String} : ∀ {more : List (String × α)} {es : Entries α},
    (∃ a, get? es key = some a) ∨ (∃ a, (key, a) ∈ more) → ∃ a, get? (insertAll es more) key = some a
  | [], _, h => h.resolve_right fun ⟨_, ha⟩ => absurd ha List.not_mem_nil
  | (k, b) :: more, es, h => by
    show ∃ a, get? (insertAll (insert es k b) more) key = some a
    refine exists_get?_insertAll ?_
    by_cases hk : key = k
    · subst hk
      exact Or.inl ⟨b, get?_insert_self es key b⟩
    · rcases h with ⟨a, ha⟩ | ⟨a, ha⟩
      · exact Or.inl ⟨a, (get?_insert_of_ne es b hk).trans ha⟩
      · rcases List.mem_cons.1 ha with heq | ha
        · exact absurd (congrArg Prod.fst heq) hk
        · exact Or.inr ⟨a, ha⟩

/-- What is written under a key replaces what has been written under it before. -/
theorem insert_insert (es : Entries α) (key : String) (v w : α) :
    insert (insert es key v) key w = insert es key w := by
  induction es with
  | nil => simp [insert]
  | cons x es ih =>
    obtain ⟨k, u⟩ := x
    by_cases h : k = key <;> simp [insert, h, ih]

end Entries

/-- What a context holds on to for as long as it exists. -/
def Context.parts (c : Context) : Value × Ref .results × Ref .dict × Ref .dict × Ref .dict :=
  (c.input, c.steps, c.output, c.errors, c.metadata)

namespace Store

/-- All containers are still there, and hold what they held up to some of them. Contexts keep their
parts. -/
structure Keeps (X : Set Container) (s t : Store) : Prop where
  has : ∀ c, s.Has c → t.Has c
  content : ∀ c, c ∉ X → s.Has c → t.content c = s.content c
  contexts : ∀ c : Ref .context, c.index < s.contexts.size →
    c.index < t.contexts.size ∧ (t.get c).parts = (s.get c).parts

variable {X Y : Set Container} {s t u : Store}

theorem Keeps.refl (X : Set Container) (s : Store) : Keeps X s s :=
  ⟨fun _ h => h, fun _ _ _ => rfl, fun _ h => ⟨h, rfl⟩⟩

theorem Keeps.trans (h₁ : Keeps X s t) (h₂ : Keeps X t u) : Keeps X s u := by
  refine ⟨fun c hc => h₂.has c (h₁.has c hc), fun c hX hc => ?_, fun c hc => ?_⟩
  · rw [h₂.content c hX (h₁.has c hc), h₁.content c hX hc]
  · obtain ⟨ht, hp⟩ := h₁.contexts c hc
    obtain ⟨hu, hq⟩ := h₂.contexts c ht
    exact ⟨hu, hq.trans hp⟩

/-- Of the containers that may change, those count only that are there. -/
theorem Keeps.mono (h : Keeps X s t) (hX : ∀ c ∈ X, s.Has c → c ∈ Y) : Keeps Y s t :=
  ⟨h.has, fun c hY hc => h.content c (fun hc' => hY (hX c hc' hc)) hc, h.contexts⟩

/-! ## Cells -/

section Cells

variable {α : Type} [Inhabited α] {xs : Array α} {x : α} {i j : Nat}

theorem getD_push_of_lt (h : i < xs.size) : (xs.push x).getD i default = xs.getD i default := by
  simp [Array.getD, h, Array.getElem_push_lt, Nat.lt_succ_of_lt h]

theorem getD_push_size : (xs.push x).getD xs.size default = x := by simp [Array.getD]

theorem getD_setIfInBounds_of_ne (h : i ≠ j) :
    (xs.setIfInBounds j x).getD i default = xs.getD i default := by
  by_cases hi : i < xs.size
  · simp [Array.getD, hi, Ne.symm h]
  · simp [Array.getD, hi]

theorem getD_setIfInBounds_self (h : i < xs.size) : (xs.setIfInBounds i x).getD i default = x := by
  simp [Array.getD, h]

end Cells

theorem keeps_put_dict (s : Store) (r : Ref .dict) (es : Entries Value) :
    Keeps {.dict r} s (s.put r es) := by
  refine ⟨fun c hc => ?_, fun c hX hc => ?_, fun c hc => ⟨hc, rfl⟩⟩
  · cases c with
    | dict r' => exact Nat.lt_of_lt_of_eq hc Array.size_setIfInBounds.symm
    | sequence r' => exact hc
    | results r' => exact hc
  · cases c with
    | dict r' =>
      refine getD_setIfInBounds_of_ne fun heq => hX ?_
      rw [Set.mem_singleton_iff]
      exact congrArg Container.dict (congrArg Ref.mk heq)
    | sequence r' => rfl
    | results r' => rfl

theorem keeps_put_results (s : Store) (r : Ref .results) (es : Entries Value) :
    Keeps {.results r} s (s.put r es) := by
  refine ⟨fun c hc => ?_, fun c hX hc => ?_, fun c hc => ⟨hc, rfl⟩⟩
  · cases c with
    | results r' => exact Nat.lt_of_lt_of_eq hc Array.size_setIfInBounds.symm
    | sequence r' => exact hc
    | dict r' => exact hc
  · cases c with
    | results r' =>
      refine getD_setIfInBounds_of_ne fun heq => hX ?_
      rw [Set.mem_singleton_iff]
      exact congrArg Container.results (congrArg Ref.mk heq)
    | sequence r' => rfl
    | dict r' => rfl

/-- A context may change in what is none of its parts. -/
theorem parts_update_context (s : Store) (c d : Ref .context) {f : Context → Context}
    (hf : ∀ x, (f x).parts = x.parts) : ((s.update c f).get d).parts = (s.get d).parts := by
  show (Array.getD (_ : Array Context) d.index default).parts = _
  by_cases hdc : d.index = c.index
  · obtain rfl : d = c := congrArg Ref.mk hdc
    by_cases hd : d.index < s.contexts.size
    · exact (congrArg Context.parts (getD_setIfInBounds_self hd)).trans (hf _)
    · have hsame : s.contexts.setIfInBounds d.index (f (s.get d)) = s.contexts :=
        Array.setIfInBounds_eq_of_size_le (Nat.le_of_not_lt hd)
      exact congrArg (fun xs : Array Context => (xs.getD d.index default).parts) hsame
  · exact congrArg Context.parts (getD_setIfInBounds_of_ne hdc)

theorem keeps_update_context (s : Store) (c : Ref .context) {f : Context → Context}
    (hf : ∀ x, (f x).parts = x.parts) : Keeps X s (s.update c f) := by
  refine ⟨fun c hc => ?_, fun d _ hd => ?_, fun d hd => ⟨?_, s.parts_update_context c d hf⟩⟩
  · cases c <;> exact hc
  · cases d <;> rfl
  · exact Nat.lt_of_lt_of_eq hd Array.size_setIfInBounds.symm

theorem keeps_close (s : Store) (c : Ref .context) (moment : Int) : Keeps X s (s.close c moment) :=
  keeps_update_context s c fun _ => rfl

theorem keeps_newList (s : Store) (vs : List Value) : Keeps X s (s.newList vs).2 := by
  refine ⟨fun c hc => ?_, fun c _ hc => ?_, fun c hc => ⟨hc, rfl⟩⟩
  · cases c with
    | sequence r => exact Nat.lt_of_lt_of_eq (Nat.lt_succ_of_lt hc) (Array.size_push _).symm
    | dict r => exact hc
    | results r => exact hc
  · cases c with
    | sequence r => exact congrArg (List.map fun v => ("", v)) (getD_push_of_lt hc)
    | dict r => rfl
    | results r => rfl

theorem keeps_newDict (s : Store) (es : Entries Value) : Keeps X s (s.newDict es).2 := by
  refine ⟨fun c hc => ?_, fun c _ hc => ?_, fun c hc => ⟨hc, rfl⟩⟩
  · cases c with
    | dict r => exact Nat.lt_of_lt_of_eq (Nat.lt_succ_of_lt hc) (Array.size_push _).symm
    | sequence r => exact hc
    | results r => exact hc
  · cases c with
    | dict r => exact getD_push_of_lt hc
    | sequence r => rfl
    | results r => rfl

theorem keeps_newResults (s : Store) (es : Entries Value) :
    Keeps X s (s.alloc (t := .results) es).2 := by
  refine ⟨fun c hc => ?_, fun c _ hc => ?_, fun c hc => ⟨hc, rfl⟩⟩
  · cases c with
    | results r => exact Nat.lt_of_lt_of_eq (Nat.lt_succ_of_lt hc) (Array.size_push _).symm
    | sequence r => exact hc
    | dict r => exact hc
  · cases c with
    | results r => exact getD_push_of_lt hc
    | sequence r => rfl
    | dict r => rfl

theorem keeps_allocContext (s : Store) (x : Context) :
    Keeps X s (s.alloc (t := .context) x).2 := by
  refine ⟨fun c hc => ?_, fun c _ hc => ?_, fun c hc => ⟨?_, ?_⟩⟩
  · cases c <;> exact hc
  · cases c <;> rfl
  · exact Nat.lt_of_lt_of_eq (Nat.lt_succ_of_lt hc) (Array.size_push _).symm
  · exact congrArg Context.parts (getD_push_of_lt hc)

theorem keeps_newContext (s : Store) (input : Value)
    (results output errors metadata : Entries Value) (currentStep : Option String)
    (startTime : Int) :
    Keeps X s (s.newContext input results output errors metadata currentStep startTime).2 :=
  (keeps_newResults s results).trans ((keeps_newDict _ output).trans
    ((keeps_newDict _ errors).trans ((keeps_newDict _ metadata).trans (keeps_allocContext _ _))))

theorem keeps_forkAll (c : Ref .context) (items : List Value) :
    ∀ s : Store, Keeps X s (s.forkAll c items).2 := by
  induction items with
  | nil => exact fun s => .refl X s
  | cons item items ih => exact fun s => (s.keeps_newContext ..).trans (ih _)

/-- The tables of workflows, failures, time and the journal hold no containers. -/
theorem keeps_of_tables (hq : t.sequences = s.sequences) (hd : t.dicts = s.dicts)
    (hr : t.results = s.results) (hc : t.contexts = s.contexts) : Keeps X s t := by
  refine ⟨fun c h => ?_, fun c _ h => ?_, fun c h => ⟨hc ▸ h, ?_⟩⟩
  · cases c with
    | sequence r => exact Nat.lt_of_lt_of_eq h (congrArg Array.size hq).symm
    | dict r => exact Nat.lt_of_lt_of_eq h (congrArg Array.size hd).symm
    | results r => exact Nat.lt_of_lt_of_eq h (congrArg Array.size hr).symm
  · cases c with
    | sequence r =>
      exact congrArg (fun xs : Array (List Value) => (xs.getD r.index default).map (("", ·))) hq
    | dict r => exact congrArg (fun xs : Array (Entries Value) => xs.getD r.index default) hd
    | results r => exact congrArg (fun xs : Array (Entries Value) => xs.getD r.index default) hr
  · exact congrArg (fun xs : Array Context => (xs.getD c.index default).parts) hc

/-! ## Paths -/

/-- The dictionary where a path leaves those that are there: there it writes its leaf, or the first
of the dictionaries that it makes. -/
def landing (s : Store) (node : Ref .dict) : List String → Ref .dict
  | [] => node
  | [_] => node
  | key :: keys =>
    match (Entries.get? (s.get node) key).getD .null with
    | .dict child => s.landing child keys
    | _ => node

/-- A path does not leave a dictionary that leads to itself only. -/
theorem landing_self {node : Ref .dict}
    (h : ∀ key child, Entries.get? (s.get node) key = some (.dict child) → child = node) :
    ∀ keys : List String, s.landing node keys = node
  | [] => rfl
  | [_] => rfl
  | key :: key' :: keys => by
    rw [landing]
    · cases hg : Entries.get? (s.get node) key with
      | none => rfl
      | some v =>
        cases v with
        | dict child =>
          obtain rfl := h key child hg
          exact landing_self h (key' :: keys)
        | _ => rfl
    · simp

/-- A new dictionary that is put under a key of another one. -/
theorem get_newDict_insert (s : Store) (node : Ref .dict) (key key' : String) (child : Ref .dict)
    (hg : Entries.get? ((((s.newDict []).2.insert node key (.dict (s.newDict []).1))).get
      (s.newDict []).1) key' = some (.dict child)) : child = (s.newDict []).1 := by
  have hnew : (s.newDict []).2.get (s.newDict []).1 = ([] : Entries Value) := by
    show (s.dicts.push []).getD s.dicts.size default = _
    simp [Array.getD]
  by_cases hne : (s.newDict []).1.index = node.index
  · have hnode : node = (s.newDict []).1 := congrArg Ref.mk hne.symm
    have hin : (s.newDict []).1.index < (s.newDict []).2.dicts.size := by
      show s.dicts.size < (s.dicts.push []).size
      simp
    have : ((s.newDict []).2.insert node key (.dict (s.newDict []).1)).get (s.newDict []).1 =
        Entries.insert ((s.newDict []).2.get (s.newDict []).1) key (.dict (s.newDict []).1) := by
      rw [hnode]
      exact getD_setIfInBounds_self hin
    rw [this, hnew] at hg
    simp only [Entries.insert, Entries.get?] at hg
    split at hg
    · cases hg
      rfl
    · cases hg
  · have : ((s.newDict []).2.insert node key (.dict (s.newDict []).1)).get (s.newDict []).1 =
        (s.newDict []).2.get (s.newDict []).1 := getD_setIfInBounds_of_ne hne
    rw [this, hnew] at hg
    cases hg

theorem keeps_insert (s : Store) (r : Ref .dict) (key : String) (v : Value) :
    Keeps {.dict r} s (s.insert r key v) := keeps_put_dict s r _

/-- A write at a path touches no cells but dictionaries. -/
theorem exists_dicts_writeAlong {path : String} {v : Value} :
    ∀ {keys walked : List String} {s t : Store} {node : Ref .dict},
      s.writeAlong path node walked v keys = .ok t →
        ∃ ds, s.dicts.size ≤ ds.size ∧ t = { s with dicts := ds }
  | [], walked, s, t, node, h => by
    cases h
    exact ⟨s.dicts, le_rfl, rfl⟩
  | [leaf], walked, s, t, node, h => by
    cases h
    exact ⟨_, Array.size_setIfInBounds.ge, rfl⟩
  | key :: key' :: keys, walked, s, t, node, h => by
    rw [writeAlong] at h
    · dsimp only at h
      split at h
      · obtain ⟨ds, hds, rfl⟩ := exists_dicts_writeAlong h
        refine ⟨ds, le_trans ?_ hds, rfl⟩
        exact (Nat.le_succ _).trans_eq ((Array.size_push _).symm.trans Array.size_setIfInBounds.symm)
      · exact exists_dicts_writeAlong h
      · cases h
    · simp

/-- A write at a path changes the dictionary where it lands, and no other container that was
there. -/
theorem keeps_writeAlong {path : String} {v : Value} :
    ∀ {keys walked : List String} {s t : Store} {node : Ref .dict},
      s.writeAlong path node walked v keys = .ok t →
        Keeps {.dict (s.landing node keys)} s t
  | [], walked, s, t, node, h => by
    cases h
    exact .refl _ s
  | [leaf], walked, s, t, node, h => by
    cases h
    exact keeps_insert s node leaf v
  | key :: key' :: keys, walked, s, t, node, h => by
    rw [writeAlong] at h
    · rw [landing]
      · cases hg : (Entries.get? (s.get node) key).getD .null with
        | null =>
          rw [hg] at h
          have h₁ : Keeps {.dict node} s (s.newDict []).2 := keeps_newDict s []
          have h₂ := keeps_insert (s.newDict []).2 node key (.dict (s.newDict []).1)
          have h₃ : Keeps {.dict (((s.newDict []).2.insert node key (.dict (s.newDict []).1)).landing
              (s.newDict []).1 (key' :: keys))} _ t := keeps_writeAlong h
          rw [landing_self fun key' child hc => get_newDict_insert s node key key' child hc] at h₃
          have h₁₂ := h₁.trans h₂
          refine ⟨fun c hc => h₃.has c (h₁₂.has c hc), fun c hX hc => ?_, fun c hc => ?_⟩
          · rw [h₃.content c ?_ (h₁₂.has c hc), h₁₂.content c hX hc]
            -- The new dictionary was not there.
            rintro rfl
            exact Nat.lt_irrefl _ hc
          · obtain ⟨hc', hp⟩ := h₁₂.contexts c hc
            obtain ⟨hc'', hp'⟩ := h₃.contexts c hc'
            exact ⟨hc'', hp'.trans hp⟩
        | dict child =>
          rw [hg] at h
          exact keeps_writeAlong h
        | _ =>
          rw [hg] at h
          cases h
      · simp
    · simp

theorem keeps_setPath {r : Ref .dict} {path : String} {v : Value}
    (h : s.setPath r path v = .ok t) : Keeps {.dict (s.landing r (Path.segments path))} s t :=
  keeps_writeAlong h

/-! ## Writes -/

/-- The writes of the interpreter into containers. -/
inductive Writes (s : Store) : Container → Store → Prop where
  | record (c : Ref .context) (id : String) (v : Value) :
    Writes s (.results (s.get c).steps) (s.record c id v)
  | noteError (c : Ref .context) (name : String) (f : Failure) :
    Writes s (.dict (s.get c).errors) (s.noteError c name f)
  | failed (c : Ref .context) (moment : Int) (name : String) (f : Failure) :
    Writes s (.dict (s.get c).errors) ((s.close c moment).noteError c name f)
  | merge (c : Ref .context) (es : Entries Value) :
    Writes s (.dict (s.get c).output) (s.insertAll (s.get c).output es)
  | path (c : Ref .context) {path : String} {v : Value} {t : Store}
    (h : s.setPath (s.get c).output path v = .ok t) :
    Writes s (.dict (s.landing (s.get c).output (Path.segments path))) t

/-- **A write changes one container only.** -/
theorem Writes.keeps {c : Container} (h : Writes s c t) : Keeps {c} s t := by
  cases h with
  | record c id v => exact keeps_put_results s _ _
  | noteError c name f => exact keeps_insert s _ _ _
  | failed c moment name f =>
    have hparts : ((s.close c moment).get c).parts = (s.get c).parts :=
      s.parts_update_context c c fun _ => rfl
    have herrors : ((s.close c moment).get c).errors = (s.get c).errors :=
      congrArg (fun p => p.2.2.2.1) hparts
    have h := keeps_insert (s.close c moment) ((s.close c moment).get c).errors name (.failure f)
    rw [herrors] at h
    refine (s.keeps_close c moment).trans ?_
    show Keeps _ _ (Store.insert _ ((s.close c moment).get c).errors _ _)
    rwa [herrors]
  | merge c es => exact keeps_put_dict s _ _
  | path c h => exact keeps_setPath h

end Store

end Conductor
