import Conductor.Proofs.Store.Writing

/-!
# Where values lead

A path goes from a value to what the value holds: the entries of a mapping, the items of a row, the
attributes of an object. A value is clean with regard to some dictionaries if no path leads from it
to one of these, nor to anything that is not there yet.

New cells change nothing for values that were clean before. Neither does a write of clean values,
whatever is written into; so cleanness is kept by everything that happens, as long as nobody
writes a value that is not clean into something that is (`Store.clean_of_leads`).
-/

namespace Conductor

theorem Path.element_mem (xs : List Value) (i : Int) : element xs i = .null ∨ element xs i ∈ xs := by
  have hget : ∀ n, xs.getD n .null = .null ∨ xs.getD n .null ∈ xs := fun n => by
    rw [List.getD_eq_getElem?_getD]
    cases h : xs[n]? with
    | none => exact Or.inl rfl
    | some x => exact Or.inr (List.mem_of_getElem? h)
  unfold element
  split
  · exact hget _
  · split
    · exact hget _
    · exact Or.inl rfl

/-- Values in which nothing is found but other values of this kind. -/
def Value.isPlain : Value → Bool
  | .null | .bool _ | .int _ | .float _ | .text _ | .names _ | .callable _ | .symbol _ | .failure _
  | .foreign _ | .other _ => true
  | _ => false

namespace Store

/-- What is found in a value by one segment of a path, or by going through the value. -/
inductive Leads (s : Store) (v : Value) : Value → Prop where
  | entry {es : Entries Value} {e : String × Value} (h : s.mapping? v = some es) (he : e ∈ es) :
    Leads s v e.2
  | item {vs : List Value} {w : Value} (h : s.row? v = some vs) (hw : w ∈ vs) : Leads s v w
  | field (key : String) : Leads s v (s.attributeOf v key)

/-- What a value refers to is there, if it is of a kind that runs add to. -/
def Stands (s : Store) : Value → Prop
  | .list r | .tuple r => r.index < s.sequences.size
  | .dict r => r.index < s.dicts.size
  | .results r => r.index < s.results.size
  | .context r => r.index < s.contexts.size
  | .workflow r | .steps r | .step r _ => r.index < s.workflows.size
  | _ => True

/-- No path leads from a value to one of some dictionaries, nor to anything that is not there. -/
def Clean (X : Ref .dict → Prop) (s : Store) (v : Value) : Prop :=
  ∀ w, Relation.ReflTransGen s.Leads v w → s.Stands w ∧ ∀ r, w = .dict r → ¬ X r

variable {X : Ref .dict → Prop} {s t : Store} {v w : Value}

/-! ## Clean values -/

theorem Clean.stands (h : Clean X s v) : s.Stands v := (h v .refl).1

theorem Clean.not_guarded {r : Ref .dict} (h : Clean X s (.dict r)) : ¬ X r := (h _ .refl).2 r rfl

theorem Clean.leads (h : Clean X s v) (hw : s.Leads v w) : Clean X s w :=
  fun x hx => h x (.head hw hx)

theorem clean_of_leads (hv : s.Stands v) (hX : ∀ r, v = .dict r → ¬ X r)
    (h : ∀ w, s.Leads v w → Clean X s w) : Clean X s v := by
  intro x hx
  rcases hx.cases_head with rfl | ⟨w, hw, hx⟩
  · exact ⟨hv, hX⟩
  · exact h w hw x hx

theorem isPlain_operation (operations operators : List String) (key : String) :
    (operation operations operators key).isPlain = true := by
  unfold operation
  split
  · rfl
  · split
    · rfl
    · split <;> rfl

theorem isPlain_attributeOf (h : v.isPlain = true) (key : String) :
    (s.attributeOf v key).isPlain = true := by
  cases v with
  | null | text | foreign | callable | other => exact isPlain_operation _ _ key
  | names => rfl
  | bool | int =>
    show (integerAttribute _ key).isPlain = true
    unfold integerAttribute
    split <;> first | rfl | exact isPlain_operation _ _ _
  | float =>
    show (floatAttribute _ key).isPlain = true
    unfold floatAttribute
    split <;> first | rfl | exact isPlain_operation _ _ _
  | failure | symbol =>
    unfold attributeOf
    dsimp only
    split <;> first | rfl | exact isPlain_operation _ _ _
  | _ => cases h

theorem Leads.plain (h : s.Leads v w) (hv : v.isPlain = true) : w.isPlain = true := by
  cases h with
  | entry h =>
    cases v with
    | dict | results | steps => cases hv
    | _ => cases h
  | item h hw =>
    cases v with
    | names ts =>
      cases h
      obtain ⟨t, -, rfl⟩ := List.mem_map.1 hw
      rfl
    | list | tuple => cases hv
    | _ => cases h
  | field key => exact isPlain_attributeOf hv key

/-- Plain values are there, and lead to plain values only. -/
theorem plain_of_leads (h : v.isPlain = true) (hw : Relation.ReflTransGen s.Leads v w) :
    s.Stands w ∧ w.isPlain = true := by
  have hplain : w.isPlain = true := by
    induction hw with
    | refl => exact h
    | tail _ hw ih => exact hw.plain ih
  refine ⟨?_, hplain⟩
  cases w with
  | null | bool | int | float | text | names | callable | symbol | failure | foreign | other => trivial
  | _ => cases hplain

theorem clean_plain (h : v.isPlain = true) : Clean X s v := fun w hw => by
  obtain ⟨hs, hplain⟩ := plain_of_leads h hw
  refine ⟨hs, ?_⟩
  rintro r rfl
  cases hplain

/-- One segment of a path leads to something in the value, or nowhere. -/
theorem leads_of_lookup {key : String} (h : s.lookup v key = .ok w) : w = .null ∨ s.Leads v w := by
  unfold lookup at h
  split at h
  · next es hes =>
    cases h
    cases hg : Entries.get? es key with
    | none => exact Or.inl rfl
    | some x => exact Or.inr (.entry hes (Entries.mem_of_get? hg))
  · split at h
    · next vs hvs =>
      split at h
      · cases hp : Path.position key with
        | error e =>
          rw [hp] at h
          cases h
        | ok i =>
          rw [hp] at h
          cases h
          exact (Path.element_mem vs i).imp id fun hmem => .item hvs hmem
      · cases h
        exact Or.inl rfl
    · cases h
      exact Or.inr (.field key)

theorem Clean.lookup {key : String} (hv : Clean X s v) (h : s.lookup v key = .ok w) :
    Clean X s w := by
  rcases leads_of_lookup h with rfl | hw
  · exact clean_plain rfl
  · exact hv.leads hw

/-! ## New cells -/

/-- All that one segment of a path can find in a value. -/
def sight (s : Store) (v : Value) : Option (Entries Value) × Option (List Value) × (String → Value) :=
  (s.mapping? v, s.row? v, s.attributeOf v)

theorem leads_of_sight (h : t.sight v = s.sight v) (hw : t.Leads v w) : s.Leads v w := by
  obtain ⟨hm, hr, ha⟩ : t.mapping? v = s.mapping? v ∧ t.row? v = s.row? v ∧
      t.attributeOf v = s.attributeOf v := by
    simpa only [sight, Prod.mk.injEq] using h
  cases hw with
  | entry h he => exact .entry (hm ▸ h) he
  | item h hw => exact .item (hr ▸ h) hw
  | field key =>
    rw [ha]
    exact .field key

/-- Everything is still there, and the same is found in it, up to values of a given kind. -/
structure Still (M : Value → Prop) (s t : Store) : Prop where
  stands : ∀ v, s.Stands v → t.Stands v
  sight : ∀ v, s.Stands v → ¬ M v → t.sight v = s.sight v

variable {M : Value → Prop}

theorem Still.refl (M : Value → Prop) (s : Store) : Still M s s := ⟨fun _ => id, fun _ _ _ => rfl⟩

theorem Still.mono {M' : Value → Prop} (h : Still M s t) (hM : ∀ v, s.Stands v → M v → M' v) :
    Still M' s t := ⟨h.stands, fun v hv hn => h.sight v hv fun hm => hn (hM v hv hm)⟩

theorem Still.trans {u : Store} (h : Still M s t) (h' : Still M t u) : Still M s u :=
  ⟨fun v hv => h'.stands v (h.stands v hv), fun v hv hn =>
    (h'.sight v (h.stands v hv) hn).trans (h.sight v hv hn)⟩

/-- What changes later may be less than what changed before. -/
theorem Still.then {M' : Value → Prop} {u : Store} (h : Still M s t) (h' : Still M' t u)
    (hM : ∀ v, s.Stands v → M' v → M v) : Still M s u :=
  ⟨fun v hv => h'.stands v (h.stands v hv), fun v hv hn =>
    (h'.sight v (h.stands v hv) fun hm => hn (hM v hv hm)).trans (h.sight v hv hn)⟩

theorem lt_size_push {α : Type} {xs : Array α} {x : α} {i : Nat} (h : i < xs.size) :
    i < (xs.push x).size := by
  rw [Array.size_push]
  exact Nat.lt_succ_of_lt h

theorem lt_size_push_self {α : Type} {xs : Array α} {x : α} : xs.size < (xs.push x).size := by
  rw [Array.size_push]
  exact Nat.lt_succ_self _

/-- What is found in a mapping that is read from its entries only. -/
def mappingSight (es : Entries Value) :
    Option (Entries Value) × Option (List Value) × (String → Value) := (some es, none, fun _ => .null)

/-- What is found in a row that is read from its items only. -/
def rowSight (vs : List Value) :
    Option (Entries Value) × Option (List Value) × (String → Value) := (none, some vs, fun _ => .null)

/-- What is found in a context. -/
def contextSight (x : Context) :
    Option (Entries Value) × Option (List Value) × (String → Value) := (none, none, contextAttribute x)

theorem still_alloc_sequence (M : Value → Prop) (s : Store) (xs : List Value) :
    Still M s (s.alloc (t := .sequence) xs).2 := by
  refine ⟨fun v hv => ?_, fun v hv _ => ?_⟩
  · cases v <;> first | exact lt_size_push hv | exact hv
  · cases v <;> first | rfl | exact congrArg rowSight (getD_push_of_lt hv)

theorem still_newDict (M : Value → Prop) (s : Store) (es : Entries Value) :
    Still M s (s.newDict es).2 := by
  refine ⟨fun v hv => ?_, fun v hv _ => ?_⟩
  · cases v <;> first | exact lt_size_push hv | exact hv
  · cases v <;> first | rfl | exact congrArg mappingSight (getD_push_of_lt hv)

theorem still_alloc_results (M : Value → Prop) (s : Store) (es : Entries Value) :
    Still M s (s.alloc (t := .results) es).2 := by
  refine ⟨fun v hv => ?_, fun v hv _ => ?_⟩
  · cases v <;> first | exact lt_size_push hv | exact hv
  · cases v <;> first | rfl | exact congrArg mappingSight (getD_push_of_lt hv)

theorem still_alloc_context (M : Value → Prop) (s : Store) (x : Context) :
    Still M s (s.alloc (t := .context) x).2 := by
  refine ⟨fun v hv => ?_, fun v hv _ => ?_⟩
  · cases v <;> first | exact lt_size_push hv | exact hv
  · cases v <;> first | rfl | exact congrArg contextSight (getD_push_of_lt hv)

theorem still_alloc_workflow (M : Value → Prop) (s : Store) (w : Workflow) :
    Still M s (s.alloc (t := .workflow) w).2 := by
  refine ⟨fun v hv => ?_, fun v hv _ => ?_⟩
  · cases v <;> first | exact lt_size_push hv | exact hv
  · have hget : ∀ r : Ref .workflow, r.index < s.workflows.size →
        (s.alloc (t := .workflow) w).2.get r = s.get r := fun r hr => getD_push_of_lt hr
    cases v with
    | workflow r =>
      show (none, none, workflowAttribute r _) = (none, none, workflowAttribute r (s.get r))
      rw [hget r hv]
    | steps r =>
      show (some (((s.alloc (t := .workflow) w).2.get r).steps.map _), none, _) = _
      rw [hget r hv]
      rfl
    | step r id =>
      show (none, none, stepAttribute ((Entries.get? ((s.alloc (t := .workflow) w).2.get r).steps
        id).getD default)) = _
      rw [hget r hv]
      rfl
    | _ => rfl

/-- The counter of failures, the clock and the journal hold no values. -/
theorem still_mark (M : Value → Prop) (s : Store) (n : Nat) (x : Binary64) (j : List Event) :
    Still M s { s with nextFailure := n, clock := x, journal := j } :=
  ⟨fun v hv => by cases v <;> exact hv, fun v _ _ => by cases v <;> rfl⟩

/-- Whoever holds another cell than the one that is written holds what it held. -/
theorem still_put_dict (s : Store) (r : Ref .dict) (es : Entries Value) :
    Still (· = .dict r) s (s.put r es) := by
  refine ⟨fun v hv => ?_, fun v hv hne => ?_⟩
  · cases v <;> first | exact hv.trans_eq Array.size_setIfInBounds.symm | exact hv
  · cases v with
    | dict r' =>
      exact congrArg mappingSight (getD_setIfInBounds_of_ne fun heq =>
        hne (congrArg Value.dict (congrArg Ref.mk heq)))
    | _ => rfl

theorem still_put_results (s : Store) (r : Ref .results) (es : Entries Value) :
    Still (· = .results r) s (s.put r es) := by
  refine ⟨fun v hv => ?_, fun v hv hne => ?_⟩
  · cases v <;> first | exact hv.trans_eq Array.size_setIfInBounds.symm | exact hv
  · cases v with
    | results r' =>
      exact congrArg mappingSight (getD_setIfInBounds_of_ne fun heq =>
        hne (congrArg Value.results (congrArg Ref.mk heq)))
    | _ => rfl

theorem still_update_context (s : Store) (c : Ref .context) (f : Context → Context) :
    Still (· = .context c) s (s.update c f) := by
  refine ⟨fun v hv => ?_, fun v hv hne => ?_⟩
  · cases v <;> first | exact hv.trans_eq Array.size_setIfInBounds.symm | exact hv
  · cases v with
    | context c' =>
      exact congrArg contextSight (getD_setIfInBounds_of_ne fun heq =>
        hne (congrArg Value.context (congrArg Ref.mk heq)))
    | _ => rfl

/-- What was clean stays clean if nothing is newly found that is not clean. -/
theorem Clean.of_still (hs : Still M s t)
    (hleads : ∀ {v w}, M v → Clean X s v → t.Leads v w → s.Leads v w ∨ Clean X s w)
    (h : Clean X s v) : Clean X t v := by
  intro w hw
  have hclean : Clean X s w := by
    induction hw with
    | refl => exact h
    | @tail v w _ hw ih =>
      by_cases hv : M v
      · exact (hleads hv ih hw).elim ih.leads id
      · exact ih.leads (leads_of_sight (hs.sight v ih.stands hv) hw)
  exact ⟨hs.stands w hclean.stands, (hclean w .refl).2⟩

theorem Clean.still (h : Clean X s v) (hs : Still (fun _ => False) s t) : Clean X t v :=
  h.of_still hs fun hv => hv.elim

theorem Clean.alloc_sequence (h : Clean X s v) (xs : List Value) :
    Clean X (s.alloc (t := .sequence) xs).2 v := h.still (still_alloc_sequence _ s xs)

theorem Clean.alloc_dict (h : Clean X s v) (es : Entries Value) : Clean X (s.newDict es).2 v :=
  h.still (still_newDict _ s es)

theorem Clean.alloc_results (h : Clean X s v) (es : Entries Value) :
    Clean X (s.alloc (t := .results) es).2 v := h.still (still_alloc_results _ s es)

theorem Clean.alloc_context (h : Clean X s v) (c : Context) :
    Clean X (s.alloc (t := .context) c).2 v := h.still (still_alloc_context _ s c)

theorem Clean.alloc_workflow (h : Clean X s v) (w : Workflow) :
    Clean X (s.alloc (t := .workflow) w).2 v := h.still (still_alloc_workflow _ s w)

theorem Clean.mark (h : Clean X s v) (n : Nat) (x : Binary64) (j : List Event) :
    Clean X { s with nextFailure := n, clock := x, journal := j } v := h.still (still_mark _ s n x j)

/-! ## Writes -/

theorem Clean.put_dict (h : Clean X s v) {r : Ref .dict} {es : Entries Value}
    (hes : ∀ e ∈ es, e ∈ s.get r ∨ Clean X s e.2) : Clean X (s.put r es) v := by
  refine h.of_still (still_put_dict s r es) ?_
  rintro _ w rfl hv hw
  have hget : (s.put r es).get r = es := getD_setIfInBounds_self hv.stands
  cases hw with
  | entry hm he =>
    cases hm
    rw [hget] at he
    exact (hes _ he).imp_left fun he => .entry rfl he
  | item hm => cases hm
  | field key => exact Or.inl (.field key)

theorem Clean.put_results (h : Clean X s v) {r : Ref .results} {es : Entries Value}
    (hes : ∀ e ∈ es, e ∈ s.get r ∨ Clean X s e.2) : Clean X (s.put r es) v := by
  refine h.of_still (still_put_results s r es) ?_
  rintro _ w rfl hv hw
  have hget : (s.put r es).get r = es := getD_setIfInBounds_self hv.stands
  cases hw with
  | entry hm he =>
    cases hm
    rw [hget] at he
    exact (hes _ he).imp_left fun he => .entry rfl he
  | item hm => cases hm
  | field key => exact Or.inl (.field key)

/-- The attributes of a context with the same parts are the same or plain, up to the result. -/
theorem contextAttribute_cases {x y : Context} (h : y.parts = x.parts) (key : String) :
    contextAttribute y key = contextAttribute x key ∨ (contextAttribute y key).isPlain = true ∨
      (contextAttribute y key = y.result ∧ contextAttribute x key = x.result) := by
  simp only [Context.parts, Prod.mk.injEq] at h
  obtain ⟨hi, hs, ho, he, hm⟩ := h
  unfold contextAttribute
  split
  · exact Or.inl hi
  · exact Or.inl (congrArg Value.results hs)
  · exact Or.inl (congrArg Value.dict ho)
  · cases y.currentStep <;> exact Or.inr (Or.inl rfl)
  · exact Or.inl (congrArg Value.dict he)
  · exact Or.inl rfl
  · split <;> exact Or.inr (Or.inl rfl)
  · exact Or.inl (congrArg Value.dict hm)
  · exact Or.inr (Or.inr ⟨rfl, rfl⟩)
  · cases y.duration? <;> exact Or.inr (Or.inl rfl)
  · exact Or.inl rfl
  · exact Or.inr (Or.inl rfl)

/-- A context may be moved and closed, and get a clean result. -/
theorem Clean.update_context (h : Clean X s v) {c : Ref .context} {f : Context → Context}
    (hparts : (f (s.get c)).parts = (s.get c).parts)
    (hresult : (f (s.get c)).result = (s.get c).result ∨ Clean X s (f (s.get c)).result) :
    Clean X (s.update c f) v := by
  refine h.of_still (still_update_context s c f) ?_
  rintro _ w rfl hv hw
  have hget : (s.update c f).get c = f (s.get c) := getD_setIfInBounds_self hv.stands
  cases hw with
  | entry hm => cases hm
  | item hm => cases hm
  | field key =>
    change s.Leads _ (contextAttribute ((s.update c f).get c) key) ∨
      Clean X s (contextAttribute ((s.update c f).get c) key)
    rw [hget]
    have hfield : ∀ {w : Value}, contextAttribute (s.get c) key = w → s.Leads (.context c) w :=
      fun hw => hw ▸ Leads.field (v := .context c) key
    rcases contextAttribute_cases hparts key with h | h | ⟨hy, hx⟩
    · exact Or.inl (hfield h.symm)
    · exact Or.inr (clean_plain h)
    · rw [hy]
      exact hresult.imp_left fun h => hfield (hx.trans h.symm)

theorem Clean.insert (h : Clean X s v) (r : Ref .dict) (key : String) (hw : Clean X s w) :
    Clean X (s.insert r key w) v :=
  h.put_dict fun _ he => (Entries.mem_insert he).imp_right fun heq => by rwa [heq]

theorem Clean.insertAll (h : Clean X s v) (r : Ref .dict) {es : Entries Value}
    (hes : ∀ e ∈ es, Clean X s e.2) : Clean X (s.insertAll r es) v :=
  h.put_dict fun e he => (Entries.mem_insertAll he).imp_right (hes e)

theorem Clean.record (h : Clean X s v) (c : Ref .context) (id : String) (hw : Clean X s w) :
    Clean X (s.record c id w) v :=
  h.put_results fun _ he => (Entries.mem_insert he).imp_right fun heq => by rwa [heq]

theorem Clean.noteError (h : Clean X s v) (c : Ref .context) (name : String) (f : Failure) :
    Clean X (s.noteError c name f) v := h.insert _ name (clean_plain rfl)

theorem Clean.enter (h : Clean X s v) (c : Ref .context) (id : String) :
    Clean X (s.enter c id) v := h.update_context rfl (Or.inl rfl)

theorem Clean.close (h : Clean X s v) (c : Ref .context) (moment : Int) :
    Clean X (s.close c moment) v := h.update_context rfl (Or.inl rfl)

theorem Clean.newContext (h : Clean X s v) (input : Value)
    (results output errors metadata : Entries Value) (currentStep : Option String)
    (startTime : Int) :
    Clean X (s.newContext input results output errors metadata currentStep startTime).2 v :=
  ((((h.alloc_results results).alloc_dict output).alloc_dict errors).alloc_dict
    metadata).alloc_context _

theorem Clean.forkAll (c : Ref .context) (items : List Value) :
    ∀ {s : Store}, Clean X s v → Clean X (s.forkAll c items).2 v := by
  induction items with
  | nil => exact fun h => h
  | cons item items ih =>
    intro s h
    have hfork : Clean X (s.fork c item).2 v := h.newContext _ _ _ _ _ _ _
    exact ih hfork

/-! ## New values -/

theorem clean_newList {vs : List Value} (hvs : ∀ v ∈ vs, Clean X s v) :
    Clean X (s.newList vs).2 (s.newList vs).1 := by
  refine clean_of_leads lt_size_push_self nofun fun w hw => ?_
  have hget : (s.newList vs).2.row? (s.newList vs).1 = some vs :=
    congrArg some getD_push_size
  cases hw with
  | entry hm => cases hm
  | item hm hw =>
    cases hm.symm.trans hget
    exact (hvs w hw).alloc_sequence vs
  | field key => exact clean_plain rfl

/-- A new dictionary is clean if it is not one of those that are to be avoided. -/
theorem clean_newDict {es : Entries Value} (hX : ¬ X (s.newDict es).1)
    (hes : ∀ e ∈ es, Clean X s e.2) : Clean X (s.newDict es).2 (.dict (s.newDict es).1) := by
  refine clean_of_leads lt_size_push_self (fun r hr => ?_) fun w hw => ?_
  · cases hr
    exact hX
  have hget : (s.newDict es).2.mapping? (.dict (s.newDict es).1) = some es :=
    congrArg some getD_push_size
  cases hw with
  | entry hm he =>
    cases hm.symm.trans hget
    exact (hes _ he).alloc_dict es
  | item hm => cases hm
  | field key => exact clean_plain rfl

/-- The output of a new context is clean, if it is empty and not to be avoided. -/
theorem clean_newContext (input : Value) (results errors metadata : Entries Value)
    (currentStep : Option String) (startTime : Int) (hX : ¬ X ⟨s.dicts.size⟩) :
    let t := s.newContext input results [] errors metadata currentStep startTime
    t.1.index < t.2.contexts.size ∧ Clean X t.2 (.dict (t.2.get t.1).output) := by
  intro t
  refine ⟨lt_size_push_self, ?_⟩
  have hget : (t.2.get t.1).output = ((s.alloc (t := .results) results).2.newDict []).1 :=
    congrArg Context.output getD_push_size
  rw [hget]
  have hnew : Clean X ((s.alloc (t := .results) results).2.newDict []).2
      (.dict ((s.alloc (t := .results) results).2.newDict []).1) :=
    clean_newDict hX fun _ he => absurd he List.not_mem_nil
  exact ((hnew.alloc_dict errors).alloc_dict metadata).alloc_context _

theorem clean_forkAll {c : Ref .context} {d : Ref .context} (items : List Value) :
    ∀ {s : Store}, (∀ r, X r → r.index < s.dicts.size) → d ∈ (s.forkAll c items).1 →
      d.index < (s.forkAll c items).2.contexts.size ∧
        Clean X (s.forkAll c items).2 (.dict ((s.forkAll c items).2.get d).output) := by
  induction items with
  | nil => exact fun _ hd => absurd hd List.not_mem_nil
  | cons item items ih =>
    intro s hX hd
    have hkeep : Keeps ∅ s (s.fork c item).2 := s.keeps_newContext _ _ _ _ _ _ _
    rcases List.mem_cons.1 hd with hd | hd
    · replace hd : d = (s.fork c item).1 := hd
      rw [hd]
      obtain ⟨hlt, hclean⟩ := s.clean_newContext (X := X) item (s.get (s.get c).steps)
        (s.get (s.get c).errors) (Entries.insert (s.get (s.get c).metadata) parentKey (.context c))
        (s.get c).currentStep (s.get c).startTime fun h => Nat.lt_irrefl _ (hX _ h)
      obtain ⟨hlt', hparts⟩ := ((s.fork c item).2.keeps_forkAll (X := ∅) c items).contexts _ hlt
      have hout : ((s.forkAll c (item :: items)).2.get (s.fork c item).1).output =
          ((s.fork c item).2.get (s.fork c item).1).output := congrArg (fun p => p.2.2.1) hparts
      refine ⟨hlt', ?_⟩
      rw [hout]
      exact Clean.forkAll c items hclean
    · exact ih (fun r hr => hkeep.has (.dict r) (hX r hr)) hd

/-! ## Paths -/

theorem Clean.child {node child : Ref .dict} (h : Clean X s (.dict node)) {key : String}
    (hc : (Entries.get? (s.get node) key).getD .null = .dict child) : Clean X s (.dict child) := by
  cases hg : Entries.get? (s.get node) key with
  | none =>
    rw [hg] at hc
    cases hc
  | some x =>
    rw [hg] at hc
    exact hc ▸ h.leads (.entry rfl (Entries.mem_of_get? hg))

theorem clean_landing : ∀ {keys : List String} {node : Ref .dict}, Clean X s (.dict node) →
    Clean X s (.dict (s.landing node keys))
  | [], _, h => h
  | [_], _, h => h
  | key :: key' :: keys, node, h => by
    rw [landing]
    · split
      · next child hc => exact clean_landing (h.child hc)
      · exact h
    · simp

theorem Clean.writeAlong {path : String} {x : Value} : ∀ {keys walked : List String} {s t : Store}
    {node : Ref .dict}, (∀ r, X r → r.index < s.dicts.size) → Clean X s v →
      Clean X s (.dict node) → Clean X s x → s.writeAlong path node walked x keys = .ok t → Clean X t v
  | [], _, _, _, _, _, hv, _, _, h => by
    cases h
    exact hv
  | [leaf], _, _, _, node, _, hv, _, hx, h => by
    cases h
    exact hv.insert node leaf hx
  | key :: key' :: keys, _, s, _, node, hX, hv, hn, hx, h => by
    rw [Store.writeAlong] at h
    · cases hg : (Entries.get? (s.get node) key).getD .null with
      | null =>
        rw [hg] at h
        have hnew : Clean X (s.newDict []).2 (.dict (s.newDict []).1) :=
          clean_newDict (fun hmem => Nat.lt_irrefl _ (hX _ hmem)) fun _ he => absurd he List.not_mem_nil
        refine Clean.writeAlong (fun r hr => ?_) ((hv.alloc_dict []).insert node key hnew)
          (hnew.insert node key hnew) ((hx.alloc_dict []).insert node key hnew) h
        exact (lt_size_push (hX r hr)).trans_eq Array.size_setIfInBounds.symm
      | dict child =>
        rw [hg] at h
        exact Clean.writeAlong hX hv (hn.child hg) hx h
      | _ =>
        rw [hg] at h
        cases h
    · simp

theorem Clean.setPath {r : Ref .dict} {path : String} {x : Value}
    (hX : ∀ r, X r → r.index < s.dicts.size) (hv : Clean X s v) (hr : Clean X s (.dict r))
    (hx : Clean X s x) (h : s.setPath r path x = .ok t) : Clean X t v := hv.writeAlong hX hr hx h

/-- A write at a path changes nothing of the dictionaries that are to be avoided. -/
theorem get_of_setPath {r d : Ref .dict} {path : String} {x : Value}
    (hX : ∀ r, X r → r.index < s.dicts.size) (hr : Clean X s (.dict r)) (hd : X d)
    (h : s.setPath r path x = .ok t) : t.get d = s.get d := by
  refine (keeps_setPath h).content (.dict d) (fun hmem => ?_) (hX d hd)
  cases hmem
  exact (clean_landing hr).not_guarded hd

end Store

end Conductor
