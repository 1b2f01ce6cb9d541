import Conductor.Proofs.Workflow.Filling

/-!
# What runs write into

A run of workflows writes into contexts and into their results, errors and outputs, and beside that it
only puts new things into the store. So whatever leads to none of these stays what it is: what workflows
get as input, and all that handlers make of it.

`Proceeds` says this of two stores of which the second one comes behind the first one. A value is at rest
if it leads to nothing that is written into (`AtRest`), so how it looks down to every depth is how it will
look later (`Appears.lasting`).
-/

namespace Conductor

/-- How a value looks, down to every depth. -/
abbrev Look : Type := Nat → Tree

namespace Look

/-- How a value looks in a store. -/
def of (s : Store) (v : Value) : Look := fun n => s.unfold n v

/-- How nothing looks. -/
def null : Look := fun _ => .leaf .null

/-- How entries under keys look together. -/
def node (shape : Shape) (es : List (String × Look)) : Look
  | 0 => .leaf .null
  | n + 1 => .node shape (es.map fun e => (e.1, e.2 n))

/-- How a dictionary looks. -/
def dict (es : List (String × Look)) : Look := node .dict es

/-- How a list looks. -/
def list (ds : List Look) : Look := node .list (ds.map fun d => ("", d))

end Look

namespace Store

variable {s t u : Store} {v w : Value} {c : Ref .context} {d : Look} {key : String}

/-- What runs write into: contexts with their results, errors and outputs. -/
inductive InUse (s : Store) : Value → Prop where
  | context {c : Ref .context} (hc : c.index < s.contexts.size) : InUse s (.context c)
  | results {c : Ref .context} (hc : c.index < s.contexts.size) : InUse s (.results (s.get c).steps)
  | errors {c : Ref .context} (hc : c.index < s.contexts.size) : InUse s (.dict (s.get c).errors)
  | output {c : Ref .context} (hc : c.index < s.contexts.size) : InUse s (.dict (s.get c).output)

theorem InUse.not_plain (h : InUse s v) : v.isPlain = false := by cases h <;> rfl

/-- A value that leads to nothing that runs write into. -/
def AtRest (s : Store) (v : Value) : Prop := Clear (InUse s) s v

/-- What runs write into is there. -/
def Sound (s : Store) : Prop := ∀ v, InUse s v → s.Stands v

/-- A run has gone on for a while. -/
structure Proceeds (s t : Store) : Prop where
  contexts : ∀ c : Ref .context, c.index < s.contexts.size →
    c.index < t.contexts.size ∧ (t.get c).parts = (s.get c).parts
  still : Still (InUse s) s t
  inUse : ∀ v, s.Stands v → InUse t v → InUse s v
  freezes : Freezes s t
  tasks : SameTasks s t
  hooks : t.hooks = s.hooks
  sound : s.Sound → t.Sound

theorem Proceeds.refl (s : Store) : Proceeds s s :=
  ⟨fun _ hc => ⟨hc, rfl⟩, .refl _ s, fun _ _ => id, .refl s, .refl s, rfl, id⟩

theorem Proceeds.trans (h : Proceeds s t) (h' : Proceeds t u) : Proceeds s u where
  contexts c hc := by
    obtain ⟨ht, hp⟩ := h.contexts c hc
    obtain ⟨hu, hq⟩ := h'.contexts c ht
    exact ⟨hu, hq.trans hp⟩
  still := h.still.then h'.still h.inUse
  inUse v hv hb := h.inUse v hv (h'.inUse v (h.still.stands v hv) hb)
  freezes := h.freezes.trans h'.freezes
  tasks := h.tasks.trans h'.tasks
  hooks := h'.hooks.trans h.hooks
  sound := h'.sound ∘ h.sound

theorem Proceeds.opened (h : Proceeds s t) (hc : c.index < s.contexts.size) :
    c.index < t.contexts.size := (h.contexts c hc).1

theorem Proceeds.input (h : Proceeds s t) (hc : c.index < s.contexts.size) :
    (t.get c).input = (s.get c).input := congrArg Prod.fst (h.contexts c hc).2

theorem Proceeds.steps (h : Proceeds s t) (hc : c.index < s.contexts.size) :
    (t.get c).steps = (s.get c).steps := congrArg (fun p => p.2.1) (h.contexts c hc).2

/-! ## Values at rest -/

theorem AtRest.lasting (h : s.AtRest v) (hs : Proceeds s t) : t.AtRest v :=
  Clear.lasting h hs.still hs.inUse

theorem AtRest.leads (h : s.AtRest v) (hw : s.Leads v w) : s.AtRest w := Clear.leads h hw

theorem AtRest.lookup (h : s.AtRest v) (hw : s.lookup v key = .ok w) : s.AtRest w :=
  Clear.lookup (fun _ => InUse.not_plain) h hw

theorem atRest_plain (h : v.isPlain = true) : s.AtRest v := clear_plain (fun _ => InUse.not_plain) h

/-- What is found in a value at rest stays the same. -/
theorem Proceeds.sight (h : Proceeds s t) (hv : s.AtRest v) : t.sight v = s.sight v :=
  h.still.sight v hv.stands hv.not

theorem Proceeds.lookup (h : Proceeds s t) (hv : s.AtRest v) (key : String) :
    t.lookup v key = s.lookup v key := lookup_of_sight (h.sight hv) key

theorem Proceeds.row? (h : Proceeds s t) (hv : s.AtRest v) : t.row? v = s.row? v :=
  congrArg (fun x => x.2.1) (h.sight hv)

theorem Proceeds.unfold (h : Proceeds s t) (hv : s.AtRest v) (n : Nat) :
    t.unfold n v = s.unfold n v := Clear.unfold h.still hv

/-- A value is at rest and looks like something. -/
structure Appears (s : Store) (v : Value) (d : Look) : Prop where
  rests : s.AtRest v
  look : Look.of s v = d

theorem Appears.lasting (h : s.Appears v d) (hs : Proceeds s t) : t.Appears v d :=
  ⟨h.rests.lasting hs, (funext (hs.unfold h.rests)).trans h.look⟩

theorem AtRest.appears (h : s.AtRest v) : s.Appears v (Look.of s v) := ⟨h, rfl⟩

theorem appears_null : s.Appears .null .null :=
  ⟨atRest_plain rfl, funext fun n => by cases n <;> rfl⟩

/-! ## What runs do -/

/-- No context is made. -/
theorem proceeds_of_still (hsize : t.contexts.size = s.contexts.size)
    (hparts : ∀ c : Ref .context, c.index < s.contexts.size → (t.get c).parts = (s.get c).parts)
    (hstill : Still (InUse s) s t) (hw : Freezes s t) (ht : SameTasks s t)
    (hh : t.hooks = s.hooks) : Proceeds s t := by
  have hinUse : ∀ v, InUse t v → InUse s v := by
    intro v hv
    have hparts : ∀ c : Ref .context, c.index < t.contexts.size →
        (t.get c).parts = (s.get c).parts := fun c hc => hparts c (hsize ▸ hc)
    simp only [Context.parts, Prod.mk.injEq] at hparts
    cases hv with
    | context hc => exact .context (hsize ▸ hc)
    | results hc => exact (hparts _ hc).2.1 ▸ .results (hsize ▸ hc)
    | errors hc => exact (hparts _ hc).2.2.2.1 ▸ .errors (hsize ▸ hc)
    | output hc => exact (hparts _ hc).2.2.1 ▸ .output (hsize ▸ hc)
  exact ⟨fun c hc => ⟨hsize ▸ hc, hparts c hc⟩, hstill, fun v _ => hinUse v, hw, ht, hh,
    fun hs v hv => hstill.stands v (hs v (hinUse v hv))⟩

/-- The counter of failures, the clock and the journal are nobody's concern. -/
theorem proceeds_mark (s : Store) (n : Nat) (x : Binary64) (j : List Event) :
    Proceeds s { s with nextFailure := n, clock := x, journal := j } :=
  proceeds_of_still rfl (fun _ _ => rfl) (still_mark _ s n x j) (freezes_of_workflows rfl)
    (sameTasks_of_tables rfl rfl) rfl

theorem proceeds_enter (hc : c.index < s.contexts.size) (id : String) : Proceeds s (s.enter c id) :=
  proceeds_of_still Array.size_setIfInBounds (fun d _ => s.parts_update_context c d fun _ => rfl)
    ((still_update_context s c _).mono fun _ _ h => h ▸ .context hc) (freezes_of_workflows rfl)
    (sameTasks_of_tables rfl rfl) rfl

theorem proceeds_record (hc : c.index < s.contexts.size) (id : String) (v : Value) :
    Proceeds s (s.record c id v) :=
  proceeds_of_still rfl (fun _ _ => rfl)
    ((still_put_results s _ _).mono fun _ _ h => h ▸ .results hc) (freezes_of_workflows rfl)
    (sameTasks_of_tables rfl rfl) rfl

theorem proceeds_insertAll (hc : c.index < s.contexts.size) (es : Entries Value) :
    Proceeds s (s.insertAll (s.get c).output es) :=
  proceeds_of_still rfl (fun _ _ => rfl)
    ((still_put_dict s _ _).mono fun _ _ h => h ▸ .output hc) (freezes_of_workflows rfl)
    (sameTasks_of_tables rfl rfl) rfl

theorem proceeds_newDict (s : Store) (es : Entries Value) : Proceeds s (s.newDict es).2 :=
  proceeds_of_still rfl (fun _ _ => rfl) (still_newDict _ s es) (freezes_of_workflows rfl)
    (sameTasks_of_tables rfl rfl) rfl

theorem proceeds_newList (s : Store) (vs : List Value) : Proceeds s (s.newList vs).2 :=
  proceeds_of_still rfl (fun _ _ => rfl) (still_alloc_sequence _ s vs) (freezes_of_workflows rfl)
    (sameTasks_of_tables rfl rfl) rfl

/-! ## New values -/

theorem inUse_of_contexts (ht : t.contexts = s.contexts) (h : InUse t v) : InUse s v := by
  have hget : ∀ c : Ref .context, t.get c = s.get c := fun c =>
    congrArg (fun cs : Array Context => cs.getD c.index default) ht
  cases h with
  | context hc => exact .context (ht ▸ hc)
  | results hc => exact hget _ ▸ .results (ht ▸ hc)
  | errors hc => exact hget _ ▸ .errors (ht ▸ hc)
  | output hc => exact hget _ ▸ .output (ht ▸ hc)

/-- A new dictionary of values at rest is at rest. -/
theorem atRest_newDict (hs : s.Sound) {es : Entries Value} (hes : ∀ e ∈ es, s.AtRest e.2) :
    (s.newDict es).2.AtRest (.dict (s.newDict es).1) := by
  refine clear_of_leads lt_size_push_self (fun hb => ?_) fun w hw => ?_
  · have hstands := hs _ (inUse_of_contexts (t := (s.newDict es).2) rfl hb)
    exact absurd hstands (Nat.lt_irrefl _)
  · have hget : (s.newDict es).2.mapping? (.dict (s.newDict es).1) = some es :=
      congrArg some getD_push_size
    cases hw with
    | entry hm he =>
      cases hm.symm.trans hget
      exact (hes _ he).lasting (s.proceeds_newDict es)
    | item hm => cases hm
    | field key => exact atRest_plain rfl

/-- A new list of values at rest is at rest. -/
theorem atRest_newList {vs : List Value} (hvs : ∀ v ∈ vs, s.AtRest v) :
    (s.newList vs).2.AtRest (s.newList vs).1 := by
  refine clear_of_leads lt_size_push_self nofun fun w hw => ?_
  have hget : (s.newList vs).2.row? (s.newList vs).1 = some vs := congrArg some getD_push_size
  cases hw with
  | entry hm => cases hm
  | item hm hw =>
    cases hm.symm.trans hget
    exact (hvs w hw).lasting (s.proceeds_newList vs)
  | field key => exact atRest_plain rfl

/-- How a container looks is told by how its entries look. -/
theorem look_node {shape : Shape} {x : Container} (hv : v.container? = some (shape, x)) (hx : s.Has x)
    {es : List (String × Look)}
    (h : List.Forall₂ (fun e e' => e.1 = e'.1 ∧ Look.of s e.2 = e'.2) (s.content x) es) :
    Look.of s v = Look.node shape es := by
  funext n
  cases n with
  | zero => rfl
  | succ n =>
    show s.unfold (n + 1) v = _
    rw [unfold_node hv hx]
    refine congrArg (Tree.node shape) ?_
    show (s.content x).map _ = es.map _
    generalize s.content x = content at h
    induction h with
    | nil => rfl
    | cons he _ ih => exact congrArg₂ List.cons (Prod.ext he.1 (congrFun he.2 n)) ih

theorem appears_newDict (hs : s.Sound) {es : Entries Value} {ds : List (String × Look)}
    (h : List.Forall₂ (fun e e' => e.1 = e'.1 ∧ s.Appears e.2 e'.2) es ds) :
    (s.newDict es).2.Appears (.dict (s.newDict es).1) (Look.dict ds) where
  rests := atRest_newDict hs
    ((List.forall₂_and_left _ _).1 (h.imp fun _ _ hee => ⟨hee.2.rests, hee⟩)).1
  look := by
    have hthere : (s.newDict es).2.Has (.dict (s.newDict es).1) := lt_size_push_self
    refine look_node rfl hthere ?_
    rw [show (s.newDict es).2.content (.dict (s.newDict es).1) = es from getD_push_size]
    exact h.imp fun e e' hee => ⟨hee.1, (hee.2.lasting (s.proceeds_newDict es)).look⟩

theorem appears_newList {vs : List Value} {ds : List Look} (h : List.Forall₂ s.Appears vs ds) :
    (s.newList vs).2.Appears (s.newList vs).1 (Look.list ds) where
  rests := atRest_newList
    ((List.forall₂_and_left _ _).1 (h.imp fun _ _ hvd => ⟨hvd.rests, hvd⟩)).1
  look := by
    have hthere : (s.newList vs).2.Has (.sequence ⟨s.sequences.size⟩) := lt_size_push_self
    have hcontent : (s.newList vs).2.content (.sequence ⟨s.sequences.size⟩) = vs.map fun v => ("", v) :=
      congrArg (List.map fun v => ("", v)) getD_push_size
    refine look_node rfl hthere ?_
    rw [hcontent]
    refine List.forall₂_map_left_iff.2 (List.forall₂_map_right_iff.2 ?_)
    exact h.imp fun v d hvd => ⟨rfl, (hvd.lasting (s.proceeds_newList vs)).look⟩

/-! ## New contexts -/

/-- A new context has the given input, and results, errors and an output that nobody else has. -/
structure Opens (s : Store) (input : Value) (t : Ref .context × Store) : Prop where
  index : t.1.index = s.contexts.size
  contexts : t.2.contexts.size = s.contexts.size + 1
  results : t.2.results.size = s.results.size + 1
  dicts : t.2.dicts.size = s.dicts.size + 3
  input : (t.2.get t.1).input = input
  steps : (t.2.get t.1).steps = ⟨s.results.size⟩
  output : (t.2.get t.1).output = ⟨s.dicts.size⟩
  errors : (t.2.get t.1).errors = ⟨s.dicts.size + 1⟩

theorem opens_newContext (s : Store) (input : Value) (results output errors metadata : Entries Value)
    (step : Option String) (time : Int) :
    Opens s input (s.newContext input results output errors metadata step time) := by
  have hget : ∀ t, t = s.newContext input results output errors metadata step time → t.2.get t.1 =
      ⟨input, ⟨s.results.size⟩, ⟨s.dicts.size⟩, step, ⟨(s.dicts.push output).size⟩, time, none,
        ⟨((s.dicts.push output).push errors).size⟩, .null⟩ := fun _ ht => ht ▸ getD_push_size
  have hdicts : (((s.dicts.push output).push errors).push metadata).size = s.dicts.size + 3 := by simp
  refine ⟨rfl, Array.size_push _, Array.size_push _, hdicts, ?_, ?_, ?_, ?_⟩ <;> rw [hget _ rfl]
  exact congrArg Ref.mk (Array.size_push _)

theorem proceeds_newContext (s : Store) (input : Value) (results output errors metadata : Entries Value)
    (step : Option String) (time : Int) :
    Proceeds s (s.newContext input results output errors metadata step time).2 := by
  obtain ⟨hindex, hsize, hresults, hdicts, -, hsteps, houtput, herrors⟩ :=
    s.opens_newContext input results output errors metadata step time
  have hkeeps := s.keeps_newContext (X := ∅) input results output errors metadata step time
  have hstill : Still (InUse s) s (s.newContext input results output errors metadata step time).2 :=
    ((((still_alloc_results _ s _).trans (still_newDict _ _ _)).trans (still_newDict _ _ _)).trans
      (still_newDict _ _ _)).trans (still_alloc_context _ _ _)
  set t := s.newContext input results output errors metadata step time with ht
  -- What is in use has been in use before, or belongs to the new context.
  have hcases : ∀ v, InUse t.2 v → InUse s v ∨ v = .context t.1 ∨ v = .results ⟨s.results.size⟩ ∨
      v = .dict ⟨s.dicts.size⟩ ∨ v = .dict ⟨s.dicts.size + 1⟩ := by
    have hold : ∀ d : Ref .context, d.index < t.2.contexts.size →
        d.index < s.contexts.size ∨ d = t.1 := by
      intro d hd
      rcases Nat.lt_succ_iff_lt_or_eq.1 (hsize ▸ hd) with hd | hd
      · exact Or.inl hd
      · exact Or.inr (congrArg Ref.mk (hd.trans hindex.symm))
    have hparts := hkeeps.contexts
    simp only [Context.parts, Prod.mk.injEq] at hparts
    intro v hv
    cases hv with
    | context hd =>
      rcases hold _ hd with hd | rfl
      · exact Or.inl (.context hd)
      · exact Or.inr (Or.inl rfl)
    | results hd =>
      rcases hold _ hd with hd | rfl
      · exact Or.inl ((hparts _ hd).2.2.1 ▸ .results hd)
      · exact Or.inr (Or.inr (Or.inl (congrArg Value.results hsteps)))
    | errors hd =>
      rcases hold _ hd with hd | rfl
      · exact Or.inl ((hparts _ hd).2.2.2.2.1 ▸ .errors hd)
      · exact Or.inr (Or.inr (Or.inr (Or.inr (congrArg Value.dict herrors))))
    | output hd =>
      rcases hold _ hd with hd | rfl
      · exact Or.inl ((hparts _ hd).2.2.2.1 ▸ .output hd)
      · exact Or.inr (Or.inr (Or.inr (Or.inl (congrArg Value.dict houtput))))
  refine ⟨hkeeps.contexts, hstill, fun v hv hb => ?_, freezes_of_workflows rfl,
    sameTasks_of_tables rfl rfl, rfl, fun hs v hv => ?_⟩
  · rcases hcases v hb with hb | rfl | rfl | rfl | rfl
    · exact hb
    · exact absurd hv (Nat.lt_irrefl _)
    · exact absurd hv (Nat.lt_irrefl _)
    · exact absurd hv (Nat.lt_irrefl _)
    · exact absurd hv (Nat.not_lt.2 (Nat.le_succ _))
  · rcases hcases v hv with hv | rfl | rfl | rfl | rfl
    · exact hstill.stands v (hs v hv)
    · exact hindex.trans_lt (hsize ▸ Nat.lt_succ_self _)
    · show s.results.size < t.2.results.size
      omega
    · show s.dicts.size < t.2.dicts.size
      omega
    · show s.dicts.size + 1 < t.2.dicts.size
      omega

theorem proceeds_fork (s : Store) (c : Ref .context) (item : Value) :
    Proceeds s (s.fork c item).2 := s.proceeds_newContext _ _ _ _ _ _ _

theorem proceeds_forkAll (c : Ref .context) (items : List Value) :
    ∀ s : Store, Proceeds s (s.forkAll c items).2 := by
  induction items with
  | nil => exact fun s => .refl s
  | cons item items ih => exact fun s => (s.proceeds_fork c item).trans (ih _)

/-- Forks for items have the items as their inputs, in their order, and results that nobody else has. -/
theorem get_forkAll (c : Ref .context) : ∀ (items : List Value) (s : Store),
    List.Forall₂ (fun item (d : Ref .context) =>
      s.contexts.size ≤ d.index ∧ d.index < (s.forkAll c items).2.contexts.size ∧
        ((s.forkAll c items).2.get d).input = item ∧
        s.results.size ≤ ((s.forkAll c items).2.get d).steps.index) items (s.forkAll c items).1
  | [], _ => .nil
  | item :: items, s => by
    obtain ⟨hindex, hsize, hresults, -, hinput, hsteps, -, -⟩ : Opens s item (s.fork c item) :=
      s.opens_newContext _ _ _ _ _ _ _
    have hnext := proceeds_forkAll c items (s.fork c item).2
    have hopen : (s.fork c item).1.index < (s.fork c item).2.contexts.size := by omega
    refine .cons ⟨hindex.ge, hnext.opened hopen, (hnext.input hopen).trans hinput, ?_⟩ ?_
    · show _ ≤ (((s.fork c item).2.forkAll c items).2.get (s.fork c item).1).steps.index
      rw [hnext.steps hopen, hsteps]
    · refine (get_forkAll c items (s.fork c item).2).imp fun x d ⟨hd, hlt, hx, hr⟩ => ?_
      exact ⟨by omega, hlt, hx, (Nat.le_succ _).trans (hresults.ge.trans hr)⟩

end Store

end Conductor
