import Conductor.Proofs.Workflow.Family

/-!
# What acts leave behind

An act of a family leaves all members where they are, and all tables as they were but for the one entry
that it has written (`Follows`). An output is another tree afterwards if the act has written into it
(`outputs`), and the same tree if the act has gone elsewhere or was refused.

**Theorem (`Becomes.follows`).** After any history a tidy family is tidy, each of its tables holds what it
held, followed by what has been written to it, and so does each output. Nothing of that depends on what
has been written elsewhere.

A family that a history has made larger has passed the acts that have made it so (`Becomes.passes`).
-/

namespace Conductor

open Store (parentKey Keeps Fresh)

theorem writesTo_append (p : Place) (as bs : List Act) :
    writesTo p (as ++ bs) = writesTo p as ++ writesTo p bs := List.filterMap_append

theorem writesTo_write (p q : Place) (key : String) (x : Tree) :
    writesTo p [.write q key x] = if q = p then [(key, x)] else [] := by
  by_cases h : q = p <;> simp [writesTo, h]

namespace Family

/-- A history of a family. -/
inductive Becomes : Family → List Act → Family → Prop
  | refl (f : Family) : Becomes f [] f
  | act {f f' f'' : Family} {a : Act} {as : List Act} (ha : f.Acts a f') (h : Becomes f' as f'') :
    Becomes f (a :: as) f''

variable {f f' f'' : Family} {o o' : Ownership} {outs outs' : Nat → Entries Tree} {t u : Store}
  {X : Set Container} {i : Nat} {c : Ref .context} {v : Value} {x : Tree} {key : String}
  {a : Act} {as bs : List Act} {p : Place}

/-! ## What acts leave -/

/-- After acts all members of a family are still there, and their tables hold what they held, followed
by what has been written to them. -/
structure Follows (f : Family) (as : List Act) (f' : Family) : Prop where
  contexts : f.contexts <+: f'.contexts
  copies : f.copies <+: f'.copies
  parts : ∀ c ∈ f.contexts, (f'.store.get c).parts = (f.store.get c).parts
  looks : ∀ {p d}, f.container? p = some d → IsTable (.place p) → ∀ n, f'.store.look n d =
    Entries.insertAll (f.store.look n d) (Tree.cutAll n (writesTo p as))

namespace Follows

theorem refl (f : Family) : f.Follows [] f :=
  ⟨List.prefix_rfl, List.prefix_rfl, fun _ _ => rfl, fun _ _ _ => rfl⟩

theorem container (h : f.Follows as f') {d : Container} (hd : f.container? p = some d) :
    f'.container? p = some d := container?_mono h.contexts h.copies h.parts hd

theorem trans (h : f.Follows as f') (h' : f'.Follows bs f'') : f.Follows (as ++ bs) f'' := by
  refine ⟨h.contexts.trans h'.contexts, h.copies.trans h'.copies, fun c hc => ?_, fun hd hp n => ?_⟩
  · exact (h'.parts c (h.contexts.subset hc)).trans (h.parts c hc)
  · rw [h'.looks (h.container hd) hp, h.looks hd hp, writesTo_append, Tree.cutAll_append,
      Entries.insertAll_append]

/-- What a table looks like after acts. -/
theorem look? (h : f.Follows as f') (hp : IsTable (.place p)) {n : Nat} {es : Entries Tree}
    (hes : f.look? n p = some es) :
    f'.look? n p = some (Entries.insertAll es (Tree.cutAll n (writesTo p as))) := by
  obtain ⟨d, hd, rfl⟩ := Option.map_eq_some_iff.1 hes
  rw [Family.look?, h.container hd, ← h.looks hd hp]
  rfl

end Follows

/-- Where no table is written to, all tables stay as they are. -/
theorem Tidy.follows_of_keeps (h : f.Tidy o outs) (hkeeps : Keeps X f.store f'.store)
    (hX : ∀ d ∈ X, ∀ w, o d = some w → ¬ IsTable w) (hcontexts : f.contexts <+: f'.contexts)
    (hcopies : f.copies <+: f'.copies) (has : ∀ p, IsTable (.place p) → writesTo p as = []) :
    f.Follows as f' := by
  refine ⟨hcontexts, hcopies, h.parts hkeeps, fun {p d} hd hp n => ?_⟩
  rw [has p hp]
  exact h.look_eq hkeeps (fun d hd heq => hX d hd _ heq trivial) (h.owned hd) hp
    (fun hmem => hX d hmem _ (h.owned hd) hp) n

/-- A new value that is written into a table is the next of its entries. -/
theorem Tidy.follows_of_enter (h : f.Tidy o outs) {d : Container} (hd : f.container? p = some d)
    (hp : IsTable (.place p)) (hv : f.store.Fresh t [(key, v)] [(key, x)]) (hkeeps : Keeps {d} t u)
    (hcontent : u.content d = Entries.insert (t.content d) key v) :
    ∃ o', Extends o o' ∧ Tidy { f with store := u } o' outs ∧
      f.Follows [.write p key x] { f with store := u } := by
  obtain ⟨o', ho, hsettled, ht⟩ := h.fresh hv
  have hd' := ho d _ (h.owned hd)
  have hall : Keeps {d} f.store u :=
    (hv.keeps.of_empty _).trans hkeeps
  refine ⟨o', ho, ht.enter hd' hp hkeeps hcontent hsettled, List.prefix_rfl, List.prefix_rfl,
    h.parts hall, fun {q e} he hq n => ?_⟩
  rw [writesTo_write]
  have hne : ∀ c ∈ ({d} : Set Container), o c ≠ some .value := by
    rintro c rfl heq
    cases (h.owned hd).symm.trans heq
  by_cases hqp : p = q
  · subst hqp
    cases hd.symm.trans he
    obtain ⟨m, hspreads, -, -⟩ := hv.spreads
    have hx : t.unfold n v = x.cut n := by
      have hglance := hspreads.glance n
      simp only [Store.glance, Tree.cutAll, List.map_cons, List.map_nil, List.cons.injEq,
        Prod.mk.injEq, and_true, true_and] at hglance
      exact hglance
    have hlook : t.look n d = f.store.look n d :=
      h.look_eq hv.keeps (fun c hc => absurd hc (Set.notMem_empty c)) (h.owned hd) hp
        (Set.notMem_empty d) n
    rw [if_pos rfl]
    refine (ht.look_enter hd' hp nofun hkeeps hcontent hsettled n).trans ?_
    show Entries.insert (t.look n d) key (t.unfold n v) = _
    rw [hlook, hx]
    rfl
  · rw [if_neg hqp]
    refine h.look_eq hall hne (h.owned he) hq (fun hmem => hqp ?_) n
    obtain rfl : e = d := hmem
    cases (h.owned hd).symm.trans (h.owned he)
    rfl

theorem Tidy.follows_of_insert (h : f.Tidy o outs) {r : Ref .dict}
    (hd : f.container? p = some (.dict r)) (hp : IsTable (.place p))
    (hv : f.store.Fresh t [(key, v)] [(key, x)]) :
    ∃ o', Extends o o' ∧ Tidy { f with store := t.insert r key v } o' outs ∧
      f.Follows [.write p key x] { f with store := t.insert r key v } :=
  h.follows_of_enter hd hp hv (Store.keeps_insert t r key v)
    (Store.getD_setIfInBounds_self (hv.keeps.has _ (h.there (h.owned hd))))

/-! ## Acts -/

/-- The trees in the outputs of a family after an act, if it has had a number of contexts before. -/
def outputs (k : Nat) (outs : Nat → Entries Tree) : Act → Nat → Entries Tree
  | .fork _ _ => Function.update outs k []
  | .write (.output i) path x => Function.update outs i (Tree.writeAll (outs i) [(path, x)])
  | _ => outs

theorem outputs_of_lt {k : Nat} (hi : i < k) (outs : Nat → Entries Tree) (a : Act) :
    outputs k outs a i = Tree.writeAll (outs i) (writesTo (.output i) [a]) := by
  cases a with
  | fork j item => exact Function.update_of_ne (Nat.ne_of_lt hi) ..
  | copy k => rfl
  | write p key x =>
    rw [writesTo_write]
    cases p with
    | output j =>
      by_cases hj : j = i
      · subst hj
        rw [if_pos rfl]
        exact Function.update_self ..
      · rw [if_neg fun h => hj (Place.output.inj h)]
        exact Function.update_of_ne (Ne.symm hj) ..
    | _ => rfl

/-- The output of a fork is empty at first. -/
theorem outputs_fork (k : Nat) (outs : Nat → Entries Tree) (i : Nat) (item : Value) :
    outputs k outs (.fork i item) k = [] := Function.update_self ..

/-- A fork finds what its origin holds, and the link to it. -/
theorem Tidy.founds_fork (h : f.Tidy o outs) (hc : f.contexts[i]? = some c) (item : Value) :
    (∀ e ∈ f.store.get (f.store.get c).steps, Settled o e.2) ∧
      (∀ e ∈ f.store.get (f.store.get c).errors, Settled o e.2) ∧
      (∀ e ∈ Entries.insert (f.store.get (f.store.get c).metadata) parentKey (.context c),
        Settled o e.2) ∧
      f.store.Founds (f.store.get (f.store.get c).steps) [] (f.store.get (f.store.get c).errors)
        (Entries.insert (f.store.get (f.store.get c).metadata) parentKey (.context c))
        (f.store.fork c item).1 (f.store.fork c item).2 := by
  have htable : f.table? (.context i) = some (f.store.get c).steps :=
    Option.map_eq_some_iff.2 ⟨c, hc, rfl⟩
  refine ⟨h.values (h.owned (container?_steps htable)) trivial,
    h.values (h.owned (container?_errors hc)) trivial, fun e he => ?_, f.store.founds_newContext ..⟩
  rcases Entries.mem_insert he with he | rfl
  · exact h.values (h.owned (container?_metadata hc)) trivial e he
  · exact fun _ _ hcontainer => nomatch hcontainer

/-- A copy of step results may join. -/
theorem Tidy.join_copy (h : f.Tidy o outs) {k : Holder} {r : Ref .results}
    (hr : f.table? k = some r) : ∃ o', Extends o o' ∧
      Tidy ⟨(f.store.copyResults r).2, f.contexts, f.copies ++ [(f.store.copyResults r).1]⟩ o' outs := by
  have hkeeps : Keeps ∅ f.store (f.store.copyResults r).2 := f.store.keeps_newResults _
  have hnew : ¬ f.store.Has (.results (f.store.copyResults r).1) := Nat.lt_irrefl _
  have hthere : (f.store.copyResults r).2.Has (.results (f.store.copyResults r).1) :=
    (Nat.lt_succ_self _).trans_eq (Array.size_push _).symm
  have hcontent : (f.store.copyResults r).2.content (.results (f.store.copyResults r).1) =
      f.store.get r := Store.getD_push_size
  have hext : Extends o (o.give {.results (f.store.copyResults r).1}
      (.place (.steps (.copy f.copies.length)))) := by
    refine extends_give fun d hd w hw => ?_
    exact absurd (Multiset.mem_singleton.1 hd ▸ h.there hw) hnew
  refine ⟨_, hext, (h.grow hkeeps hext (fun d w hd => ?_) fun i _ => rfl).addCopy
    (give_mem (Multiset.mem_singleton_self _) _)⟩
  refine (give_cases hd).symm.imp And.right fun hd => ?_
  rw [Multiset.mem_singleton.1 hd.1, hcontent]
  exact ⟨hthere, fun _ e he =>
    (h.values (h.owned (container?_steps hr)) trivial e he).mono hext⟩

/-- **What an act does.** It keeps the family tidy, and leaves behind what it has written. -/
theorem Acts.follows (ha : f.Acts a f') (h : f.Tidy o outs) :
    ∃ o', Extends o o' ∧ f'.Tidy o' (outputs f.contexts.length outs a) ∧ f.Follows [a] f' := by
  have hempty : ∀ d ∈ (∅ : Set Container), ∀ w, o d = some w → ¬ IsTable w :=
    fun d hd => absurd hd (Set.notMem_empty d)
  cases ha with
  | fork item hc =>
    obtain ⟨hsteps, herrors, hmetadata, hnew⟩ := h.founds_fork hc item
    obtain ⟨o', ho, ht⟩ := h.join hnew hsteps herrors hmetadata .nil Multiset.nodup_zero
      fun d hd => absurd hd (Multiset.notMem_zero d)
    exact ⟨o', ho, ht, h.follows_of_keeps hnew.keeps hempty (List.prefix_append _ _) List.prefix_rfl
      fun _ _ => rfl⟩
  | @copy _ r hr =>
    obtain ⟨o', ho, ht⟩ := h.join_copy hr
    exact ⟨o', ho, ht, h.follows_of_keeps (f.store.keeps_newResults _) hempty List.prefix_rfl
      (List.prefix_append _ _) fun _ _ => rfl⟩
  | record hr hv =>
    have hthere := hv.keeps.has _ (h.there (h.owned (container?_steps hr)))
    exact h.follows_of_enter (container?_steps hr) trivial hv (Store.keeps_put_results ..)
      (Store.getD_setIfInBounds_self hthere)
  | @note i c _ _ _ t hc hv =>
    have herrors : (t.get c).errors = (f.store.get c).errors :=
      congrArg (fun p => p.2.2.2.1) (h.parts hv.keeps _ (List.mem_of_getElem? hc))
    rw [herrors]
    exact h.follows_of_insert (container?_errors hc) trivial hv
  | @mark i c _ _ _ t hc hkey hv =>
    have hmetadata : (t.get c).metadata = (f.store.get c).metadata :=
      congrArg (fun p => p.2.2.2.2) (h.parts hv.keeps _ (List.mem_of_getElem? hc))
    rw [hmetadata]
    exact h.follows_of_insert (container?_metadata hc) trivial hv
  | @setPath i c path v x t u hc hv hu =>
    obtain ⟨ts, o', hwrite, ho, hkeeps, ht⟩ := h.written hc hv hu
    have houts : outputs f.contexts.length outs (.write (.output i) path x) =
        Function.update outs i ts := by
      show Function.update outs i ((Tree.write (outs i) (Path.segments path) x).getD (outs i)) = _
      rw [hwrite]
      rfl
    rw [houts]
    refine ⟨o', ho, ht, h.follows_of_keeps hkeeps (fun d hd w hw => ?_) List.prefix_rfl
      List.prefix_rfl fun p hp => ?_⟩
    · cases (show o d = _ from hd).symm.trans hw
      exact id
    · rw [writesTo_write, if_neg]
      rintro rfl
      exact hp
  | @refused i c path v x t e hc hv he =>
    have houts : outputs f.contexts.length outs (.write (.output i) path x) = outs := by
      show Function.update outs i ((Tree.write (outs i) (Path.segments path) x).getD (outs i)) = _
      rw [h.write_eq_none hc hv he]
      exact Function.update_eq_self i outs
    rw [houts]
    refine ⟨o, .refl o, h.grow hv.keeps (.refl o) (fun c w hc => Or.inl hc) fun i _ => rfl,
      h.follows_of_keeps hv.keeps hempty List.prefix_rfl List.prefix_rfl fun p hp => ?_⟩
    rw [writesTo_write, if_neg]
    rintro rfl
    exact hp

/-- What a run records in a context is written to its step results. -/
theorem Tidy.acts_record {step : String} (h : f.Tidy o outs) (hc : f.contexts[i]? = some c)
    (hv : f.store.Fresh t [(step, v)] [(step, x)]) :
    f.Acts (.write (.steps (.context i)) step x) { f with store := t.record c step v } := by
  have hsteps : (t.get c).steps = (f.store.get c).steps :=
    congrArg (fun p => p.2.1) (h.parts hv.keeps c (List.mem_of_getElem? hc))
  exact .record (Option.map_eq_some_iff.2 ⟨c, hc, hsteps.symm⟩) hv

/-- A failure that a run notes is written to the errors. -/
theorem acts_noteError {name : String} {e : Failure} (hc : f.contexts[i]? = some c) :
    f.Acts (.write (.errors i) name (.leaf (.failure e)))
      { f with store := f.store.noteError c name e } :=
  .note hc (.leaf (.refl ∅ _) rfl name)

/-! ## Histories -/

theorem Becomes.append (h : f.Becomes as f') (h' : f'.Becomes bs f'') : f.Becomes (as ++ bs) f'' := by
  induction h with
  | refl f => exact h'
  | act ha h ih => exact .act ha (ih h')

/-- **What a history does.** It keeps the family tidy, and leaves behind what has been written. -/
theorem Becomes.follows (hb : f.Becomes as f') (h : f.Tidy o outs) :
    ∃ o' outs', f'.Tidy o' outs' ∧ f.Follows as f' ∧ ∀ i < f.contexts.length,
      outs' i = Tree.writeAll (outs i) (writesTo (.output i) as) := by
  induction hb generalizing o outs with
  | refl f => exact ⟨o, outs, h, .refl f, fun i hi => rfl⟩
  | @act f f' f'' a as ha hb ih =>
    obtain ⟨o₁, -, h₁, hfollows⟩ := ha.follows h
    obtain ⟨o₂, outs₂, h₂, hfollows', houts⟩ := ih h₁
    refine ⟨o₂, outs₂, h₂, hfollows.trans hfollows', fun i hi => ?_⟩
    rw [houts i (hi.trans_le hfollows.contexts.length_le), outputs_of_lt hi, ← Tree.writeAll_append,
      ← writesTo_append]
    rfl

/-- A history passes an act: it leads to it, and goes on after it. -/
structure Passes (f : Family) (as : List Act) (f' f₁ : Family) (a : Act) (f₂ : Family)
    (bs : List Act) : Prop where
  before : ∃ cs, as = cs ++ a :: bs ∧ f.Becomes cs f₁
  act : f₁.Acts a f₂
  after : f₂.Becomes bs f'

/-- If each act makes at most one more of something, there is the act that has made the next one. -/
theorem Becomes.passes {k : Nat} (m : Family → Nat)
    (hm : ∀ {f a f'}, f.Acts a f' → m f' ≤ m f + 1) (hb : f.Becomes as f') (hk : m f ≤ k)
    (hk' : k < m f') : ∃ f₁ a f₂ bs, Passes f as f' f₁ a f₂ bs ∧ m f₁ = k ∧ m f₂ = k + 1 := by
  induction hb with
  | refl f => omega
  | @act f f' f'' a as ha hb ih =>
    by_cases hnext : m f' ≤ k
    · obtain ⟨f₁, b, f₂, bs, ⟨⟨cs, rfl, hcs⟩, hact, hafter⟩, hcounts⟩ := ih hnext hk'
      exact ⟨f₁, b, f₂, bs, ⟨⟨a :: cs, rfl, .act ha hcs⟩, hact, hafter⟩, hcounts⟩
    · have hle := hm ha
      exact ⟨f, a, f', as, ⟨⟨[], rfl, .refl f⟩, ha, hb⟩, by omega, by omega⟩

theorem Tidy.look?_output (h : f.Tidy o outs) (hi : i < f.contexts.length) (n : Nat) :
    f.look? n (.output i) = some (Tree.cutAll n (outs i)) := by
  have hc := List.getElem?_eq_getElem hi
  obtain ⟨m, hb, -⟩ := h.outputs hc
  rw [look?, container?_output hc]
  exact congrArg some (hb.spreads.glance n)

/-- A context that has joined holds what it began with. -/
theorem Tidy.look?_join {rs os es ms : Entries Value} (h : f.Tidy o outs)
    (hnew : f.store.Founds rs os es ms c t) (hrs : ∀ e ∈ rs, Settled o e.2)
    (hes : ∀ e ∈ es, Settled o e.2) (hms : ∀ e ∈ ms, Settled o e.2) (n : Nat) :
    let f' : Family := ⟨t, f.contexts ++ [c], f.copies⟩
    f'.look? n (.steps (.context f.contexts.length)) = some (f.store.glance n rs) ∧
      f'.look? n (.errors f.contexts.length) = some (f.store.glance n es) ∧
      f'.look? n (.metadata f.contexts.length) = some (f.store.glance n ms) := by
  intro f'
  have hc : f'.contexts[f.contexts.length]? = some c := by simp [f']
  have hX : ∀ d ∈ (∅ : Set Container), o d ≠ some .value := fun d hd => absurd hd (Set.notMem_empty d)
  have htable : f'.table? (.context f.contexts.length) = some (t.get c).steps :=
    Option.map_eq_some_iff.2 ⟨c, hc, rfl⟩
  rw [look?, look?, look?, container?_steps htable, container?_errors hc, container?_metadata hc,
    ← h.glance_eq hnew.keeps hX hrs, ← h.glance_eq hnew.keeps hX hes, ← h.glance_eq hnew.keeps hX hms]
  refine ⟨congrArg some ?_, congrArg some ?_, congrArg some ?_⟩
  · exact congrArg (t.glance n) hnew.steps
  · exact congrArg (t.glance n) hnew.errors
  · exact congrArg (t.glance n) hnew.metadata

end Family

end Conductor
