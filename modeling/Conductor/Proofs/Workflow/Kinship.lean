import Conductor.Proofs.Workflow.Legacy

/-!
# Kinship of contexts

A root is forked, its forks are forked again, step results are copied, and all the while values are written
to the root, to the forks and to the copies, in whatever order.

**Theorem (`forks_independent`).** The root holds what it began with and its own writes. A fork holds what
its origin held at the moment of the fork, a link to the origin, and its own writes; its output holds its
own writes only. A copy holds the step results of that moment, and its own writes. Keys stay in the order
in which they came in. And from a fork one reaches its ancestors one by one, by the links, and the root
after as many steps as there have been forks on the way.

What is held is compared as it looks, to any depth (`Family.sheet?`): so two contexts may well share
values, as long as nobody can tell.

The links need an invariant of their own (`Linked`): each fork knows the context that it has been forked
from, and that has been there before it. No write takes this away, since none goes under the key of the link
(`Acts.ne_parentKey`).
-/

namespace Conductor

open Store (parentKey Keeps Fresh)

/-! ## The order of keys -/

namespace Entries

variable {α : Type}

theorem keys_prefix_insert (es : Entries α) (key : String) (a : α) :
    keys es <+: keys (insert es key a) := by
  rw [keys_insert]
  split
  · exact List.prefix_rfl
  · exact List.prefix_append _ _

theorem keys_prefix_insertAll : ∀ (more : List (String × α)) (es : Entries α),
    keys es <+: keys (insertAll es more)
  | [], _ => List.prefix_rfl
  | (key, a) :: more, es => (keys_prefix_insert es key a).trans (keys_prefix_insertAll more _)

end Entries

namespace Tree

theorem keys_cutAll (n : Nat) (ts : Entries Tree) : Entries.keys (cutAll n ts) = Entries.keys ts := by
  simp [Entries.keys, cutAll]

theorem keys_prefix_write {ts us : Entries Tree} {keys : List String} {x : Tree}
    (h : write ts keys x = some us) : Entries.keys ts <+: Entries.keys us := by
  cases keys with
  | nil =>
    cases h
    exact List.prefix_rfl
  | cons key keys =>
    by_cases hkeys : keys = []
    · subst hkeys
      cases h
      exact Entries.keys_prefix_insert ts key x
    · rw [write_cons hkeys] at h
      obtain ⟨sub, -, h⟩ := Option.bind_eq_some_iff.1 h
      obtain ⟨sub', -, rfl⟩ := Option.map_eq_some_iff.1 h
      exact Entries.keys_prefix_insert ..

theorem keys_prefix_writeAll : ∀ (ws : List (String × Tree)) (ts : Entries Tree),
    Entries.keys ts <+: Entries.keys (writeAll ts ws)
  | [], _ => List.prefix_rfl
  | (path, x) :: ws, ts => by
    refine List.IsPrefix.trans ?_ (keys_prefix_writeAll ws _)
    show Entries.keys ts <+: Entries.keys ((write ts (Path.segments path) x).getD ts)
    cases h : write ts (Path.segments path) x with
    | none => exact List.prefix_rfl
    | some us => exact keys_prefix_write h

end Tree

/-! ## What contexts hold -/

/-- What a context holds. -/
structure Sheet where
  steps : Entries Tree
  errors : Entries Tree
  metadata : Entries Tree
  output : Entries Tree

/-- What the `i`th context holds, down to a depth, if it began with given entries and acts have happened,
and it holds nothing but what it began with and what these acts have written to it. -/
def Sheet.grown (n i : Nat) (steps errors metadata output : Entries Tree) (as : List Act) : Sheet where
  steps := Entries.insertAll steps (Tree.cutAll n (writesTo (.steps (.context i)) as))
  errors := Entries.insertAll errors (Tree.cutAll n (writesTo (.errors i) as))
  metadata := Entries.insertAll metadata (Tree.cutAll n (writesTo (.metadata i) as))
  output := Tree.cutAll n (Tree.writeAll output (writesTo (.output i) as))

namespace Store

/-- A root may begin with any values that are there, and with an output of trees that the values in its
other tables have no part in. -/
structure Rooted (s : Store) (rs os es ms : Entries Value) (ts : Entries Tree) : Prop where
  there : ∀ e ∈ rs ++ es ++ ms, s.Grounds e.2
  output : ∃ m, s.Spreads os ts m ∧ m.Nodup ∧ ∀ e ∈ rs ++ es ++ ms, ∀ c ∈ m, ¬ s.Reaches e.2 c

theorem Reaches.next {s : Store} {v : Value} {c d : Container} (h : s.Reaches v c)
    {e : String × Value} (he : e ∈ s.content c) {shape : Shape}
    (hd : e.2.container? = some (shape, d)) : s.Reaches v d := by
  induction h with
  | here hc => exact .through hc he (.here hd)
  | through hc he' _ ih => exact .through hc he' (ih he)

theorem unfold_eq_context_iff {s : Store} {v : Value} {p : Ref .context} :
    s.unfold 1 v = .leaf (.context p) ↔ v = .context p := by
  cases hc : v.container? with
  | none => rw [unfold_leaf hc, Tree.leaf.injEq]
  | some q =>
    by_cases hhas : s.Has q.2
    · rw [unfold_node hc hhas]
      exact ⟨nofun, fun h => by cases h; cases hc⟩
    · rw [unfold_lost hc hhas, Tree.leaf.injEq]

/-- The origin of a context is read off from what its metadata look like. -/
theorem parent?_eq_some_iff {s : Store} {c p : Ref .context} : s.parent? c = some p ↔
    Entries.get? (s.look 1 (.dict (s.get c).metadata)) parentKey = some (.leaf (.context p)) := by
  have hlook : Entries.get? (s.look 1 (.dict (s.get c).metadata)) parentKey =
      (Entries.get? (s.get (s.get c).metadata) parentKey).map (s.unfold 1) :=
    Entries.get?_map (s.unfold 1) ..
  rw [hlook, Option.map_eq_some_iff, parent?]
  constructor
  · intro h
    split at h
    · next hv =>
      cases h
      exact ⟨_, hv, rfl⟩
    · cases h
  · rintro ⟨v, hv, h⟩
    rw [hv, unfold_eq_context_iff.1 h]

/-- The context that is reached by going up a number of times. -/
def climb (s : Store) : Nat → Ref .context → Option (Ref .context)
  | 0, c => some c
  | d + 1, c => (s.parent? c).bind (s.climb d)

end Store

namespace Family

/-- What the `i`th context holds, down to a depth. -/
def sheet? (f : Family) (n i : Nat) : Option Sheet := do
  return ⟨← f.look? n (.steps (.context i)), ← f.look? n (.errors i), ← f.look? n (.metadata i),
    ← f.look? n (.output i)⟩

variable {f f' f'' : Family} {o o' : Ownership} {outs outs' : Nat → Entries Tree} {s t u : Store}
  {rs os es ms : Entries Value} {ts : Entries Tree} {n i k : Nat} {c p : Ref .context} {x : Tree}
  {a : Act} {as bs : List Act} {input item : Value} {step : Option String} {time : Int}

theorem sheet?_eq {rs es ms ts : Entries Tree} (hrs : f.look? n (.steps (.context i)) = some rs)
    (hes : f.look? n (.errors i) = some es) (hms : f.look? n (.metadata i) = some ms)
    (hts : f.look? n (.output i) = some ts) : f.sheet? n i = some ⟨rs, es, ms, ts⟩ := by
  rw [sheet?, hrs, hes, hms, hts]
  rfl

/-- After a history a context holds what it held, and what has been written to it. -/
theorem Becomes.sheet? {rs es ms : Entries Tree} (hb : f.Becomes as f') (h : f.Tidy o outs)
    (hi : i < f.contexts.length) (hrs : f.look? n (.steps (.context i)) = some rs)
    (hes : f.look? n (.errors i) = some es) (hms : f.look? n (.metadata i) = some ms) :
    f'.sheet? n i = some (.grown n i rs es ms (outs i) as) := by
  obtain ⟨o', outs', h', hfollows, houts⟩ := hb.follows h
  refine sheet?_eq (hfollows.look? (p := .steps (.context i)) trivial hrs)
    (hfollows.look? (p := .errors i) trivial hes) (hfollows.look? (p := .metadata i) trivial hms) ?_
  rw [h'.look?_output (hi.trans_le hfollows.contexts.length_le), houts i hi]

/-! ## The root -/

/-- A new root begins with what it is given. -/
theorem tidy_ofRoot (h : s.Rooted rs os es ms ts) (input : Value) (step : Option String)
    (time : Int) : ∃ o outs,
    (ofRoot s input rs os es ms step time).Tidy o outs ∧ outs 0 = ts ∧ ∀ n,
      (ofRoot s input rs os es ms step time).look? n (.steps (.context 0)) = some (s.glance n rs) ∧
      (ofRoot s input rs os es ms step time).look? n (.errors 0) = some (s.glance n es) ∧
      (ofRoot s input rs os es ms step time).look? n (.metadata 0) = some (s.glance n ms) := by
  classical
  obtain ⟨hthere, m, hspreads, hnd, hapart⟩ := h
  -- What the other tables reach belongs to values, and what shows the output belongs to the output.
  set o : Ownership := fun c => if c ∈ m then some (.place (.output 0)) else
    if ∃ e ∈ rs ++ es ++ ms, s.Reaches e.2 c then some .value else none with ho
  have hvalue : ∀ {e c}, e ∈ rs ++ es ++ ms → s.Reaches e.2 c → o c = some .value := by
    intro e c he hc
    rw [ho]
    exact (if_neg fun hmem => hapart e he c hmem hc).trans (if_pos ⟨e, he, hc⟩)
  have hcases : ∀ {c w}, o c = some w → (c ∈ m ∧ w = .place (.output 0)) ∨
      (w = .value ∧ ∃ e ∈ rs ++ es ++ ms, s.Reaches e.2 c) := by
    intro c w hc
    simp only [ho] at hc
    split at hc
    · next hmem => exact Or.inl ⟨hmem, (Option.some.inj hc).symm⟩
    · split at hc
      · next hreach => exact Or.inr ⟨(Option.some.inj hc).symm, hreach⟩
      · cases hc
  have hbase : Tidy ⟨s, [], []⟩ o fun _ => [] := by
    constructor
    case there =>
      intro c w hc
      rcases hcases hc with ⟨hmem, -⟩ | ⟨-, e, he, hreach⟩
      · exact hspreads.has c hmem
      · exact hthere e he c hreach
    case contexts => exact fun hc => nomatch hc
    case owned =>
      intro p c hp
      cases p with
      | steps k => cases k <;> cases hp
      | _ => cases hp
    case values =>
      intro c w hc hw e he shape d hd
      rcases hcases hc with ⟨-, rfl⟩ | ⟨-, e', he', hreach⟩
      · exact hw.elim
      · exact hvalue he' (hreach.next he hd)
    case outputs => exact fun hc => nomatch hc
  have hsettled : ∀ e ∈ rs ++ es ++ ms, Settled o e.2 := fun e he shape c hc => hvalue he (.here hc)
  simp only [List.forall_mem_append] at hsettled
  obtain ⟨⟨hrs, hes⟩, hms⟩ := hsettled
  have hnew := s.founds_newContext input rs os es ms step time
  obtain ⟨o', -, ht⟩ := hbase.join hnew hrs hes hms hspreads hnd fun d hd => if_pos hd
  exact ⟨o', _, ht, Function.update_self .., fun n => hbase.look?_join hnew hrs hes hms n⟩

/-! ## Forks and copies -/

/-- A fork holds what its origin held, a link to it, and what has been written to the fork. -/
theorem Tidy.sheet?_fork (h : f.Tidy o outs) (ha : f.Acts (.fork i item) f')
    (hb : f'.Becomes bs f'') : ∃ c, f.contexts[i]? = some c ∧ ∀ n, ∃ x, f.sheet? n i = some x ∧
      f''.sheet? n f.contexts.length = some (.grown n f.contexts.length x.steps x.errors
        (Entries.insert x.metadata parentKey ((Tree.leaf (.context c)).cut n)) [] bs) := by
  obtain ⟨o', -, h', -⟩ := ha.follows h
  cases ha with
  | @fork _ c _ hc =>
    refine ⟨c, hc, fun n => ?_⟩
    obtain ⟨hrs, hes, hms, hnew⟩ := h.founds_fork hc item
    obtain ⟨hsteps, herrors, hmetadata⟩ := h.look?_join hnew hrs hes hms n
    obtain ⟨hi, -⟩ := List.getElem?_eq_some_iff.1 hc
    have htable := container?_steps (k := .context i) (Option.map_eq_some_iff.2 ⟨c, hc, rfl⟩)
    have hlink : f.store.glance n (Entries.insert (f.store.get (f.store.get c).metadata) parentKey
        (.context c)) = Entries.insert (f.store.look n (.dict (f.store.get c).metadata)) parentKey
          ((Tree.leaf (.context c)).cut n) := by
      have hleaf : f.store.unfold n (.context c) = (Tree.leaf (.context c)).cut n := by cases n <;> rfl
      rw [← hleaf]
      exact Entries.map_insert ..
    have hlast := hb.sheet? h' (i := f.contexts.length) (by simp) hsteps herrors
      (hmetadata.trans (congrArg some hlink))
    rw [outputs_fork] at hlast
    exact ⟨⟨_, _, _, _⟩, sheet?_eq (Option.map_eq_some_iff.2 ⟨_, htable, rfl⟩)
      (Option.map_eq_some_iff.2 ⟨_, container?_errors hc, rfl⟩)
      (Option.map_eq_some_iff.2 ⟨_, container?_metadata hc, rfl⟩) (h.look?_output hi n), hlast⟩

/-- A copy of step results holds what they held, and what has been written to the copy. -/
theorem Tidy.look?_copy {k : Holder} (h : f.Tidy o outs) (ha : f.Acts (.copy k) f')
    (hb : f'.Becomes bs f'') (n : Nat) : ∃ es, f.look? n (.steps k) = some es ∧
      f''.look? n (.steps (.copy f.copies.length)) =
        some (Entries.insertAll es (Tree.cutAll n (writesTo (.steps (.copy f.copies.length)) bs))) := by
  obtain ⟨o', -, h', -⟩ := ha.follows h
  obtain ⟨-, -, -, hlater, -⟩ := hb.follows h'
  cases ha with
  | @copy _ r hr =>
    have hlook : f.look? n (.steps k) = some (f.store.glance n (f.store.get r)) :=
      Option.map_eq_some_iff.2 ⟨_, container?_steps hr, rfl⟩
    refine ⟨_, hlook, hlater.look? (p := .steps _) trivial ?_⟩
    have hcopy : (f.store.copyResults r).2.get (f.store.copyResults r).1 = f.store.get r :=
      Store.getD_push_size
    have hsettled : ∀ e ∈ f.store.get r, Settled o e.2 :=
      h.values (h.owned (container?_steps hr)) trivial
    rw [← h.glance_eq (f.store.keeps_newResults _) (fun d hd => absurd hd (Set.notMem_empty d)) hsettled]
    refine Option.map_eq_some_iff.2 ⟨.results (f.store.copyResults r).1, container?_steps ?_, ?_⟩
    · exact List.getElem?_concat_length ..
    · exact congrArg ((f.store.copyResults r).2.glance n) hcopy

/-! ## Keys -/

/-- Whatever acts happen, a key that is present stays where it is, and new keys come behind. -/
theorem Tidy.keys_stay {p : Place} {es : Entries Tree} (h : f.Tidy o outs) (hb : f.Becomes as f')
    (hes : f.look? n p = some es) :
    ∃ es', f'.look? n p = some es' ∧ Entries.keys es <+: Entries.keys es' := by
  obtain ⟨o', outs', h', hfollows, houts⟩ := hb.follows h
  by_cases hp : IsTable (.place p)
  · exact ⟨_, hfollows.look? hp hes, Entries.keys_prefix_insertAll ..⟩
  · cases p with
    | output i =>
      obtain ⟨d, hd, -⟩ := Option.map_eq_some_iff.1 hes
      obtain ⟨c, hc, -⟩ := Option.map_eq_some_iff.1 hd
      obtain ⟨hi, -⟩ := List.getElem?_eq_some_iff.1 hc
      cases (h.look?_output hi n).symm.trans hes
      refine ⟨_, h'.look?_output (hi.trans_le hfollows.contexts.length_le) n, ?_⟩
      rw [Tree.keys_cutAll, Tree.keys_cutAll, houts i hi]
      exact Tree.keys_prefix_writeAll ..
    | _ => exact absurd trivial hp

/-! ## Ancestors -/

/-- The contexts that others were forked from, in the order of the forks. -/
def origins (as : List Act) : List Nat :=
  as.filterMap fun
    | .fork i _ => some i
    | _ => none

theorem origins_append (as bs : List Act) : origins (as ++ bs) = origins as ++ origins bs :=
  List.filterMap_append

/-- The ancestors of a context, from the one that it was forked from up to the root. -/
inductive Line (os : List Nat) : Nat → List Nat → Prop
  | root : Line os 0 []
  | fork {k i : Nat} {is : List Nat} (hi : os[k]? = some i) (h : Line os i is) :
    Line os (k + 1) (i :: is)

/-- Each context but the root has been forked from an earlier one, and knows it. -/
structure Linked (f : Family) (os : List Nat) : Prop where
  count : f.contexts.length = os.length + 1
  before : ∀ {k i : Nat}, os[k]? = some i → i ≤ k
  linked : ∀ {k i : Nat} {c p : Ref .context}, os[k]? = some i → f.contexts[k + 1]? = some c →
    f.contexts[i]? = some p → f.store.parent? c = some p

/-- The link to the origin of a context is never written over. -/
theorem Acts.ne_parentKey (ha : f.Acts a f') :
    ∀ w ∈ writesTo (.metadata i) [a], w.1 ≠ parentKey := by
  cases ha with
  | @mark j _ key _ x _ hc hkey =>
    intro w hw
    rw [writesTo_write] at hw
    split at hw
    · rw [List.mem_singleton.1 hw]
      exact hkey
    · exact absurd hw List.not_mem_nil
  | _ => exact fun w hw => absurd hw List.not_mem_nil

/-- So it stays what it is. -/
theorem Acts.parent?_eq (ha : f.Acts a f') (h : f.Tidy o outs) (hc : f.contexts[i]? = some c)
    (hp : f.store.parent? c = some p) : f'.store.parent? c = some p := by
  obtain ⟨-, -, -, hfollows⟩ := ha.follows h
  have hmetadata : (f'.store.get c).metadata = (f.store.get c).metadata :=
    congrArg (fun p => p.2.2.2.2) (hfollows.parts c (List.mem_of_getElem? hc))
  have hnone : (Tree.cutAll 1 (writesTo (.metadata i) [a])).reverse.lookup parentKey = none := by
    rw [List.lookup_eq_none_iff]
    intro w hw
    obtain ⟨w', hw', rfl⟩ := List.mem_map.1 (List.mem_reverse.1 hw)
    exact bne_iff_ne.2 (ha.ne_parentKey w' hw').symm
  rw [Store.parent?_eq_some_iff, hmetadata, hfollows.looks (container?_metadata hc) trivial,
    Entries.get?_insertAll, hnone]
  exact Store.parent?_eq_some_iff.1 hp

theorem Acts.contexts_eq (ha : f.Acts a f') (hnone : origins [a] = []) : f'.contexts = f.contexts := by
  cases ha with
  | fork => cases hnone
  | _ => rfl

theorem Linked.act {os : List Nat} (hl : f.Linked os) (ha : f.Acts a f') (h : f.Tidy o outs) :
    f'.Linked (os ++ origins [a]) := by
  by_cases hnone : origins [a] = []
  · rw [hnone, List.append_nil]
    refine ⟨ha.contexts_eq hnone ▸ hl.count, hl.before, fun hk hc hp => ?_⟩
    rw [ha.contexts_eq hnone] at hc hp
    exact ha.parent?_eq h hc (hl.linked hk hc hp)
  · have hkeep : ∀ {k : Nat} {c p : Ref .context}, f.contexts[k]? = some c →
        f.store.parent? c = some p → f'.store.parent? c = some p := fun hc hp => ha.parent?_eq h hc hp
    cases ha with
    | @fork i c item hc =>
      obtain ⟨-, -, -, hnew⟩ := h.founds_fork hc item
      obtain ⟨hi, -⟩ := List.getElem?_eq_some_iff.1 hc
      have hcount := hl.count
      have hold : ∀ {k : Nat} {d : Ref .context}, k < f.contexts.length →
          (f.contexts ++ [(f.store.fork c item).1])[k]? = some d → f.contexts[k]? = some d :=
        fun hk hd => (List.getElem?_append_left hk).symm.trans hd
      refine ⟨?_, fun {k j} hk => ?_, fun {k j d p} hk hd hp => ?_⟩
      · rw [List.length_append, List.length_append, hcount]
        rfl
      · rcases getElem?_concat_cases hk with hk | ⟨rfl, rfl⟩
        · exact hl.before hk
        · omega
      · rcases getElem?_concat_cases hk with hk | ⟨rfl, rfl⟩
        · obtain ⟨hlt, -⟩ := List.getElem?_eq_some_iff.1 hk
          have hd' := hold (by omega) hd
          have hj := hl.before hk
          exact hkeep hd' (hl.linked hk hd' (hold (by omega) hp))
        · cases hc.symm.trans (hold hi hp)
          rcases getElem?_concat_cases hd with hd | ⟨-, rfl⟩
          · obtain ⟨hlt, -⟩ := List.getElem?_eq_some_iff.1 hd
            omega
          · rw [Store.parent?, hnew.metadata, Entries.get?_insert_self]
    | _ => exact absurd rfl hnone

/-- A root has not been forked from anything. -/
theorem linked_ofRoot (s : Store) (input : Value) (rs os es ms : Entries Value) (step : Option String)
    (time : Int) : (ofRoot s input rs os es ms step time).Linked [] :=
  ⟨rfl, nofun, nofun⟩

theorem Linked.becomes {os : List Nat} (hl : f.Linked os) (hb : f.Becomes as f') (h : f.Tidy o outs) :
    f'.Linked (os ++ origins as) := by
  induction hb generalizing os o outs with
  | refl f => exact (List.append_nil os).symm ▸ hl
  | @act f f' f'' a as ha hb ih =>
    obtain ⟨o', -, h', -⟩ := ha.follows h
    have hnext := ih (hl.act ha h) h'
    rwa [List.append_assoc, ← origins_append] at hnext

/-- Every context has a line of ancestors. -/
theorem Linked.line {os : List Nat} (hl : f.Linked os) (hk : k < f.contexts.length) :
    ∃ is, Line os k is := by
  induction k using Nat.strong_induction_on with
  | h k ih =>
    cases k with
    | zero => exact ⟨[], .root⟩
    | succ k =>
      have hlt : k < os.length := by
        have hcount := hl.count
        omega
      have hi := List.getElem?_eq_getElem hlt
      have hle := hl.before hi
      obtain ⟨is, his⟩ := ih _ (Nat.lt_succ_of_le hle) (by omega)
      exact ⟨_, .fork hi his⟩

/-- One goes up along the line of ancestors, from each of them to the next. -/
theorem Linked.climb {os is : List Nat} (hl : f.Linked os) (hline : Line os k is)
    (hc : f.contexts[k]? = some c) {d : Nat} (hd : d ≤ is.length) : ∃ j p, (k :: is)[d]? = some j ∧
      f.contexts[j]? = some p ∧ f.store.climb d c = some p ∧ (j = 0 ↔ d = is.length) := by
  induction hline generalizing c d with
  | root =>
    obtain rfl : d = 0 := Nat.le_zero.1 hd
    exact ⟨0, c, rfl, hc, rfl, iff_of_true rfl rfl⟩
  | @fork k i is hi hline ih =>
    cases d with
    | zero => exact ⟨k + 1, c, rfl, hc, rfl, iff_of_false (Nat.succ_ne_zero k) nofun⟩
    | succ d =>
      obtain ⟨hk, -⟩ := List.getElem?_eq_some_iff.1 hc
      have hle := hl.before hi
      have hp := List.getElem?_eq_getElem (show i < f.contexts.length by omega)
      obtain ⟨j, q, hj, hq, hclimb, hroot⟩ := ih hp (Nat.le_of_succ_le_succ hd)
      refine ⟨j, q, hj, hq, ?_, hroot.trans Nat.succ_inj.symm⟩
      rw [Store.climb, hl.linked hi hc hp]
      exact hclimb

/-- No context is met twice in a family. -/
theorem Tidy.contexts_inj {j : Nat} (h : f.Tidy o outs) (hi : f.contexts[i]? = some c)
    (hj : f.contexts[j]? = some c) : i = j := by
  cases (h.owned (container?_errors hi)).symm.trans (h.owned (container?_errors hj))
  rfl

/-! ## Independence -/

theorem Acts.copies_eq (ha : f.Acts a f') (hnone : ∀ k, a ≠ .copy k) : f'.copies = f.copies := by
  cases ha with
  | copy => exact absurd rfl (hnone _)
  | _ => rfl

theorem Acts.length_contexts (ha : f.Acts a f') : f'.contexts.length ≤ f.contexts.length + 1 := by
  cases ha with
  | fork => exact (List.length_append ..).le
  | _ => exact Nat.le_succ _

theorem Acts.length_copies (ha : f.Acts a f') : f'.copies.length ≤ f.copies.length + 1 := by
  cases ha with
  | copy => exact (List.length_append ..).le
  | _ => exact Nat.le_succ _

/-- **Forks and copies are independent**, whatever is forked, copied and written in a family, and in
whatever order. -/
theorem forks_independent (h : s.Rooted rs os es ms ts)
    (hb : (ofRoot s input rs os es ms step time).Becomes as f) :
    -- The root holds what it began with, and its own writes.
    (∀ n, f.sheet? n 0 =
      some (.grown n 0 (s.glance n rs) (s.glance n es) (s.glance n ms) ts as)) ∧
    -- Any other context holds what its origin held when it was forked, and its own writes since then.
    (∀ k, k + 1 < f.contexts.length → ∃ f₁ i item f₂ bs c,
      Passes (ofRoot s input rs os es ms step time) as f f₁ (.fork i item) f₂ bs ∧
      f₁.contexts.length = k + 1 ∧ (origins as)[k]? = some i ∧ f₁.contexts[i]? = some c ∧
      ∀ n, ∃ x, f₁.sheet? n i = some x ∧
        f.sheet? n (k + 1) = some (.grown n (k + 1) x.steps x.errors
          (Entries.insert x.metadata parentKey ((Tree.leaf (.context c)).cut n)) [] bs)) ∧
    -- A copy holds the step results that it was made of, and its own writes since then.
    (∀ j < f.copies.length, ∃ f₁ k f₂ bs,
      Passes (ofRoot s input rs os es ms step time) as f f₁ (.copy k) f₂ bs ∧
      f₁.copies.length = j ∧ ∀ n, ∃ es, f₁.look? n (.steps k) = some es ∧
        f.look? n (.steps (.copy j)) =
          some (Entries.insertAll es (Tree.cutAll n (writesTo (.steps (.copy j)) bs)))) ∧
    -- Keys stay in the order in which they came in.
    (∀ bs f', f.Becomes bs f' → ∀ n p es, f.look? n p = some es →
      ∃ es', f'.look? n p = some es' ∧ Entries.keys es <+: Entries.keys es') ∧
    -- From a context one goes up through its ancestors, and to the root in as many steps as there are.
    ∀ k c, f.contexts[k]? = some c → ∃ is, Line (origins as) k is ∧ ∀ d ≤ is.length, ∃ j p,
      (k :: is)[d]? = some j ∧ f.contexts[j]? = some p ∧ f.store.climb d c = some p ∧
        (f.contexts[0]? = some p ↔ d = is.length) := by
  obtain ⟨o, outs, htidy, houts, hlooks⟩ := tidy_ofRoot h input step time
  obtain ⟨o', outs', htidy', -⟩ := hb.follows htidy
  refine ⟨fun n => ?_, fun k hk => ?_, fun j hj => ?_, fun bs f' hb' n p es hes => ?_,
    fun k c hc => ?_⟩
  · obtain ⟨hrs, hes, hms⟩ := hlooks n
    exact houts ▸ hb.sheet? htidy Nat.zero_lt_one hrs hes hms
  · obtain ⟨f₁, a, f₂, bs, hpasses, hcount, hcount'⟩ :=
      hb.passes (fun f => f.contexts.length) Acts.length_contexts (Nat.le_add_left 1 k) hk
    obtain ⟨⟨cs, has, hcs⟩, hact, hafter⟩ := id hpasses
    obtain ⟨o₁, outs₁, htidy₁, -⟩ := hcs.follows htidy
    cases a with
    | fork i item =>
      obtain ⟨c, hc, hsheets⟩ := htidy₁.sheet?_fork hact hafter
      have horigins : (origins cs).length = k :=
        Nat.succ.inj (((linked_ofRoot ..).becomes hcs htidy).count.symm.trans hcount)
      have hi : (origins as)[k]? = some i := by
        rw [has, origins_append, ← horigins, List.getElem?_append_right le_rfl, Nat.sub_self]
        rfl
      exact ⟨f₁, i, item, f₂, bs, c, hpasses, hcount, hi, hc, hcount ▸ hsheets⟩
    | _ =>
      rw [hact.contexts_eq rfl] at hcount'
      omega
  · obtain ⟨f₁, a, f₂, bs, hpasses, hcount, hcount'⟩ :=
      hb.passes (fun f => f.copies.length) Acts.length_copies (Nat.zero_le j) hj
    obtain ⟨⟨cs, -, hcs⟩, hact, hafter⟩ := id hpasses
    obtain ⟨o₁, outs₁, htidy₁, -⟩ := hcs.follows htidy
    cases a with
    | copy k => exact ⟨f₁, k, f₂, bs, hpasses, hcount, fun n => hcount ▸ htidy₁.look?_copy hact hafter n⟩
    | _ =>
      rw [hact.copies_eq nofun] at hcount'
      omega
  · exact htidy'.keys_stay hb' hes
  · have hlinked : f.Linked ([] ++ origins as) := (linked_ofRoot ..).becomes hb htidy
    obtain ⟨is, hline⟩ := hlinked.line (List.getElem?_eq_some_iff.1 hc).1
    refine ⟨is, hline, fun d hd => ?_⟩
    obtain ⟨j, p, hj, hp, hclimb, hroot⟩ := hlinked.climb hline hc hd
    refine ⟨j, p, hj, hp, hclimb, ?_, fun hd' => ?_⟩
    · exact fun hp' => hroot.1 (htidy'.contexts_inj hp hp')
    · obtain rfl := hroot.2 hd'
      exact hp

/-- A root is forked, its fork is forked again, and both the root and the fork of the fork are written to
later, the latter also at a path that is blocked. -/
def nestedActs : List Act :=
  [.write (.steps (.context 0)) "a" (.leaf (.int 1)), .fork 0 (.int 10),
    .write (.metadata 1) "m" (.leaf (.int 2)), .copy (.context 1), .fork 1 (.int 11),
    .write (.output 2) "x.y" (.node .dict [("z", .leaf (.int 3))]),
    .write (.errors 0) "e" (.leaf (.int 4)), .write (.output 2) "x.y.z" (.leaf (.int 5)),
    .write (.output 2) "x.y.z.w" (.leaf (.int 6)), .write (.steps (.copy 0)) "a" (.leaf (.int 7))]

/-- Afterwards the root holds its own writes only, and from the fork of the fork it is reached in two
steps. -/
theorem forks_independent_nested : ∃ f c, Store.Rooted .empty [] [] [] [] [] ∧
    (ofRoot .empty .null [] [] [] [] none 0).Becomes nestedActs f ∧
    f.sheet? 3 0 = some ⟨[("a", .leaf (.int 1))], [("e", .leaf (.int 4))], [], []⟩ ∧
    f.contexts[2]? = some c ∧ f.store.climb 2 c = f.contexts[0]? := by
  have hrooted : Store.Rooted .empty [] [] [] [] [] :=
    ⟨nofun, 0, .nil, Multiset.nodup_zero, nofun⟩
  obtain ⟨f, c, hb, hc⟩ : ∃ f c, (ofRoot .empty .null [] [] [] [] none 0).Becomes nestedActs f ∧
      f.contexts[2]? = some c :=
    ⟨_, _, .act (.record rfl (.leaf (.refl ∅ _) rfl _)) <| .act (.fork _ rfl) <|
      .act (.mark rfl (by decide) (.leaf (.refl ∅ _) rfl _)) <| .act (.copy rfl) <|
      .act (.fork _ rfl) <| .act (.setPath rfl ((Fresh.leaf (.refl ∅ _) rfl "z").newDict _) rfl) <|
      .act (.note rfl (.leaf (.refl ∅ _) rfl _)) <| .act (.setPath rfl (.leaf (.refl ∅ _) rfl _) rfl) <|
      .act (.refused rfl (.leaf (.refl ∅ _) rfl _) rfl) <|
      .act (.record rfl (.leaf (.refl ∅ _) rfl _)) <| .refl _, rfl⟩
  obtain ⟨hroot, -, -, -, hlines⟩ := forks_independent hrooted hb
  obtain ⟨is, hline, hclimb⟩ := hlines 2 c hc
  -- Before the fork of the fork there is the fork of the root, and before that the root.
  obtain rfl : is = [1, 0] := by
    cases hline with
    | fork hi hline =>
      cases hi
      cases hline with
      | fork hi hline =>
        cases hi
        cases hline
        rfl
  obtain ⟨j, p, hj, hp, hup, -⟩ := hclimb 2 le_rfl
  cases hj
  exact ⟨f, c, hrooted, hb, hroot 3, hc, hup.trans hp.symm⟩

end Family

end Conductor
