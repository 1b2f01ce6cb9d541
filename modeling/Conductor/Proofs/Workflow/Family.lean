import Conductor.Proofs.Store.Trees

/-!
# Families of contexts

Contexts that are forked from one another share what they hold: a fork copies the tables of its origin,
and not the values in them. This file says who may write where in such a family, so that nobody writes into
what somebody else sees.

**Ownership** (`Family.Tidy`). Every container of the family belongs to one place, the results, errors,
metadata or output of one context, or a copy of step results, or it is part of a value. Tables hold values
only, values hold nothing but values, and an output holds a tree of containers that belong to it. So a
write at a place changes that place alone, and values stay as they are.

Three things keep a family tidy: a new value that is written into a table (`Tidy.enter`), a new value that
is written into the tree of an output (`Tidy.written`), and a new member whose tables begin with values
(`Tidy.join`, `Tidy.addCopy`).
-/

namespace Conductor

open Store (parentKey)

/-! ## Families -/

/-- Who holds step results: a context, or a copy of step results for itself. -/
inductive Holder where
  | context (i : Nat)
  | copy (j : Nat)
  deriving DecidableEq

/-- The places of a family that are written to. -/
inductive Place where
  | steps (h : Holder)
  | errors (i : Nat)
  | metadata (i : Nat)
  | output (i : Nat)
  deriving DecidableEq

/-- What happens in a family: a context is forked for an item, step results are copied, or a value is
written at a place, under a key or at a path. -/
inductive Act where
  | fork (i : Nat) (item : Value)
  | copy (h : Holder)
  | write (p : Place) (key : String) (x : Tree)

/-- The writes at a place among acts, in order. -/
def writesTo (p : Place) (as : List Act) : List (String × Tree) :=
  as.filterMap fun
    | .write q key x => if q = p then some (key, x) else none
    | _ => none

/-- Contexts of which each is forked from one before it, the root apart, and copies of step results. -/
structure Family where
  store : Store
  contexts : List (Ref .context)
  copies : List (Ref .results)

/-- The tables of a context. -/
def Context.tables (x : Context) : List Container :=
  [.results x.steps, .dict x.output, .dict x.errors, .dict x.metadata]

namespace Store

/-- What a new context finds: four new tables with given contents, beside all that was there. -/
structure Founds (s : Store) (rs os es ms : Entries Value) (c : Ref .context) (t : Store) : Prop where
  keeps : Keeps ∅ s t
  there : c.index < t.contexts.size
  new : ∀ d ∈ (t.get c).tables, ¬ s.Has d ∧ t.Has d
  apart : (t.get c).tables.Nodup
  steps : t.get (t.get c).steps = rs
  output : t.get (t.get c).output = os
  errors : t.get (t.get c).errors = es
  metadata : t.get (t.get c).metadata = ms

theorem founds_newContext (s : Store) (input : Value) (rs os es ms : Entries Value)
    (step : Option String) (time : Int) :
    Founds s rs os es ms (s.newContext input rs os es ms step time).1
      (s.newContext input rs os es ms step time).2 := by
  set t := s.newContext input rs os es ms step time with ht
  have hone : (s.dicts.push os).size = s.dicts.size + 1 := Array.size_push _
  have htwo : ((s.dicts.push os).push es).size = s.dicts.size + 2 := by simp
  have hget : t.2.get t.1 = ⟨input, ⟨s.results.size⟩, ⟨s.dicts.size⟩, step, ⟨s.dicts.size + 1⟩, time,
      none, ⟨s.dicts.size + 2⟩, .null⟩ := by
    rw [← hone, ← htwo]
    exact ht ▸ getD_push_size
  have hdicts : t.2.dicts = ((s.dicts.push os).push es).push ms := ht ▸ rfl
  have hresults : t.2.results = s.results.push rs := ht ▸ rfl
  have hentries : ∀ r : Ref .dict, t.2.get r = t.2.dicts.getD r.index default := fun _ => rfl
  constructor
  case keeps => exact s.keeps_newContext _ _ _ _ _ _ _
  case there => exact (Nat.lt_succ_self _).trans_eq (Array.size_push _).symm
  case new =>
    rw [hget]
    simp only [Context.tables, List.forall_mem_cons, List.not_mem_nil, false_implies, implies_true,
      and_true, Has, hdicts, hresults, Array.size_push]
    omega
  case apart =>
    rw [hget]
    simp [Context.tables]
  case steps =>
    rw [hget]
    exact getD_push_size
  case output =>
    rw [hget, hentries, hdicts]
    exact (getD_push_of_lt (by simp)).trans ((getD_push_of_lt (by simp)).trans getD_push_size)
  case errors =>
    rw [hget, hentries, hdicts, ← hone]
    exact (getD_push_of_lt (by simp)).trans getD_push_size
  case metadata =>
    rw [hget, hentries, hdicts, ← htwo]
    exact getD_push_size

end Store

namespace Family

/-- A family in which there is nobody but a new root. -/
def ofRoot (s : Store) (input : Value) (results output errors metadata : Entries Value)
    (currentStep : Option String) (startTime : Int) : Family :=
  let (c, s) := s.newContext input results output errors metadata currentStep startTime
  ⟨s, [c], []⟩

/-- The step results of a holder. -/
def table? (f : Family) : Holder → Option (Ref .results)
  | .context i => f.contexts[i]?.map fun c => (f.store.get c).steps
  | .copy j => f.copies[j]?

/-- The container in which a place keeps its entries. -/
def container? (f : Family) : Place → Option Container
  | .steps h => (f.table? h).map .results
  | .errors i => f.contexts[i]?.map fun c => .dict (f.store.get c).errors
  | .metadata i => f.contexts[i]?.map fun c => .dict (f.store.get c).metadata
  | .output i => f.contexts[i]?.map fun c => .dict (f.store.get c).output

/-- What a place looks like down to a depth. -/
def look? (f : Family) (n : Nat) (p : Place) : Option (Entries Tree) :=
  (f.container? p).map (f.store.look n)

/-- An act of a family. Values are made anew before they are written; whatever an item is, it is only kept
as an input. A write at a path that is blocked is refused. -/
inductive Acts (f : Family) : Act → Family → Prop
  | fork {i : Nat} {c : Ref .context} (item : Value) (hc : f.contexts[i]? = some c) :
    Acts f (.fork i item)
      ⟨(f.store.fork c item).2, f.contexts ++ [(f.store.fork c item).1], f.copies⟩
  | copy {h : Holder} {r : Ref .results} (hr : f.table? h = some r) :
    Acts f (.copy h)
      ⟨(f.store.copyResults r).2, f.contexts, f.copies ++ [(f.store.copyResults r).1]⟩
  | record {h : Holder} {r : Ref .results} {step : String} {v : Value} {x : Tree} {t : Store}
    (hr : f.table? h = some r) (hv : f.store.Fresh t [(step, v)] [(step, x)]) :
    Acts f (.write (.steps h) step x) { f with store := t.recordIn r step v }
  | note {i : Nat} {c : Ref .context} {name : String} {v : Value} {x : Tree} {t : Store}
    (hc : f.contexts[i]? = some c) (hv : f.store.Fresh t [(name, v)] [(name, x)]) :
    Acts f (.write (.errors i) name x) { f with store := t.insert (t.get c).errors name v }
  | mark {i : Nat} {c : Ref .context} {key : String} {v : Value} {x : Tree} {t : Store}
    (hc : f.contexts[i]? = some c) (hkey : key ≠ parentKey)
    (hv : f.store.Fresh t [(key, v)] [(key, x)]) :
    Acts f (.write (.metadata i) key x) { f with store := t.insert (t.get c).metadata key v }
  | setPath {i : Nat} {c : Ref .context} {path : String} {v : Value} {x : Tree} {t u : Store}
    (hc : f.contexts[i]? = some c) (hv : f.store.Fresh t [(path, v)] [(path, x)])
    (hu : t.setPath (t.get c).output path v = .ok u) :
    Acts f (.write (.output i) path x) { f with store := u }
  | refused {i : Nat} {c : Ref .context} {path : String} {v : Value} {x : Tree} {t : Store} {e : Cause}
    (hc : f.contexts[i]? = some c) (hv : f.store.Fresh t [(path, v)] [(path, x)])
    (he : t.setPath (t.get c).output path v = .error e) :
    Acts f (.write (.output i) path x) { f with store := t }

/-- Whatever data are to be written at a place, they can be made, and then be written or refused. -/
theorem exists_write {f : Family} {p : Place} {d : Container} (hp : f.container? p = some d)
    {key : String} (hkey : ∀ i, p = .metadata i → key ≠ parentKey) (data : Datum) :
    ∃ x f', f.Acts (.write p key x) f' := by
  obtain ⟨x, hx⟩ := Store.fresh_build key data f.store
  generalize f.store.build data = built at hx
  cases p with
  | steps k =>
    obtain ⟨r, hr, -⟩ := Option.map_eq_some_iff.1 hp
    exact ⟨x, _, .record hr hx⟩
  | errors i =>
    obtain ⟨c, hc, -⟩ := Option.map_eq_some_iff.1 hp
    exact ⟨x, _, .note hc hx⟩
  | metadata i =>
    obtain ⟨c, hc, -⟩ := Option.map_eq_some_iff.1 hp
    exact ⟨x, _, .mark hc (hkey i rfl) hx⟩
  | output i =>
    obtain ⟨c, hc, -⟩ := Option.map_eq_some_iff.1 hp
    cases hset : built.2.setPath (built.2.get c).output key built.1 with
    | ok u => exact ⟨x, _, .setPath hc hx hset⟩
    | error e => exact ⟨x, _, .refused hc hx hset⟩

/-! ## Ownership -/

/-- What a container belongs to: a value, or a place. -/
inductive Owner where
  | value
  | place (p : Place)
  deriving DecidableEq

/-- Who owns which containers. -/
abbrev Ownership : Type := Container → Option Owner

/-- The ownership in which some containers have got a new owner. -/
def Ownership.give (o : Ownership) (m : Multiset Container) (w : Owner) : Ownership :=
  fun c => if c ∈ m then some w else o c

/-- The ownership in which the tables of a context are its places. -/
def Ownership.settle (o : Ownership) (k : Nat) (x : Context) : Ownership :=
  Function.update (Function.update (Function.update (Function.update o
    (.results x.steps) (some (.place (.steps (.context k)))))
    (.dict x.output) (some (.place (.output k))))
    (.dict x.errors) (some (.place (.errors k))))
    (.dict x.metadata) (some (.place (.metadata k)))

/-- All that was owned is owned by the same ones. -/
def Extends (o o' : Ownership) : Prop := ∀ c w, o c = some w → o' c = some w

/-- A value is settled if the container that it stands for, if any, is part of a value. -/
def Settled (o : Ownership) (v : Value) : Prop :=
  ∀ shape c, v.container? = some (shape, c) → o c = some .value

/-- A place that holds entries for themselves, which no write goes into. -/
def IsTable : Owner → Prop
  | .place (.output _) => False
  | _ => True

/-- Everything in a family has its place, and the outputs of its contexts show trees. -/
structure Tidy (f : Family) (o : Ownership) (outs : Nat → Entries Tree) : Prop where
  there : ∀ {c w}, o c = some w → f.store.Has c
  contexts : ∀ {i : Nat} {c : Ref .context}, f.contexts[i]? = some c →
    c.index < f.store.contexts.size
  owned : ∀ {p c}, f.container? p = some c → o c = some (.place p)
  values : ∀ {c w}, o c = some w → IsTable w → ∀ e ∈ f.store.content c, Settled o e.2
  outputs : ∀ {i c}, f.contexts[i]? = some c → ∃ m,
    f.store.Bears (f.store.get c).output (outs i) m ∧ ∀ d ∈ m, o d = some (.place (.output i))

variable {f f' : Family} {o o' : Ownership} {outs outs' : Nat → Entries Tree} {s t u : Store}
  {X : Set Container} {i : Nat} {c : Ref .context} {v : Value} {x : Tree} {key : String}

open Store (Keeps Fresh)

theorem Settled.mono (h : Settled o v) (ho : Extends o o') : Settled o' v :=
  fun shape c hc => ho c _ (h shape c hc)

theorem give_mem {m : Multiset Container} {c : Container} (hc : c ∈ m) (w : Owner) :
    o.give m w c = some w := if_pos hc

theorem give_cases {m : Multiset Container} {c : Container} {w w' : Owner}
    (h : o.give m w c = some w') : (c ∈ m ∧ w' = w) ∨ (c ∉ m ∧ o c = some w') := by
  unfold Ownership.give at h
  split at h
  · next hc => exact Or.inl ⟨hc, (Option.some.inj h).symm⟩
  · next hc => exact Or.inr ⟨hc, h⟩

/-- Nobody loses what is given to a new owner if it was free, or owned by the same one. -/
theorem extends_give {m : Multiset Container} {w : Owner}
    (h : ∀ c ∈ m, ∀ w', o c = some w' → w' = w) : Extends o (o.give m w) := by
  intro c w' hc
  by_cases hm : c ∈ m
  · rw [give_mem hm, h c hm w' hc]
  · exact (if_neg hm).trans hc

theorem settle_of_notMem {k : Nat} {y : Context} {d : Container} (h : d ∉ y.tables) :
    o.settle k y d = o d := by
  simp only [Context.tables, List.mem_cons, List.not_mem_nil, or_false, not_or] at h
  rw [Ownership.settle, Function.update_of_ne h.2.2.2, Function.update_of_ne h.2.2.1,
    Function.update_of_ne h.2.1, Function.update_of_ne h.1]

theorem settle_tables {k : Nat} {y : Context} (h : y.tables.Nodup) :
    o.settle k y (.results y.steps) = some (.place (.steps (.context k))) ∧
      o.settle k y (.dict y.output) = some (.place (.output k)) ∧
      o.settle k y (.dict y.errors) = some (.place (.errors k)) ∧
      o.settle k y (.dict y.metadata) = some (.place (.metadata k)) := by
  simp only [Context.tables, List.nodup_cons, List.mem_cons, List.not_mem_nil, or_false, not_or,
    not_false_iff, List.nodup_nil, and_true] at h
  obtain ⟨⟨hRO, hRE, hRM⟩, ⟨hOE, hOM⟩, hEM⟩ := h
  refine ⟨?_, ?_, ?_, Function.update_self ..⟩
  · rw [Ownership.settle, Function.update_of_ne hRM, Function.update_of_ne hRE,
      Function.update_of_ne hRO, Function.update_self]
  · rw [Ownership.settle, Function.update_of_ne hOM, Function.update_of_ne hOE, Function.update_self]
  · rw [Ownership.settle, Function.update_of_ne hEM, Function.update_self]

theorem Extends.refl (o : Ownership) : Extends o o := fun _ _ h => h

theorem Extends.trans {o'' : Ownership} (h : Extends o o') (h' : Extends o' o'') : Extends o o'' :=
  fun c w hc => h' c w (h c w hc)

theorem getElem?_extended {α : Type} {xs ys : List α} (h : xs <+: ys) {i : Nat} {a : α}
    (ha : xs[i]? = some a) : ys[i]? = some a := by
  obtain ⟨hi, rfl⟩ := List.getElem?_eq_some_iff.1 ha
  exact List.prefix_iff_getElem?.1 h i hi

theorem getElem?_concat_cases {α : Type} {xs : List α} {i : Nat} {a b : α}
    (h : (xs ++ [a])[i]? = some b) : xs[i]? = some b ∨ (i = xs.length ∧ b = a) := by
  rcases Nat.lt_or_ge i xs.length with hi | hi
  · rw [List.getElem?_append_left hi] at h
    exact Or.inl h
  · rw [List.getElem?_append_right hi] at h
    obtain ⟨hlt, rfl⟩ := List.getElem?_eq_some_iff.1 h
    rw [List.length_singleton, Nat.lt_one_iff] at hlt
    exact Or.inr ⟨by omega, by simp [hlt]⟩

theorem container?_steps {k : Holder} {r : Ref .results} (h : f.table? k = some r) :
    f.container? (.steps k) = some (.results r) := by rw [container?, h]; rfl

theorem container?_errors (h : f.contexts[i]? = some c) :
    f.container? (.errors i) = some (.dict (f.store.get c).errors) := by rw [container?, h]; rfl

theorem container?_metadata (h : f.contexts[i]? = some c) :
    f.container? (.metadata i) = some (.dict (f.store.get c).metadata) := by rw [container?, h]; rfl

theorem container?_output (h : f.contexts[i]? = some c) :
    f.container? (.output i) = some (.dict (f.store.get c).output) := by rw [container?, h]; rfl

/-- Members of a family of which more may have come stay where they are, and so do their places. -/
theorem container?_mono (hcontexts : f.contexts <+: f'.contexts) (hcopies : f.copies <+: f'.copies)
    (hparts : ∀ c ∈ f.contexts, (f'.store.get c).parts = (f.store.get c).parts) {p : Place}
    {d : Container} (h : f.container? p = some d) : f'.container? p = some d := by
  have hmember : ∀ {i : Nat} {c : Ref .context}, f.contexts[i]? = some c →
      f'.contexts[i]? = some c ∧ (f'.store.get c).parts = (f.store.get c).parts :=
    fun hc => ⟨getElem?_extended hcontexts hc, hparts _ (List.mem_of_getElem? hc)⟩
  simp only [Context.parts, Prod.mk.injEq] at hmember
  cases p with
  | steps k =>
    cases k with
    | context i =>
      obtain ⟨r, hr, rfl⟩ := Option.map_eq_some_iff.1 h
      obtain ⟨c, hc, rfl⟩ := Option.map_eq_some_iff.1 hr
      obtain ⟨hc', -, hsteps, -⟩ := hmember hc
      exact hsteps ▸ container?_steps (k := .context i) (Option.map_eq_some_iff.2 ⟨c, hc', rfl⟩)
    | copy j =>
      obtain ⟨r, hr, rfl⟩ := Option.map_eq_some_iff.1 h
      exact container?_steps (k := .copy j) (getElem?_extended hcopies hr)
  | errors i =>
    obtain ⟨c, hc, rfl⟩ := Option.map_eq_some_iff.1 h
    obtain ⟨hc', -, -, -, herrors, -⟩ := hmember hc
    exact herrors ▸ container?_errors hc'
  | metadata i =>
    obtain ⟨c, hc, rfl⟩ := Option.map_eq_some_iff.1 h
    obtain ⟨hc', -, -, -, -, hmetadata⟩ := hmember hc
    exact hmetadata ▸ container?_metadata hc'
  | output i =>
    obtain ⟨c, hc, rfl⟩ := Option.map_eq_some_iff.1 h
    obtain ⟨hc', -, -, houtput, -⟩ := hmember hc
    exact houtput ▸ container?_output hc'

namespace Tidy

theorem parts (h : f.Tidy o outs) (hkeeps : Keeps X f.store t) :
    ∀ c ∈ f.contexts, (t.get c).parts = (f.store.get c).parts := by
  intro c hc
  obtain ⟨i, hi⟩ := List.getElem?_of_mem hc
  exact (hkeeps.contexts c (h.contexts hi)).2

/-! ## Changes of the store -/

/-- A family stays tidy if what is newly owned is there, tables get settled values only, and outputs
that are written to are trees again. -/
theorem next (h : f.Tidy o outs) (hkeeps : Keeps X f.store t) (ho : Extends o o')
    (hthere : ∀ c w, o' c = some w → o c = some w ∨ t.Has c)
    (hvalues : ∀ c w, o' c = some w → IsTable w →
      (o c = some w ∧ c ∉ X) ∨ ∀ e ∈ t.content c, Settled o' e.2)
    (houtputs : ∀ i c, f.contexts[i]? = some c →
      (outs' i = outs i ∧ ∀ d ∈ X, o d ≠ some (.place (.output i))) ∨
        ∃ m, t.Bears (f.store.get c).output (outs' i) m ∧ ∀ d ∈ m, o' d = some (.place (.output i))) :
    Tidy { f with store := t } o' outs' := by
  constructor
  case there => exact fun {c w} hc => (hthere c w hc).elim (fun hc => hkeeps.has c (h.there hc)) id
  case contexts => exact fun hc => (hkeeps.contexts _ (h.contexts hc)).1
  case owned =>
    intro p d hd
    refine ho d _ (h.owned (container?_mono (f := ⟨t, f.contexts, f.copies⟩) ?_ ?_ ?_ hd))
    · exact List.prefix_rfl
    · exact List.prefix_rfl
    · exact fun c hc => (h.parts hkeeps c hc).symm
  case values =>
    intro c w hc hw
    rcases hvalues c w hc hw with ⟨hc', hX⟩ | hc'
    · have hcontent : t.content c = f.store.content c := hkeeps.content c hX (h.there hc')
      exact fun e he => (h.values hc' hw e (hcontent ▸ he)).mono ho
    · exact hc'
  case outputs =>
    intro i c hc
    have houtput : (t.get c).output = (f.store.get c).output :=
      congrArg (fun p => p.2.2.1) (hkeeps.contexts c (h.contexts hc)).2
    show ∃ m, t.Bears (t.get c).output _ m ∧ _
    rw [houtput]
    rcases houtputs i c hc with ⟨heq, hX⟩ | hnew
    · obtain ⟨m, hb, hm⟩ := h.outputs hc
      rw [heq]
      refine ⟨m, hb.congr fun d hd hhas => ⟨hkeeps.has d hhas, hkeeps.content d (fun hmem => ?_) hhas⟩,
        fun d hd => ho _ _ (hm d hd)⟩
      rcases Multiset.mem_cons.1 hd with rfl | hd
      · exact hX _ hmem (h.owned (container?_output hc))
      · exact hX _ hmem (hm d hd)
    · exact hnew

/-- A family stays tidy if the store only grows, and new tables have settled values. -/
theorem grow (h : f.Tidy o outs) (hkeeps : Keeps ∅ f.store t) (ho : Extends o o')
    (hnew : ∀ c w, o' c = some w → o c = some w ∨
      (t.Has c ∧ (IsTable w → ∀ e ∈ t.content c, Settled o' e.2)))
    (houts : ∀ i < f.contexts.length, outs' i = outs i) : Tidy { f with store := t } o' outs' := by
  refine h.next hkeeps ho (fun c w hc => (hnew c w hc).imp_right And.left) (fun c w hc hw => ?_)
    fun i c hc => Or.inl ⟨houts i (List.getElem?_eq_some_iff.1 hc).1, fun d hd => ?_⟩
  · exact (hnew c w hc).imp (fun hc => ⟨hc, Set.notMem_empty c⟩) fun hc => hc.2 hw
  · exact absurd hd (Set.notMem_empty d)

/-- What a settled value looks like stays as it is. -/
theorem unfold_eq (h : f.Tidy o outs) (hkeeps : Keeps X f.store t)
    (hX : ∀ d ∈ X, o d ≠ some .value) (hv : Settled o v) (n : Nat) :
    t.unfold n v = f.store.unfold n v := by
  induction n generalizing v with
  | zero => rfl
  | succ n ih =>
    cases hc : v.container? with
    | none => rw [Store.unfold_leaf hc, Store.unfold_leaf hc]
    | some p =>
      obtain ⟨shape, c⟩ := p
      have howner := hv shape c hc
      have hhas := h.there howner
      rw [Store.unfold_node hc hhas, Store.unfold_node hc (hkeeps.has c hhas), Store.look, Store.look,
        hkeeps.content c (fun hmem => hX c hmem howner) hhas]
      refine congrArg (Tree.node shape) (List.map_congr_left fun e he => ?_)
      rw [ih (h.values howner trivial e he)]

theorem glance_eq (h : f.Tidy o outs) (hkeeps : Keeps X f.store t)
    (hX : ∀ d ∈ X, o d ≠ some .value) {es : Entries Value} (hes : ∀ e ∈ es, Settled o e.2) (n : Nat) :
    t.glance n es = f.store.glance n es :=
  List.map_congr_left fun e he => by rw [h.unfold_eq hkeeps hX (hes e he)]

/-- A table that is not written to looks as it did. -/
theorem look_eq (h : f.Tidy o outs) (hkeeps : Keeps X f.store t)
    (hX : ∀ d ∈ X, o d ≠ some .value) {d : Container} {w : Owner} (hd : o d = some w) (hw : IsTable w)
    (hdX : d ∉ X) (n : Nat) : t.look n d = f.store.look n d := by
  rw [Store.look, hkeeps.content d hdX (h.there hd)]
  exact h.glance_eq hkeeps hX (h.values hd hw) n

/-- A new value is settled as soon as its containers are owned by it. -/
theorem fresh (h : f.Tidy o outs) (hv : f.store.Fresh t [(key, v)] [(key, x)]) :
    ∃ o', Extends o o' ∧ Settled o' v ∧ Tidy { f with store := t } o' outs := by
  obtain ⟨hkeeps, m, hspreads, -, hnew⟩ := hv
  have ho : Extends o (o.give m .value) :=
    extends_give fun c hm w hc => absurd (h.there hc) (hnew c hm)
  refine ⟨_, ho, fun shape c hc => ?_, h.grow hkeeps ho (fun c w hc => ?_) fun i _ => rfl⟩
  · cases hspreads with
    | leaf hleaf => cases hleaf.symm.trans hc
    | node hnode =>
      cases hnode.symm.trans hc
      exact give_mem (Multiset.mem_cons_self ..) _
  · exact (give_cases hc).symm.imp And.right fun hm => ⟨hspreads.has c hm.1,
      fun _ e he shape d hd => give_mem (hspreads.closed hm.1 he hd) _⟩

/-- A settled value may be written into a table. -/
theorem enter (h : f.Tidy o outs) {d : Container} {w : Owner} (hd : o d = some w) (hw : IsTable w)
    (hkeeps : Keeps {d} f.store t) (hcontent : t.content d = Entries.insert (f.store.content d) key v)
    (hv : Settled o v) : Tidy { f with store := t } o outs := by
  refine h.next hkeeps (.refl o) (fun c w hc => Or.inl hc) (fun c w' hc hw' => ?_)
    fun i c hc => Or.inl ⟨rfl, fun d' hd' heq => ?_⟩
  · by_cases hcd : c = d
    · subst hcd
      refine Or.inr fun e he => ?_
      rcases Entries.mem_insert (hcontent ▸ he) with he | rfl
      · exact h.values hd hw e he
      · exact hv
    · exact Or.inl ⟨hc, hcd⟩
  · obtain rfl : d' = d := hd'
    cases hd.symm.trans heq
    exact hw

/-- A table looks as if the tree of the value had been written into it. -/
theorem look_enter (h : f.Tidy o outs) {d : Container} {w : Owner} (hd : o d = some w) (hw : IsTable w)
    (hvalue : w ≠ .value) (hkeeps : Keeps {d} f.store t)
    (hcontent : t.content d = Entries.insert (f.store.content d) key v) (hv : Settled o v) (n : Nat) :
    t.look n d = Entries.insert (f.store.look n d) key (f.store.unfold n v) := by
  have hX : ∀ c ∈ ({d} : Set Container), o c ≠ some .value := by
    rintro c rfl heq
    exact hvalue (Option.some.inj (hd.symm.trans heq))
  rw [Store.look, hcontent, Entries.map_insert (t.unfold n), h.unfold_eq hkeeps hX hv]
  exact congrArg (Entries.insert · key _) (h.glance_eq hkeeps hX (h.values hd hw) n)

/-! ## Writes into outputs -/

/-- A new value is written into an output as into its trees, or refused. -/
theorem lands {path : String} (h : f.Tidy o outs) (hc : f.contexts[i]? = some c)
    (hv : f.store.Fresh t [(path, v)] [(path, x)]) : ∃ m mx,
      (∀ d ∈ m, o d = some (.place (.output i))) ∧ (∀ d ∈ mx, ¬ f.store.Has d) ∧
      t.Lands (t.get c).output m mx (t.setPath (t.get c).output path v)
        (Tree.write (outs i) (Path.segments path) x) := by
  obtain ⟨hkeeps, mx, hspreads, hnd, hnew⟩ := hv
  obtain ⟨m, hb, hm⟩ := h.outputs hc
  have houtput : (t.get c).output = (f.store.get c).output :=
    congrArg (fun p => p.2.2.1) (hkeeps.contexts c (h.contexts hc)).2
  have hb' : t.Bears (t.get c).output (outs i) m := by
    rw [houtput]
    exact hb.congr fun d _ => hkeeps.all d
  have hhas : ∀ d ∈ Container.dict (t.get c).output ::ₘ m, f.store.Has d := by
    intro d hd
    rcases Multiset.mem_cons.1 hd with rfl | hd
    · exact houtput ▸ hb.there
    · exact hb.spreads.has d hd
  refine ⟨m, mx, hm, hnew, hb'.writeAlong (hspreads.rename "") ?_⟩
  rw [← Multiset.cons_add]
  exact Multiset.nodup_add.2 ⟨hb'.once, hnd,
    Multiset.disjoint_left.2 fun {d} hd hd' => hnew d hd' (hhas d hd)⟩

/-- A write at a path that is not blocked keeps the family tidy, and changes the output as its trees. -/
theorem written {path : String} (h : f.Tidy o outs) (hc : f.contexts[i]? = some c)
    (hv : f.store.Fresh t [(path, v)] [(path, x)])
    (hu : t.setPath (t.get c).output path v = .ok u) :
    ∃ ts o', Tree.write (outs i) (Path.segments path) x = some ts ∧ Extends o o' ∧
      Keeps {d | o d = some (.place (.output i))} f.store u ∧
      Tidy { f with store := u } o' (Function.update outs i ts) := by
  obtain ⟨m, mx, hm, hnew, hlands⟩ := h.lands hc hv
  rw [hu] at hlands
  cases hwrite : Tree.write (outs i) (Path.segments path) x with
  | none =>
    rw [hwrite] at hlands
    obtain ⟨e, he⟩ := hlands
    cases he
  | some ts =>
    rw [hwrite] at hlands
    obtain ⟨_, m', heq, hb, hfrom, hkeeps⟩ := hlands
    cases heq
    have houtput : (t.get c).output = (f.store.get c).output :=
      congrArg (fun p => p.2.2.1) (hv.keeps.contexts c (h.contexts hc)).2
    rw [houtput] at hb hkeeps
    have hown : o (.dict (f.store.get c).output) = some (.place (.output i)) :=
      h.owned (container?_output hc)
    have hall : Keeps {d | o d = some (.place (.output i))} f.store u := by
      refine (hv.keeps.of_empty _).trans (hkeeps.mono fun d hd _ => ?_)
      rcases hd with rfl | hd
      · exact hown
      · exact hm d hd
    have ho : Extends o (o.give m' (.place (.output i))) := by
      refine extends_give fun d hd w hw => ?_
      rcases hfrom d hd with hd | hd | hd
      · exact Option.some.inj (hw.symm.trans (hm d hd))
      · exact absurd (h.there hw) (hnew d hd)
      · exact absurd (hv.keeps.has d (h.there hw)) hd
    refine ⟨ts, _, rfl, ho, hall, h.next hall ho (fun d w hd => ?_) (fun d w hd hw => ?_)
      fun j c' hc' => ?_⟩
    · exact (give_cases hd).symm.imp And.right fun hd => hb.spreads.has d hd.1
    · rcases give_cases hd with ⟨-, rfl⟩ | ⟨-, hd⟩
      · exact hw.elim
      · refine Or.inl ⟨hd, fun hmem => ?_⟩
        cases hd.symm.trans hmem
        exact hw
    · by_cases hj : j = i
      · subst hj
        cases hc.symm.trans hc'
        rw [Function.update_self]
        exact Or.inr ⟨m', hb, fun d hd => give_mem hd _⟩
      · refine Or.inl ⟨Function.update_of_ne hj .., fun d hd heq => hj ?_⟩
        have hd : o d = some (.place (.output i)) := hd
        cases hd.symm.trans heq
        rfl

/-- A write at a path is refused if there are no trees for it. -/
theorem write_eq_none {path : String} {e : Cause} (h : f.Tidy o outs) (hc : f.contexts[i]? = some c)
    (hv : f.store.Fresh t [(path, v)] [(path, x)])
    (he : t.setPath (t.get c).output path v = .error e) :
    Tree.write (outs i) (Path.segments path) x = none := by
  obtain ⟨m, mx, -, -, hlands⟩ := h.lands hc hv
  rw [he] at hlands
  cases hwrite : Tree.write (outs i) (Path.segments path) x with
  | none => rfl
  | some ts =>
    rw [hwrite] at hlands
    obtain ⟨_, _, hok, -⟩ := hlands
    cases hok

/-! ## New members -/

/-- A copy of step results is a new place. -/
theorem addCopy {r : Ref .results} (h : f.Tidy o outs)
    (hr : o (.results r) = some (.place (.steps (.copy f.copies.length)))) :
    Tidy { f with copies := f.copies ++ [r] } o outs := by
  refine ⟨h.there, h.contexts, fun {p d} hd => ?_, h.values, h.outputs⟩
  cases p with
  | steps k =>
    cases k with
    | context i => exact h.owned (p := .steps (.context i)) hd
    | copy j =>
      obtain ⟨r', hr', rfl⟩ := Option.map_eq_some_iff.1 hd
      rcases getElem?_concat_cases hr' with hr' | ⟨rfl, rfl⟩
      · exact h.owned (container?_steps (k := .copy j) hr')
      · exact hr
  | errors i => exact h.owned (p := .errors i) hd
  | metadata i => exact h.owned (p := .metadata i) hd
  | output i => exact h.owned (p := .output i) hd

/-- So is a context that has parts of its own. -/
theorem addContext {c : Ref .context} {m : Multiset Container} (h : f.Tidy o outs)
    (hc : c.index < f.store.contexts.size)
    (hsteps : o (.results (f.store.get c).steps) = some (.place (.steps (.context f.contexts.length))))
    (herrors : o (.dict (f.store.get c).errors) = some (.place (.errors f.contexts.length)))
    (hmetadata : o (.dict (f.store.get c).metadata) = some (.place (.metadata f.contexts.length)))
    (houtput : o (.dict (f.store.get c).output) = some (.place (.output f.contexts.length)))
    (hb : f.store.Bears (f.store.get c).output (outs f.contexts.length) m)
    (hm : ∀ d ∈ m, o d = some (.place (.output f.contexts.length))) :
    Tidy { f with contexts := f.contexts ++ [c] } o outs := by
  refine ⟨h.there, fun hc' => ?_, fun {p d} hd => ?_, h.values, fun {i c'} hc' => ?_⟩
  · rcases getElem?_concat_cases hc' with hc' | ⟨-, rfl⟩
    · exact h.contexts hc'
    · exact hc
  · cases p with
    | steps k =>
      cases k with
      | context i =>
        obtain ⟨r', hr', rfl⟩ := Option.map_eq_some_iff.1 hd
        obtain ⟨c', hc', rfl⟩ := Option.map_eq_some_iff.1 hr'
        rcases getElem?_concat_cases hc' with hc' | ⟨rfl, rfl⟩
        · exact h.owned (container?_steps (k := .context i) (Option.map_eq_some_iff.2 ⟨c', hc', rfl⟩))
        · exact hsteps
      | copy j => exact h.owned (p := .steps (.copy j)) hd
    | errors i =>
      obtain ⟨c', hc', rfl⟩ := Option.map_eq_some_iff.1 hd
      rcases getElem?_concat_cases hc' with hc' | ⟨rfl, rfl⟩
      · exact h.owned (container?_errors hc')
      · exact herrors
    | metadata i =>
      obtain ⟨c', hc', rfl⟩ := Option.map_eq_some_iff.1 hd
      rcases getElem?_concat_cases hc' with hc' | ⟨rfl, rfl⟩
      · exact h.owned (container?_metadata hc')
      · exact hmetadata
    | output i =>
      obtain ⟨c', hc', rfl⟩ := Option.map_eq_some_iff.1 hd
      rcases getElem?_concat_cases hc' with hc' | ⟨rfl, rfl⟩
      · exact h.owned (container?_output hc')
      · exact houtput
  · rcases getElem?_concat_cases hc' with hc' | ⟨rfl, rfl⟩
    · exact h.outputs hc'
    · exact ⟨m, hb, hm⟩

/-- A new context may join, if the values that it begins with are settled and its output is a tree of
containers that are meant for it. -/
theorem join {rs os es ms : Entries Value} {ts : Entries Tree} {m : Multiset Container}
    (h : f.Tidy o outs) (hnew : f.store.Founds rs os es ms c t) (hrs : ∀ e ∈ rs, Settled o e.2)
    (hes : ∀ e ∈ es, Settled o e.2) (hms : ∀ e ∈ ms, Settled o e.2) (hos : f.store.Spreads os ts m)
    (hnd : m.Nodup) (hm : ∀ d ∈ m, o d = some (.place (.output f.contexts.length))) :
    ∃ o', Extends o o' ∧ Tidy ⟨t, f.contexts ++ [c], f.copies⟩ o'
      (Function.update outs f.contexts.length ts) := by
  obtain ⟨hkeeps, hthere, htables, hapart, hsteps, houtput, herrors, hmetadata⟩ := hnew
  set k := f.contexts.length
  obtain ⟨hsteps', houtput', herrors', hmetadata'⟩ := settle_tables (o := o) (k := k) hapart
  -- The new tables are the places of the new context, and all else belongs to whom it belonged.
  have hold : ∀ d, d ∉ (t.get c).tables → o.settle k (t.get c) d = o d := fun d => settle_of_notMem
  have hext : Extends o (o.settle k (t.get c)) := fun d w hd =>
    (hold d fun hmem => (htables d hmem).1 (h.there hd)).trans hd
  have hnext : Tidy { f with store := t } (o.settle k (t.get c)) (Function.update outs k ts) := by
    refine h.grow hkeeps hext (fun d w hd => ?_) fun i hi => Function.update_of_ne (Nat.ne_of_lt hi) ..
    by_cases hmem : d ∈ (t.get c).tables
    · refine Or.inr ⟨(htables d hmem).2, fun hw => ?_⟩
      simp only [Context.tables, List.mem_cons, List.not_mem_nil, or_false] at hmem
      rcases hmem with rfl | rfl | rfl | rfl
      · exact fun e he => (hrs e (hsteps ▸ he)).mono hext
      · cases houtput'.symm.trans hd
        exact hw.elim
      · exact fun e he => (hes e (herrors ▸ he)).mono hext
      · exact fun e he => (hms e (hmetadata ▸ he)).mono hext
    · exact Or.inl ((hold d hmem).symm.trans hd)
  obtain ⟨hO, hO'⟩ := htables (.dict (t.get c).output) (by simp [Context.tables])
  refine ⟨_, hext, hnext.addContext (m := m) hthere hsteps' herrors' hmetadata' houtput' ?_ ?_⟩
  · rw [Function.update_self]
    refine ⟨hO', ?_, Multiset.nodup_cons.2 ⟨fun hmem => hO (hos.has _ hmem), hnd⟩⟩
    show t.Spreads (t.get (t.get c).output) ts m
    rw [houtput]
    exact hos.congr fun d _ => hkeeps.all d
  · exact fun d hd => hext d _ (hm d hd)

end Tidy

end Family

end Conductor
