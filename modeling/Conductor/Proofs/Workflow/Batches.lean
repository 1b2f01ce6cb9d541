import Conductor.Proofs.Workflow.Branches

/-!
# Batches of a map step

A map step runs its items batch by batch. An item is told of by the fork of its batch, at its place in
the batch (`Visit.Item`). The next batch begins when the join of the one before has been left with
success, so at every moment the items in flight are items of one batch (`Maps.flight`), and behind a
failure no batch begins any more (`Maps.stops`).

**Theorem (`map_batches`).** All of this for a single execution of a map step, with the results in the
order of the items, or the failure of the item that failed first.
-/

namespace Conductor

open Outline (plain)
open Visit (Scene)
open Visit.Outlined (dispatch)

variable {σ : Setup} {R : Run σ.body} {N b n t : Nat} {ds : List Deed}

/-! ## Contexts for items -/

namespace Store

variable {s t : Store} {c : Ref .context} {items : List Value} {cs : List (Ref .context)}

/-- Forks are appended to the contexts in the order of the items. -/
theorem forkAll_eq (c : Ref .context) : ∀ (items : List Value) (s : Store),
    ∃ xs : List Context, xs.map Context.input = items ∧
      (s.forkAll c items).2.contexts.toList = s.contexts.toList ++ xs ∧
      (s.forkAll c items).1 = (List.range' s.contexts.size items.length).map Ref.mk
  | [], s => ⟨[], rfl, (List.append_nil _).symm, rfl⟩
  | item :: items, s => by
    have hfork : ∃ x : Context, x.input = item ∧
        (s.fork c item).2.contexts = s.contexts.push x ∧
          (s.fork c item).1 = ⟨s.contexts.size⟩ := ⟨_, rfl, rfl, rfl⟩
    obtain ⟨x, hx, hcontexts, href⟩ := hfork
    obtain ⟨xs, hxs, hall, hrefs⟩ := forkAll_eq c items (s.fork c item).2
    rw [hcontexts] at hall hrefs
    refine ⟨x :: xs, by rw [List.map_cons, hx, hxs], ?_, ?_⟩
    · show ((s.fork c item).2.forkAll c items).2.contexts.toList = _
      rw [hall]
      simp
    · show (s.fork c item).1 :: ((s.fork c item).2.forkAll c items).1 = _
      rw [href, hrefs, Array.size_push]
      rfl

/-- Each item has a context of its own in which it is the input. -/
theorem input_forkAll (h : (cs, t) = s.forkAll c items) : cs.length = items.length ∧
    ∀ (j : Nat) (c' : Ref .context), cs[j]? = some c' →
      items[j]? = some (t.get c').input := by
  obtain ⟨xs, hxs, hcontexts, hrefs⟩ := forkAll_eq c items s
  rw [← h] at hcontexts hrefs
  dsimp only at hcontexts hrefs
  refine ⟨by rw [hrefs]; simp, fun j c' hj => ?_⟩
  rw [hrefs, List.getElem?_map, Option.map_eq_some_iff] at hj
  obtain ⟨i, hi, rfl⟩ := hj
  obtain ⟨hlt, hget⟩ := List.getElem?_eq_some_iff.1 hi
  rw [List.getElem_range', Nat.one_mul] at hget
  rw [List.length_range', ← hxs, List.length_map] at hlt
  have hcell : t.contexts[i]? = some xs[j] := by
    rw [← Array.getElem?_toList, hcontexts, ← hget,
      List.getElem?_append_right (by simp), List.getElem?_eq_getElem (by simpa using hlt)]
    simp
  have hget : t.get (⟨i⟩ : Ref .context) = xs[j] := by
    show t.contexts.getD i default = xs[j]
    rw [Array.getD_eq_getD_getElem?, hcell]
    rfl
  rw [hget, ← hxs, List.getElem?_map, List.getElem?_eq_getElem hlt]
  rfl

end Store

/-! ## Items -/

/-- When and how a part has ended, if it has. -/
def Deed.ending : Deed → Ending Value
  | .part _ _ _ _ e => e
  | .remark .. | .ask .. | .fork .. => none

/-- A part is going on at a moment. -/
def Deed.InFlight (x : Deed) (t : Nat) : Prop :=
  x.moment < t ∧ ∀ s o, x.ending = some (s, o) → t ≤ s

namespace Visit

variable {size : Nat} {d x y : Deed} {ds : List Deed} {i j : Nat}

/-- The deed in which an item is run: a part of the fork of its batch. -/
def Item (size : Nat) (ds : List Deed) (i : Nat) (x : Deed) : Prop :=
  ∃ m parts e, ds[i / size]? = some (.fork m .all parts e) ∧ parts[i % size]? = some x

/-- A batch begins: the first one at a given moment, and each other one when the join of the batch
before it is left with results. -/
def Starts (n : Nat) (ds : List Deed) : Nat → Nat → Prop
  | 0, m => m = n
  | k + 1, m => ∃ m' parts vs, ds[k]? = some (.fork m' .all parts (some (m, .ok vs)))

/-- An item is run once. -/
theorem Item.unique (hx : Item size ds i x) (hy : Item size ds i y) : x = y := by
  obtain ⟨m, parts, e, hd, hp⟩ := hx
  obtain ⟨m', parts', e', hd', hp'⟩ := hy
  rw [hd] at hd'
  cases hd'
  rw [hp] at hp'
  cases hp'
  rfl

theorem not_item_nil : ¬Item size [] i x := by
  rintro ⟨m, parts, e, hd, -⟩
  cases hd

/-- The items of the first batch, and the others. -/
theorem item_cons (hsize : 0 < size) {m : Nat} {parts : List Deed} {e : Ending (List Value)} :
    Item size (.fork m .all parts e :: ds) i x ↔
      (i < size ∧ parts[i]? = some x) ∨ (size ≤ i ∧ Item size ds (i - size) x) := by
  rcases Nat.lt_or_ge i size with hi | hi
  · rw [Item, Nat.div_eq_of_lt hi, Nat.mod_eq_of_lt hi]
    constructor
    · rintro ⟨m', parts', e', hd, hp⟩
      cases hd
      exact Or.inl ⟨hi, hp⟩
    · rintro (⟨-, hp⟩ | ⟨hle, -⟩)
      · exact ⟨m, parts, e, rfl, hp⟩
      · omega
  · rw [Item, Nat.div_eq_sub_div hsize hi, Nat.mod_eq_sub_mod hi, List.getElem?_cons_succ]
    constructor
    · intro h
      exact Or.inr ⟨hi, h⟩
    · rintro (⟨hlt, -⟩ | ⟨-, h⟩)
      · omega
      · exact h

theorem Starts.cons {n t m k : Nat} {vs : List Value} {m' : Nat} {parts : List Deed}
    (h : Starts t ds k m) :
    Starts n (.fork m' .all parts (some (t, .ok vs)) :: ds) (k + 1) m := by
  cases k with
  | zero =>
    obtain rfl : m = t := h
    exact ⟨m', parts, vs, rfl⟩
  | succ k => exact h

/-- How one batch goes that begins at a moment. -/
structure Batch (R : Run σ.body) (N : Nat) (w : Ref .workflow) (c : Ref .context)
    (iterator : String) (n : Nat) (items : List Value) (parts : List Deed)
    (e : Ending (List Value)) : Prop where
  length : parts.length = items.length
  run : ∃ cs, (cs, R.store (n + 2)) = (R.store n).forkAll c items ∧
    ∀ (j : Nat) (x : Deed), parts[j]? = some x → ∃ d c' inner, cs[j]? = some c' ∧
      x = .part (n + 2) d (.visit iterator w c') inner x.ending ∧
      Account R σ.desk.call σ.plan N d (n + 3) (.later (σ.plan (.visit iterator w c'))) inner x.ending
  later : ∀ t o, e = some (t, o) → n ≤ t
  prompt : ∀ u ≤ N, (R.moment u).ready = [] →
    (∃ x ∈ parts, ∃ s < u, ∃ f, x.ending = some (s, .error f)) ∨
      (∀ x ∈ parts, ∃ s < u, ∃ o, x.ending = some (s, o)) → ∃ t ≤ u, ∃ o, e = some (t, o)
  ok : ∀ t vs, e = some (t, .ok vs) → vs.length = items.length ∧
    ∀ (j : Nat) (x : Deed), parts[j]? = some x →
      ∃ v s, vs[j]? = some v ∧ s < t ∧ x.ending = some (s, .ok v)
  error : ∀ t f, e = some (t, .error f) → ∃ (j : Nat) (x : Deed) (s : Nat), parts[j]? = some x ∧
    s < t ∧ x.ending = some (s, .error f) ∧ ∀ (j' : Nat) (y : Deed) (s' : Nat) (g : Failure),
      parts[j']? = some y → y.ending = some (s', .error g) → s ≤ s'

end Visit

/-- Items that are waited for are a batch. -/
theorem Visit.Gathers.batch {w : Ref .workflow} {c : Ref .context} {iterator : String}
    {items : List Value} {cs : List (Ref .context)} {e : Ending (List Value)}
    (h : Visit.Gathers R N (n + 2) (cs.map fun c' => .visit iterator w c') ds e)
    (hitems : items ≠ []) (hcs : (cs, R.store (n + 2)) = (R.store n).forkAll c items) :
    ∃ parts, ds = [.fork (n + 2) .all parts e] ∧
      Visit.Batch R N w c iterator n items parts e := by
  obtain ⟨hlen, -⟩ := Store.input_forkAll hcs
  have hps : (cs.map fun c' => Procedure.visit iterator w c') ≠ [] := by
    intro hnil
    rw [List.map_eq_nil_iff.1 hnil] at hlen
    exact hitems (List.eq_nil_of_length_eq_zero hlen.symm)
  obtain ⟨es, hb, hok, herror⟩ := h.branches hps
  obtain ⟨dss, rfl, hrun⟩ := hb.run
  -- The part at a place is the one of the context at that place.
  have hpart : ∀ {j : Nat} {x : Deed}, (Deed.parts (n + 2) (R.newBranch (n + 2))
      (cs.map fun c' => Procedure.visit iterator w c') dss es)[j]? = some x →
      ∃ i : Fin (cs.map fun c' => Procedure.visit iterator w c').length, (i : Nat) = j ∧
        x = .part (n + 2) (R.newBranch (n + 2) + i)
          ((cs.map fun c' => Procedure.visit iterator w c').get i) (dss i) (es i) := by
    intro j x hx
    obtain ⟨hj, hx⟩ := List.getElem?_eq_some_iff.1 hx
    rw [Deed.parts, List.length_ofFn] at hj
    refine ⟨⟨j, hj⟩, rfl, ?_⟩
    rw [← hx]
    simp [Deed.parts]
  have hmem : ∀ i : Fin _, Deed.part (n + 2) (R.newBranch (n + 2) + i)
      ((cs.map fun c' => Procedure.visit iterator w c').get i) (dss i) (es i) ∈
        Deed.parts (n + 2) (R.newBranch (n + 2)) (cs.map fun c' => Procedure.visit iterator w c')
          dss es := fun _ => Deed.mem_parts.2 ⟨_, rfl⟩
  have hlate : ∀ {i : Fin _} {s : Nat} {o : Except Failure Value}, es i = some (s, o) →
      n + 3 ≤ s := fun hi => (hrun _).ending_ge hi
  refine ⟨_, rfl, ⟨by simp [Deed.parts, hlen], ⟨cs, hcs, fun j x hx => ?_⟩, fun t o he => ?_,
    fun u hu hready henough => ?_, fun t vs he => ⟨?_, fun j x hx => ?_⟩, fun t f he => ?_⟩⟩
  · obtain ⟨i, rfl, rfl⟩ := hpart hx
    have hi : (i : Nat) < cs.length := by simpa using i.isLt
    have hget : (cs.map fun c' => Procedure.visit iterator w c').get i =
        .visit iterator w cs[(i : Nat)] := by simp
    refine ⟨_, _, _, List.getElem?_eq_getElem hi, by rw [hget]; rfl, ?_⟩
    have hacc := hrun i
    rw [hget] at hacc
    exact hacc
  · cases o with
    | ok vs =>
      obtain ⟨-, hall⟩ := hok t vs he
      obtain ⟨v, -, s, hs, hi⟩ := hall ⟨0, List.length_pos_of_ne_nil hps⟩
      have := hlate hi
      omega
    | error f =>
      obtain ⟨i, s, hs, hi, -⟩ := herror t f he
      have := hlate hi
      omega
  · rcases henough with ⟨x, hx, s, hs, f, hf⟩ | hall
    · obtain ⟨i, rfl⟩ := Deed.mem_parts.1 hx
      have := hlate hf
      exact hb.prompt u (by omega) hu hready (Or.inl ⟨i, s, hs, f, hf⟩)
    · obtain ⟨s, hs, o, ho⟩ := hall _ (hmem ⟨0, List.length_pos_of_ne_nil hps⟩)
      have := hlate ho
      exact hb.prompt u (by omega) hu hready (Or.inr fun i => hall _ (hmem i))
  · rw [(hok t vs he).1, List.length_map, hlen]
  · obtain ⟨i, rfl, rfl⟩ := hpart hx
    obtain ⟨v, hv, s, hs, hi⟩ := (hok t vs he).2 i
    exact ⟨v, s, hv, hs, hi⟩
  · obtain ⟨i, s, hs, hi, hfirst⟩ := herror t f he
    refine ⟨i, _, s, List.getElem?_eq_getElem (by simpa [Deed.parts] using i.isLt), hs, ?_,
      fun j' y s' g hy hy' => ?_⟩
    · simp [Deed.parts, Deed.ending, hi]
    · obtain ⟨i', rfl, rfl⟩ := hpart hy
      exact hfirst i' s' g hy'

namespace Visit

/-- An item is forked at the beginning of its batch, with the other items of the batch, and started
with them in the context that has it as the input. -/
def Forked (R : Run σ.body) (N : Nat) (w : Ref .workflow) (c : Ref .context) (iterator : String)
    (size n : Nat) (xs : List Value) (ds : List Deed) (i : Nat) (x : Deed) : Prop :=
  ∃ (m : Nat) (cs : List (Ref .context)) (d : Nat) (c' : Ref .context) (inner : List Deed),
    Starts n ds (i / size) m ∧
    (cs, R.store (m + 2)) = (R.store m).forkAll c ((xs.drop (i / size * size)).take size) ∧
    cs[i % size]? = some c' ∧ xs[i]? = some ((R.store (m + 2)).get c').input ∧
    x = .part (m + 2) d (.visit iterator w c') inner x.ending ∧
    Account R σ.desk.call σ.plan N d (m + 3) (.later (σ.plan (.visit iterator w c'))) inner x.ending

/-- An item ends after it has been forked. -/
theorem Forked.ended {w : Ref .workflow} {c : Ref .context} {iterator : String} {xs : List Value}
    {s : Nat} {o : Except Failure Value} (h : Forked R N w c iterator size n xs ds i x)
    (hx : x.ending = some (s, o)) : x.moment < s := by
  obtain ⟨m, cs, d, c', inner, -, -, -, -, hpart, hacc⟩ := h
  have hlate := hacc.ending_ge hx
  rw [hpart]
  exact hlate

/-- How a map step runs its items, from a moment on. -/
structure Maps (R : Run σ.body) (N : Nat) (w : Ref .workflow) (c : Ref .context)
    (iterator : String) (size n : Nat) (xs : List Value) (ds : List Deed) (e : Ending (List Value)) :
    Prop where
  run : ∀ {i x}, Item size ds i x → Forked R N w c iterator size n xs ds i x
  later : ∀ {i x}, Item size ds i x → n ≤ x.moment
  /-- With an item all others of its batch are run, and all of the batches before have succeeded. -/
  before : ∀ {j y}, Item size ds j y → ∀ i < xs.length, i / size ≤ j / size →
    ∃ x, Item size ds i x ∧
      (i / size < j / size → ∃ s v, x.ending = some (s, .ok v) ∧ s < y.moment)
  ends : ∀ t o, e = some (t, o) → n ≤ t
  /-- It takes no more than a failure, or else the success of all items, and then no time. -/
  prompt : ∀ u ≤ N, n ≤ u → (R.moment u).ready = [] →
    (∃ (i : Nat) (x : Deed) (s : Nat) (f : Failure), Item size ds i x ∧ s < u ∧
      x.ending = some (s, .error f)) ∨
    (∀ i < xs.length, ∃ (x : Deed) (s : Nat) (v : Value), Item size ds i x ∧ s < u ∧
      x.ending = some (s, .ok v)) → ∃ t ≤ u, ∃ o, e = some (t, o)
  /-- The results are those of the items, in their order. -/
  ok : ∀ t vs, e = some (t, .ok vs) → vs.length = xs.length ∧ ∀ (i : Nat) (v : Value),
    vs[i]? = some v → ∃ x s, Item size ds i x ∧ s < t ∧ x.ending = some (s, .ok v)
  /-- A failure is that of the item that failed first. -/
  error : ∀ t f, e = some (t, .error f) → ∃ (i : Nat) (x : Deed) (s : Nat), Item size ds i x ∧
    s < t ∧ x.ending = some (s, .error f) ∧ ∀ (j : Nat) (y : Deed) (s' : Nat) (g : Failure),
      Item size ds j y → y.ending = some (s', .error g) → s ≤ s'

variable {w : Ref .workflow} {c : Ref .context} {iterator : String} {size : Nat} {xs : List Value}
  {e : Ending (List Value)}

/-- Nothing has been begun. -/
theorem maps_none (hxs : xs ≠ []) : Maps R N w c iterator size n xs [] none where
  run h := absurd h not_item_nil
  later h := absurd h not_item_nil
  before h := absurd h not_item_nil
  ends _ _ h := by cases h
  prompt u _ _ _ h := by
    rcases h with ⟨i, x, s, f, hx, -⟩ | hall
    · exact absurd hx not_item_nil
    · obtain ⟨x, s, v, hx, -⟩ := hall 0 (List.length_pos_of_ne_nil hxs)
      exact absurd hx not_item_nil
  ok _ _ h := by cases h
  error _ _ h := by cases h

theorem maps_nil : Maps R N w c iterator size n [] [] (some (n, .ok [])) where
  run h := absurd h not_item_nil
  later h := absurd h not_item_nil
  before h := absurd h not_item_nil
  ends t o h := by
    cases h
    exact le_rfl
  prompt u _ hu _ _ := ⟨n, hu, _, rfl⟩
  ok t vs h := by
    cases h
    exact ⟨rfl, fun i v hv => by cases hv⟩
  error t f h := by cases h

namespace Batch

variable {parts : List Deed} {e' : Ending (List Value)} {x : Deed} {i : Nat}

theorem forked (hb : Batch R N w c iterator n (xs.take size) parts e) (hi : i < size)
    (hx : parts[i]? = some x) (ds : List Deed) :
    Forked R N w c iterator size n xs ds i x := by
  obtain ⟨cs, hcs, hrun⟩ := hb.run
  obtain ⟨d, c', inner, hc', hpart, hacc⟩ := hrun i x hx
  have hinput := (Store.input_forkAll hcs).2 i c' hc'
  rw [List.getElem?_take_of_lt hi] at hinput
  refine ⟨n, cs, d, c', inner, ?_, ?_, ?_, hinput, hpart, hacc⟩
  · rw [Nat.div_eq_of_lt hi]
    rfl
  · rw [Nat.div_eq_of_lt hi, Nat.zero_mul, List.drop_zero]
    exact hcs
  · rw [Nat.mod_eq_of_lt hi]
    exact hc'

theorem moment_eq (hb : Batch R N w c iterator n (xs.take size) parts e)
    (hx : parts[i]? = some x) : x.moment = n + 2 := by
  obtain ⟨cs, -, hrun⟩ := hb.run
  obtain ⟨d, c', inner, -, hpart, -⟩ := hrun i x hx
  rw [hpart]
  rfl

end Batch

/-- A batch that is not left with results is the last one. -/
theorem Batch.alone (hsize : 0 < size) {parts : List Deed}
    (hb : Batch R N w c iterator n (xs.take size) parts e)
    (hno : ∀ t vs, e ≠ some (t, .ok vs)) :
    Maps R N w c iterator size n xs [.fork (n + 2) .all parts e] e := by
  have hlen : parts.length = min size xs.length := by rw [hb.length, List.length_take]
  have hitem : ∀ {i : Nat} {x : Deed}, Item size [.fork (n + 2) .all parts e] i x →
      i < size ∧ parts[i]? = some x := by
    intro i x hx
    exact ((item_cons hsize).1 hx).resolve_right fun h => not_item_nil h.2
  have hplace : ∀ {i : Nat} {x : Deed}, parts[i]? = some x →
      Item size [.fork (n + 2) .all parts e] i x := by
    intro i x hx
    have hi := (List.getElem?_eq_some_iff.1 hx).1
    exact (item_cons hsize).2 (Or.inl ⟨by omega, hx⟩)
  refine ⟨fun hx => ?_, fun hx => ?_, fun hy i hi hle => ?_, hb.later, fun u hu _ hready h => ?_,
    fun t vs he => ?_, fun t f he => ?_⟩
  · exact hb.forked (hitem hx).1 (hitem hx).2 _
  · rw [hb.moment_eq (hitem hx).2]
    omega
  · rw [Nat.div_eq_of_lt (hitem hy).1, Nat.le_zero, Nat.div_eq_zero_iff_lt hsize] at hle
    refine ⟨_, hplace (List.getElem?_eq_getElem (by omega)), fun hlt => ?_⟩
    rw [Nat.div_eq_of_lt (hitem hy).1] at hlt
    exact absurd hlt (Nat.not_lt_zero _)
  · refine hb.prompt u hu hready ?_
    rcases h with ⟨i, x, s, f, hx, hs, hf⟩ | hall
    · exact Or.inl ⟨x, List.mem_of_getElem? (hitem hx).2, s, hs, f, hf⟩
    · refine Or.inr fun x hx => ?_
      obtain ⟨i, hi, rfl⟩ := List.mem_iff_getElem.1 hx
      obtain ⟨y, s, v, hy, hs, hv⟩ := hall i (by omega)
      rw [(List.getElem_eq_iff hi).2 (hitem hy).2]
      exact ⟨s, hs, _, hv⟩
  · exact absurd he (hno t vs)
  · obtain ⟨j, x, s, hx, hs, hend, hfirst⟩ := hb.error t f he
    exact ⟨j, x, s, hplace hx, hs, hend, fun j' y s' g hy => hfirst j' y s' g (hitem hy).2⟩

/-- An item of a later batch, seen from the first one. -/
theorem Forked.cons (hsize : 0 < size) {m : Nat} {parts : List Deed} {vs : List Value} {i : Nat}
    {x : Deed} (hi : size ≤ i) (h : Forked R N w c iterator size t (xs.drop size) ds (i - size) x) :
    Forked R N w c iterator size n xs (.fork m .all parts (some (t, .ok vs)) :: ds) i x := by
  obtain ⟨m', cs, d, c', inner, hstarts, hcs, hc', hinput, hpart, hacc⟩ := h
  refine ⟨m', cs, d, c', inner, ?_, ?_, ?_, ?_, hpart, hacc⟩
  · rw [Nat.div_eq_sub_div hsize hi]
    exact hstarts.cons
  · rw [List.drop_drop] at hcs
    rw [Nat.div_eq_sub_div hsize hi, Nat.succ_mul, Nat.add_comm _ size]
    exact hcs
  · rw [Nat.mod_eq_sub_mod hi]
    exact hc'
  · rw [List.getElem?_drop, Nat.add_sub_cancel' hi] at hinput
    exact hinput

/-- Behind a batch that is left with results go the others. -/
theorem Batch.follow (hsize : 0 < size) {parts : List Deed} {vs : List Value}
    (hb : Batch R N w c iterator n (xs.take size) parts (some (t, .ok vs)))
    (hm : Maps R N w c iterator size t (xs.drop size) ds e) :
    Maps R N w c iterator size n xs (.fork (n + 2) .all parts (some (t, .ok vs)) :: ds)
      (e.map fun y => (y.1, y.2.map (vs ++ ·))) := by
  have hlen : parts.length = min size xs.length := by rw [hb.length, List.length_take]
  have hvs : vs.length = min size xs.length := by rw [(hb.ok t vs rfl).1, List.length_take]
  have hnt : n ≤ t := hb.later t _ rfl
  have hcases : ∀ {i : Nat} {x : Deed},
      Item size (.fork (n + 2) .all parts (some (t, .ok vs)) :: ds) i x ↔
        (i < size ∧ parts[i]? = some x) ∨ (size ≤ i ∧ Item size ds (i - size) x) :=
    item_cons hsize
  have hdone : ∀ {i : Nat} {x : Deed}, parts[i]? = some x →
      ∃ v s, vs[i]? = some v ∧ s < t ∧ x.ending = some (s, .ok v) := fun {i x} hx =>
    (hb.ok t vs rfl).2 i x hx
  refine ⟨fun {i x} hx => ?_, fun {i x} hx => ?_, fun {j y} hy i hi hle => ?_, fun t' o he => ?_,
    fun u hu hnu hready h => ?_, fun t' vs' he => ?_, fun t' f he => ?_⟩
  · rcases hcases.1 hx with ⟨hi, hp⟩ | ⟨hi, hx⟩
    · exact hb.forked hi hp _
    · exact (hm.run hx).cons hsize hi
  · rcases hcases.1 hx with ⟨hi, hp⟩ | ⟨hi, hx⟩
    · rw [hb.moment_eq hp]
      omega
    · exact hnt.trans (hm.later hx)
  · rcases Nat.lt_or_ge i size with hlt | hge
    -- An item of the first batch: it has succeeded when another batch has begun.
    · have hp : parts[i]? = some parts[i] := List.getElem?_eq_getElem (by omega)
      obtain ⟨v, s, -, hs, hend⟩ := hdone hp
      refine ⟨_, hcases.2 (Or.inl ⟨hlt, hp⟩), fun hij => ⟨s, v, hend, ?_⟩⟩
      rcases hcases.1 hy with ⟨hj, -⟩ | ⟨-, hy⟩
      · rw [Nat.div_eq_of_lt hj] at hij
        exact absurd hij (Nat.not_lt_zero _)
      · exact hs.trans_le (hm.later hy)
    · rcases hcases.1 hy with ⟨hj, -⟩ | ⟨hj, hy⟩
      · rw [Nat.div_eq_of_lt hj, Nat.le_zero, Nat.div_eq_zero_iff_lt hsize] at hle
        omega
      · rw [Nat.div_eq_sub_div hsize hge, Nat.div_eq_sub_div hsize hj] at hle ⊢
        obtain ⟨x, hx, hover⟩ := hm.before hy (i - size) (by rw [List.length_drop]; omega) (by omega)
        exact ⟨x, hcases.2 (Or.inr ⟨hge, hx⟩), fun hij => hover (by omega)⟩
  · obtain ⟨⟨t₂, o₂⟩, rfl, hmap⟩ := Option.map_eq_some_iff.1 he
    cases hmap
    exact hnt.trans (hm.ends _ _ rfl)
  · suffices hrest : ∃ t' ≤ u, ∃ o, e = some (t', o) by
      obtain ⟨t', ht', o, rfl⟩ := hrest
      exact ⟨t', ht', _, rfl⟩
    rcases h with ⟨i, x, s, f, hx, hs, hf⟩ | hall
    -- Only an item of a later batch can have failed.
    · rcases hcases.1 hx with ⟨-, hp⟩ | ⟨-, hx⟩
      · obtain ⟨v, s', -, -, hv⟩ := hdone hp
        rw [hf] at hv
        cases hv
      · have hlate := (hm.later hx).trans_lt ((hm.run hx).ended hf)
        exact hm.prompt u hu (by omega) hready (Or.inl ⟨_, x, s, f, hx, hs, hf⟩)
    · obtain ⟨t₁, ht₁, o, ho⟩ := hb.prompt u hu hready (Or.inr fun x hx => by
        obtain ⟨i, hi, rfl⟩ := List.mem_iff_getElem.1 hx
        obtain ⟨y, s, v, hy, hs, hv⟩ := hall i (by omega)
        rcases hcases.1 hy with ⟨-, hp⟩ | ⟨hge, -⟩
        · rw [(List.getElem_eq_iff hi).2 hp]
          exact ⟨s, hs, _, hv⟩
        · omega)
      cases ho
      refine hm.prompt u hu ht₁ hready (Or.inr fun i hi => ?_)
      rw [List.length_drop] at hi
      obtain ⟨y, s, v, hy, hs, hv⟩ := hall (i + size) (by omega)
      rcases hcases.1 hy with ⟨hlt, -⟩ | ⟨-, hy⟩
      · omega
      · rw [Nat.add_sub_cancel] at hy
        exact ⟨y, s, v, hy, hs, hv⟩
  · obtain ⟨⟨t₂, o₂⟩, rfl, hmap⟩ := Option.map_eq_some_iff.1 he
    cases o₂ with
    | error f => cases hmap
    | ok vs₂ =>
      cases hmap
      obtain ⟨hlen₂, hall⟩ := hm.ok _ _ rfl
      rw [List.length_drop] at hlen₂
      refine ⟨by rw [List.length_append]; omega, fun i v hv => ?_⟩
      rcases Nat.lt_or_ge i vs.length with hlt | hge
      · rw [List.getElem?_append_left hlt] at hv
        have hp : parts[i]? = some parts[i] := List.getElem?_eq_getElem (by omega)
        obtain ⟨v', s, hv', hs, hend⟩ := hdone hp
        rw [hv] at hv'
        cases hv'
        exact ⟨_, s, hcases.2 (Or.inl ⟨by omega, hp⟩), hs.trans_le (hm.ends _ _ rfl), hend⟩
      · rw [List.getElem?_append_right hge] at hv
        have hlt₂ := (List.getElem?_eq_some_iff.1 hv).1
        obtain rfl : size = vs.length := by omega
        obtain ⟨x, s, hx, hs, hend⟩ := hall _ v hv
        exact ⟨x, s, hcases.2 (Or.inr ⟨hge, hx⟩), hs, hend⟩
  · obtain ⟨⟨t₂, o₂⟩, rfl, hmap⟩ := Option.map_eq_some_iff.1 he
    cases o₂ with
    | ok vs₂ => cases hmap
    | error g =>
      cases hmap
      obtain ⟨i, x, s, hx, hs, hend, hfirst⟩ := hm.error _ _ rfl
      refine ⟨i + size, x, s, hcases.2 (Or.inr ⟨by omega, by rwa [Nat.add_sub_cancel]⟩), hs, hend,
        fun j y s' g' hy hy' => ?_⟩
      rcases hcases.1 hy with ⟨hj, hp⟩ | ⟨-, hy⟩
      · obtain ⟨v, s₁, -, -, hend'⟩ := hdone hp
        rw [hy'] at hend'
        cases hend'
      · exact hfirst _ y s' g' hy hy'

namespace Maps

variable {i j : Nat} {x y : Deed}

theorem lt_length (h : Maps R N w c iterator size n xs ds e) (hx : Item size ds i x) :
    i < xs.length := by
  obtain ⟨m, cs, d, c', inner, -, -, -, hinput, -⟩ := h.run hx
  exact (List.getElem?_eq_some_iff.1 hinput).1

/-- When an item is begun, the items of the batches before have succeeded. -/
theorem succeeded (h : Maps R N w c iterator size n xs ds e) (hx : Item size ds i x)
    (hy : Item size ds j y) (hij : i / size < j / size) :
    ∃ s v, x.ending = some (s, .ok v) ∧ s < y.moment := by
  obtain ⟨x', hx', hdone⟩ := h.before hy i (h.lt_length hx) hij.le
  rw [hx.unique hx']
  exact hdone hij

/-- Behind a failure no batch begins. -/
theorem stops (h : Maps R N w c iterator size n xs ds e) (hx : Item size ds i x) {s : Nat}
    {f : Failure} (hf : x.ending = some (s, .error f)) (hy : Item size ds j y) :
    j / size ≤ i / size := by
  by_contra hlt
  obtain ⟨s', v, hv, -⟩ := h.succeeded hx hy (Nat.lt_of_not_le hlt)
  rw [hf] at hv
  cases hv

/-- Items in flight are of one batch. -/
theorem batch_le (h : Maps R N w c iterator size n xs ds e) (hx : Item size ds i x)
    (hi : x.InFlight t) (hy : Item size ds j y) (hj : y.InFlight t) : j / size ≤ i / size := by
  by_contra hlt
  obtain ⟨s, v, hv, hs⟩ := h.succeeded hx hy (Nat.lt_of_not_le hlt)
  exact absurd (hi.2 _ _ hv) (Nat.not_le_of_lt (hs.trans hj.1))

/-- **At no moment are more items in flight than a batch has**, those included that are left behind. -/
theorem flight (hsize : 0 < size) (h : Maps R N w c iterator size n xs ds e) {is : Finset Nat}
    (his : ∀ i ∈ is, ∃ x, Item size ds i x ∧ x.InFlight t) : is.card ≤ size := by
  rw [← Finset.card_range size]
  -- Within a batch, the place tells the items apart.
  refine Finset.card_le_card_of_injOn (· % size)
    (fun i _ => Finset.mem_coe.2 (Finset.mem_range.2 (Nat.mod_lt i hsize)))
    fun i hi j hj hmod => ?_
  obtain ⟨x, hx, hxt⟩ := his i hi
  obtain ⟨y, hy, hyt⟩ := his j hj
  have hdiv : i / size = j / size :=
    le_antisymm (h.batch_le hy hyt hx hxt) (h.batch_le hx hxt hy hyt)
  rw [← Nat.div_add_mod i size, ← Nat.div_add_mod j size, hdiv]
  exact congrArg _ hmod

end Maps

end Visit

namespace Account

variable {w : Ref .workflow} {c : Ref .context} {iterator : String} {size : Nat} {xs : List Value}
  {e : Ending (List Value)} {g : Except Failure (List Value) → Routine Value}

/-- Before the contexts of a batch have been made, nothing has been begun. -/
theorem batch_unbegun {items : List Value}
    (h : Account R σ.desk.call σ.plan N b n (.now (plain ((σ.scene w c).runBatch iterator items)))
      ds e) (hn : n ≤ N) (hN : N ≤ n + 2)
    (hr : (Stretch.now (plain ((σ.scene w c).runBatch iterator items))).Runs R σ.desk.call b n g) :
    ds = [] ∧ e = none := by
  rw [Scene.runBatch, Outline.plain_bind] at h hr
  have hfork := Routine.eval_modifyGet (fun s : Store => s.forkAll c items) (R.store n)
  obtain ⟨g', -, ⟨ds₁, t, cs, ds₂, h₁, ht, h₂, -, rfl⟩ | ⟨t, f, h₁, rfl⟩ | ⟨h₁, rfl⟩⟩ :=
    h.bind_runs σ.erase_plan hn hr
  · obtain ⟨rfl, he | ⟨he, -⟩⟩ := h₁.straight hfork
    · cases he
    · cases he
      obtain rfl : N = n + 2 := le_antisymm hN ht
      cases h₂ with
      | stop => exact ⟨rfl, rfl⟩
      | skip _ hn | fork _ _ _ hn | forking _ _ hn => omega
  · obtain ⟨-, he | ⟨he, -⟩⟩ := h₁.straight hfork <;> cases he
  · exact ⟨(h₁.straight hfork).1, rfl⟩

/-- The batches of a map step, one after another. -/
theorem maps (hsize : 0 < size) {fuel : Nat} (hfuel : xs.length ≤ fuel)
    (h : Account R σ.desk.call σ.plan N b n
      (.now (plain ((σ.scene w c).runBatches iterator (Scene.batches size fuel xs)))) ds e)
    (hn : n ≤ N)
    (hr : (Stretch.now (plain ((σ.scene w c).runBatches iterator
      (Scene.batches size fuel xs)))).Runs R σ.desk.call b n g)
    (hc : Deed.Calm ds) : Visit.Maps R N w c iterator size n xs ds e := by
  -- Induction on the items that are left.
  induction fuel generalizing n xs ds e g with
  | zero =>
    obtain rfl : xs = [] := List.eq_nil_of_length_eq_zero (by omega)
    obtain ⟨rfl, rfl⟩ := h.done_iff
    exact Visit.maps_nil
  | succ fuel ih =>
    by_cases hxs : xs = []
    · subst hxs
      obtain ⟨rfl, rfl⟩ := h.done_iff
      exact Visit.maps_nil
    have hbatches : Scene.batches size (fuel + 1) xs =
        xs.take size :: Scene.batches size fuel (xs.drop size) := by
      cases xs with
      | nil => exact absurd rfl hxs
      | cons x xs => rfl
    have htake : xs.take size ≠ [] := by
      rw [Ne, List.take_eq_nil_iff, not_or]
      exact ⟨by omega, hxs⟩
    have hfirst : ∀ {ds₁ e₁ g₁}, Account R σ.desk.call σ.plan N b n
        (.now (plain ((σ.scene w c).runBatch iterator (xs.take size)))) ds₁ e₁ →
        (Stretch.now (plain ((σ.scene w c).runBatch iterator (xs.take size)))).Runs R σ.desk.call b
          n g₁ → Deed.Calm ds₁ → (ds₁ = [] ∧ e₁ = none) ∨ ∃ parts,
            ds₁ = [.fork (n + 2) .all parts e₁] ∧
              Visit.Batch R N w c iterator n (xs.take size) parts e₁ := by
      intro ds₁ e₁ g₁ h₁ hr₁ hc₁
      rcases Nat.lt_or_ge (n + 2) N with hlt | hge
      · obtain ⟨cs, hcs, hgathers⟩ := h₁.gathers_batch hlt ((Stretch.runs_plain _).1 hr₁) hc₁
        exact Or.inr (hgathers.batch htake hcs)
      · exact Or.inl (h₁.batch_unbegun hn hge hr₁)
    rw [hbatches, Scene.runBatches, Outline.plain_bind] at h hr
    obtain ⟨g₁, hr₁, ⟨ds₁, t, vs, ds₂, h₁, ht, h₂, hr₂, rfl⟩ | ⟨t, f, h₁, rfl⟩ | ⟨h₁, rfl⟩⟩ :=
      h.bind_runs σ.erase_plan hn hr
    · rcases hfirst h₁ hr₁ hc.append.1 with ⟨-, he⟩ | ⟨parts, rfl, hb⟩
      · cases he
      rw [Outline.plain_bind] at h₂ hr₂
      -- The results of the other batches are put behind those of the first one.
      obtain ⟨g₂, hr₃, ⟨ds₃, t', ws, ds₄, h₃, -, h₄, -, rfl⟩ | ⟨t', f, h₃, rfl⟩ | ⟨h₃, rfl⟩⟩ :=
        h₂.bind_runs σ.erase_plan ht hr₂
      · obtain ⟨rfl, rfl⟩ := h₄.done_iff
        rw [List.append_nil] at hc ⊢
        exact hb.follow hsize (ih (by rw [List.length_drop]; omega) h₃ ht hr₃ hc.append.2)
      · exact hb.follow hsize (ih (by rw [List.length_drop]; omega) h₃ ht hr₃ hc.append.2)
      · exact hb.follow hsize (ih (by rw [List.length_drop]; omega) h₃ ht hr₃ hc.append.2)
    · rcases hfirst h₁ hr₁ hc with ⟨-, he⟩ | ⟨parts, rfl, hb⟩
      · cases he
      · exact hb.alone hsize (by simp)
    · rcases hfirst h₁ hr₁ hc with ⟨rfl, -⟩ | ⟨parts, rfl, hb⟩
      · exact Visit.maps_none hxs
      · exact hb.alone hsize (by simp)

end Account

theorem Visit.Scene.batchSize_pos (τ : Scene) (concurrency : Option Int) :
    0 < τ.batchSize concurrency := by
  unfold Scene.batchSize
  split
  · split
    · omega
    · exact τ.settings.mapConcurrency_pos
  · exact τ.settings.mapConcurrency_pos

namespace Workflow

/-- **Batches of a map step.** An item is forked and started with its batch, in a context in which it is
the input, when all items of the batches before have succeeded. At no moment are more items in flight
than a batch has, those included that a failure has left behind. The results are those of the items in
their order. Behind a failure no batch begins, and the step fails with the failure that came first. -/
theorem map_batches {w : Ref .workflow} {c : Ref .context} {step : Step} {items : Items}
    {iterator : String} {concurrency : Option Int} {xs : List Value} {e : Ending Value}
    {g : Except Failure Value → Routine Value} (hn : n < N)
    (hk : step.kind = .map items iterator concurrency)
    (hitems : (σ.scene w c).itemsOf items (R.store n) = .ok xs)
    (h : Account R σ.desk.call σ.plan N b n (.now (dispatch (σ.scene w c) step)) ds e)
    (hr : (R.moment n).active = some (b, ((σ.scene w c).dispatch step).thenOn g))
    (hc : Deed.Calm ds) :
    ∃ e', Visit.Maps R N w c iterator ((σ.scene w c).batchSize concurrency) (n + 1) xs ds e' ∧
      Visit.Lists R N e' e ∧
      (∀ (t : Nat) (is : Finset Nat), (∀ i ∈ is, ∃ x,
        Visit.Item ((σ.scene w c).batchSize concurrency) ds i x ∧ x.InFlight t) →
          is.card ≤ (σ.scene w c).batchSize concurrency) ∧
      ∀ (i j s : Nat) (x y : Deed) (f : Failure),
        Visit.Item ((σ.scene w c).batchSize concurrency) ds i x → x.ending = some (s, .error f) →
        Visit.Item ((σ.scene w c).batchSize concurrency) ds j y →
          j / (σ.scene w c).batchSize concurrency ≤ i / (σ.scene w c).batchSize concurrency := by
  have hsize := (σ.scene w c).batchSize_pos concurrency
  suffices hmaps : ∃ e',
      Visit.Maps R N w c iterator ((σ.scene w c).batchSize concurrency) (n + 1) xs ds e' ∧
        Visit.Lists R N e' e by
    obtain ⟨e', hm, hl⟩ := hmaps
    exact ⟨e', hm, hl, fun t is => hm.flight hsize, fun i j s x y f hx hf hy => hm.stops hx hf hy⟩
  have houtline : dispatch (σ.scene w c) step =
      plain ((σ.scene w c).map items iterator concurrency) := by
    rw [dispatch, hk]
  have hdispatch : (σ.scene w c).dispatch step = (σ.scene w c).map items iterator concurrency := by
    rw [Scene.dispatch, hk]
  rw [hdispatch] at hr
  have hruns := (Stretch.runs_plain σ.desk.call).2 hr
  rw [houtline] at h
  rw [Scene.map, Outline.plain_bind] at h hruns
  have hquery := Routine.eval_query_ok hitems
  obtain ⟨g₁, -, ⟨ds₁, t, vs, ds₂, h₁, ht, h₂, hr₂, rfl⟩ | ⟨t, f, h₁, -⟩ | ⟨h₁, -⟩⟩ :=
    h.bind_runs σ.erase_plan hn.le hruns
  · obtain ⟨rfl, he | ⟨he, -⟩⟩ := h₁.straight hquery
    · cases he
    · cases he
      rw [Outline.plain_bind] at h₂ hr₂
      obtain ⟨g₂, hr₃, ⟨ds₃, t', ws, ds₄, h₃, -, h₄, -, rfl⟩ | ⟨t', f, h₃, rfl⟩ | ⟨h₃, rfl⟩⟩ :=
        h₂.bind_runs σ.erase_plan ht hr₂
      · rw [(h₄.straight (Routine.eval_modifyGet _ _)).1, List.append_nil] at hc ⊢
        exact ⟨_, h₃.maps hsize le_rfl ht hr₃ hc, h₄.lists⟩
      · exact ⟨_, h₃.maps hsize le_rfl ht hr₃ hc, Visit.lists_error⟩
      · exact ⟨_, h₃.maps hsize le_rfl ht hr₃ hc, Visit.lists_none⟩
  · cases h₁.straight_over hquery hn
  · cases h₁.straight_over hquery hn

/-- A step that runs a step for three items, at most two of them side by side. -/
def listStep : Step := ⟨"each", .map (.literal (.names ["x", "y", "z"])) "work" (some 2), .none⟩

/-- The third item waits for the first two. -/
theorem map_batches_list : ∃ ds t o e',
    Account (sideRun listStep) slowSetup.desk.call slowSetup.plan 150 0 1
      (.now (dispatch (slowSetup.scene ⟨0⟩ ⟨0⟩) listStep)) ds (some (t, o)) ∧
    Visit.Maps (sideRun listStep) 150 ⟨0⟩ ⟨0⟩ "work" 2 2 [.text "x", .text "y", .text "z"] ds e' ∧
    Visit.Lists (sideRun listStep) 150 e' (some (t, o)) := by
  obtain ⟨ds, t, o, h, hc⟩ := sideRun_account listStep (N := 150) (by decide) (by decide +kernel)
  obtain ⟨e', hm, hl, -⟩ := map_batches (σ := slowSetup) (R := sideRun listStep) (by decide) rfl
    (by rfl) h (congrArg some (congrArg (Prod.mk 0) (Routine.thenOn_ofOutcome _).symm)) hc
  exact ⟨ds, t, o, e', h, hm, hl⟩

end Workflow

end Conductor
