import Conductor.Proofs.Store.Comparing

/-!
# Laws of paths

Paths into nested dictionaries obey the laws of a lens. What has been written at a path is read there,
a second write at it takes the place of the first one, and at paths of which none leads through the
other, writes do not disturb reads nor each other.

**Failures.** A write fails if and only if a dictionary would have to be made where something else is
(`setPath_error_iff`). It is told before anything has been made on the way (`writeGoing_eq`): once a
dictionary is missing, so is everything behind it, and nothing can be in the way any more.

**Order.** Two writes that share a part of their ways make dictionaries for each other. In another
order they make them in another order, so the stores differ in which dictionary is which; what the
target holds does not differ (`Same`).

**Theorem (`path_laws`).** All of this for every target that is a tree of dictionaries, with any values
at its leaves.
-/

namespace Conductor

namespace Path

theorem splitDots_append (cs ds : List Char) :
    splitDots (cs ++ '.' :: ds) = splitDots cs ++ splitDots ds := by
  induction cs with
  | nil => rfl
  | cons c cs ih =>
    by_cases hc : c = '.'
    · simp only [List.cons_append, splitDots, if_pos hc, ih]
    · obtain ⟨p, ps, hp⟩ := List.exists_cons_of_ne_nil (splitDots_ne_nil cs)
      simp only [List.cons_append, splitDots, if_neg hc, ih, hp]

/-- The segments of a path behind a path are those of both. -/
theorem segments_append (p q : String) : segments (p ++ "." ++ q) = segments p ++ segments q := by
  have hlist : (p ++ "." ++ q).toList = p.toList ++ '.' :: q.toList := by
    simp [String.toList_append]
  rw [segments, hlist, splitDots_append, List.map_append]
  rfl

end Path

namespace Store

variable {s t u : Store} {o node : Ref .dict} {v w x : Value} {path : String}
  {ts : List (List String)} {a p q keys walked : List String}

/-! ## Targets -/

/-- A tree of dictionaries with other values at its leaves. Everything in it is there, no dictionary is
met at two places, and no leaf leads back to a dictionary of the tree. -/
structure Treelike (s : Store) (o : Ref .dict) : Prop where
  there : Clear (fun _ => False) s (.dict o)
  single : ∀ p q r, s.walk (.dict o) p = some (.dict r) → s.walk (.dict o) q = some (.dict r) → p = q
  leaves : ∀ q x, s.walk (.dict o) q = some x → (∀ r, x ≠ .dict r) → ∀ p r,
    s.walk (.dict o) p = some (.dict r) → ¬ Relation.ReflTransGen s.Leads x (.dict r)

/-- On the way along a row of keys there is a value that is neither nothing nor a dictionary, before the
way has come to its end. -/
def Blocked (s : Store) (node : Ref .dict) (keys : List String) : Prop :=
  ∃ p x, p ≠ [] ∧ p <+: keys ∧ p ≠ keys ∧ s.walk (.dict node) p = some x ∧ x ≠ .null ∧
    ∀ r, x ≠ .dict r

theorem leads_of_walk (h : s.walk v q = some x) : Relation.ReflTransGen s.Leads v x := by
  induction q generalizing v with
  | nil =>
    cases h
    exact .refl
  | cons key q ih =>
    obtain ⟨w, hw, hx⟩ := Option.bind_eq_some_iff.1 h
    obtain ⟨r, rfl, hg⟩ := entry?_eq_some.1 hw
    exact .head (.entry rfl (Entries.mem_of_get? hg)) (ih hx)

theorem Treelike.clear (h : Treelike s o) (hx : s.walk (.dict o) q = some x) :
    Clear (fun _ => False) s x := fun y hy => h.there y ((leads_of_walk hx).trans hy)

theorem Treelike.inside (h : Treelike s o) {r : Ref .dict}
    (hr : s.walk (.dict o) q = some (.dict r)) : r.index < s.dicts.size := (h.clear hr).stands

/-- In an empty dictionary nothing is found but itself and its own attributes. -/
theorem leads_empty (hempty : s.get o = []) (hw : Relation.ReflTransGen s.Leads (.dict o) w) :
    w = .dict o ∨ w.isPlain = true := by
  rcases hw.cases_head with rfl | ⟨x, hx, hw⟩
  · exact Or.inl rfl
  · refine Or.inr (plain_of_leads ?_ hw).2
    cases hx with
    | entry hm he =>
      cases hm
      exact absurd (hempty ▸ he) List.not_mem_nil
    | item hm => cases hm
    | field key => rfl

theorem walk_empty (hempty : s.get o = []) (hx : s.walk (.dict o) q = some x) :
    q = [] ∧ x = .dict o := by
  cases q with
  | nil =>
    cases hx
    exact ⟨rfl, rfl⟩
  | cons key q =>
    obtain ⟨w, hw, -⟩ := Option.bind_eq_some_iff.1 hx
    obtain ⟨r, hr, hg⟩ := entry?_eq_some.1 hw
    cases hr
    rw [hempty] at hg
    cases hg

theorem clear_empty {M : Value → Prop} (hM : ∀ v, M v → v.isPlain = false) (hempty : s.get o = [])
    (hin : o.index < s.dicts.size) (ho : ¬ M (.dict o)) : Clear M s (.dict o) := by
  intro w hw
  rcases leads_empty hempty hw with rfl | hplain
  · exact ⟨hin, ho⟩
  · exact clear_plain hM hplain w .refl

/-- An empty dictionary is a tree. -/
theorem treelike_empty (hempty : s.get o = []) (hin : o.index < s.dicts.size) : Treelike s o where
  there := clear_empty (fun _ => False.elim) hempty hin id
  single _ _ _ hp hq := (walk_empty hempty hp).1.trans (walk_empty hempty hq).1.symm
  leaves _ _ hx hleaf _ _ _ _ := hleaf o (walk_empty hempty hx).2

/-- A tree is a nested mapping for targets to which the way is not blocked. -/
theorem Treelike.nested (h : Treelike s o) (hts : ∀ p ∈ ts, ¬ Blocked s o p) : Nested ts o s where
  there _ _ _ hr := h.inside hr
  single p q r _ _ hp hq := h.single p q r hp hq
  passable p hp q hq hne x hx := by
    by_contra hnot
    obtain ⟨hnull, hdict⟩ := not_or.1 hnot
    refine hts p hp ⟨q, x, ?_, hq, hne, hx, hnull, fun r hr => hdict ⟨r, hr⟩⟩
    rintro rfl
    cases hx
    exact hdict ⟨o, rfl⟩

/-! ## Failures -/

/-- Into an empty dictionary one can write along every way. -/
theorem exists_writeAlong (hin : node.index < s.dicts.size) (hempty : s.get node = [])
    (hkeys : keys ≠ []) : ∃ t, s.writeAlong path node walked v keys = .ok t := by
  induction keys generalizing s node walked with
  | nil => exact absurd rfl hkeys
  | cons key keys ih =>
    by_cases hne : keys = []
    · subst hne
      exact ⟨_, rfl⟩
    · have hnull : (Entries.get? (s.get node) key).getD .null = .null := by
        rw [hempty]
        rfl
      rw [writeAlong_missing hne hnull]
      exact ih (by rw [size_opened]; exact Nat.lt_succ_self _) (get_opened hin key) hne

theorem exists_writeAlong_opened (path : String) (walked : List String) (v : Value)
    (hin : node.index < s.dicts.size) (key : String) (hkeys : keys ≠ []) :
    ∃ t, (s.opened node key).writeAlong path ⟨s.dicts.size⟩ walked v keys = .ok t :=
  exists_writeAlong (by rw [size_opened]; exact Nat.lt_succ_self _) (get_opened hin key) hkeys

/-- All dictionaries on the way along a row of keys are there. -/
def Paved (s : Store) (node : Ref .dict) (keys : List String) : Prop :=
  ∀ q r, q <+: keys → q ≠ keys → s.walk (.dict node) q = some (.dict r) → r.index < s.dicts.size

theorem Paved.inside {key : String} (h : Paved s node (key :: keys)) :
    node.index < s.dicts.size := h [] node List.nil_prefix (List.cons_ne_nil _ _).symm rfl

theorem walk_cons {key : String} (h : Entries.get? (s.get node) key = some x) (q : List String) :
    s.walk (.dict node) (key :: q) = s.walk x q := by
  show (Entries.get? (s.get node) key).bind _ = _
  rw [h]
  rfl

theorem Paved.child {key : String} {child : Ref .dict} (h : Paved s node (key :: keys))
    (hc : Entries.get? (s.get node) key = some (.dict child)) : Paved s child keys :=
  fun q r hq hne hr => h (key :: q) r (List.cons_prefix_cons.2 ⟨rfl, hq⟩)
    (fun heq => hne (List.cons.inj heq).2) ((walk_cons hc q).trans hr)

/-- The way along keys is blocked at the first one, or behind it. -/
theorem blocked_cons {key : String} (hkeys : keys ≠ []) : Blocked s node (key :: keys) ↔
    ∃ x, Entries.get? (s.get node) key = some x ∧
      ((x ≠ .null ∧ ∀ r, x ≠ .dict r) ∨ ∃ child, x = .dict child ∧ Blocked s child keys) := by
  constructor
  · rintro ⟨p, x, hp, hpre, hne, hx, hleaf⟩
    cases p with
    | nil => exact absurd rfl hp
    | cons k p =>
      obtain ⟨rfl, hrest⟩ := List.cons_prefix_cons.1 hpre
      obtain ⟨y, hy, hx⟩ := Option.bind_eq_some_iff.1 hx
      refine ⟨y, hy, ?_⟩
      cases p with
      | nil =>
        cases hx
        exact Or.inl hleaf
      | cons k' p =>
        obtain ⟨z, hz, -⟩ := Option.bind_eq_some_iff.1 hx
        obtain ⟨child, rfl, -⟩ := entry?_eq_some.1 hz
        exact Or.inr ⟨child, rfl, k' :: p, x, List.cons_ne_nil _ _, hrest,
          fun heq => hne (congrArg _ heq), hx, hleaf⟩
  · rintro ⟨x, hx, hleaf | ⟨child, rfl, p, y, hp, hpre, hne, hy, hleaf⟩⟩
    · exact ⟨[key], x, List.cons_ne_nil _ _, List.cons_prefix_cons.2 ⟨rfl, List.nil_prefix⟩,
        fun heq => hkeys (List.cons.inj heq).2.symm, walk_cons hx [], hleaf⟩
    · exact ⟨key :: p, y, List.cons_ne_nil _ _, List.cons_prefix_cons.2 ⟨rfl, hpre⟩,
        fun heq => hne (List.cons.inj heq).2, (walk_cons hx p).trans hy, hleaf⟩

/-- A write along keys fails if and only if its way is blocked. -/
theorem writeAlong_error_iff (hin : Paved s node keys) :
    (∃ e, s.writeAlong path node walked v keys = .error e) ↔ Blocked s node keys := by
  induction keys generalizing node walked with
  | nil =>
    constructor
    · rintro ⟨e, he⟩
      cases he
    · rintro ⟨p, x, hp, hpre, -⟩
      exact absurd (List.prefix_nil.1 hpre) hp
  | cons key keys ih =>
    by_cases hne : keys = []
    · subst hne
      constructor
      · rintro ⟨e, he⟩
        cases he
      · rintro ⟨p, x, hp, hpre, hne, -⟩
        exact absurd (List.prefix_nil.1 (prefix_of_concat (q := []) hpre hne)) hp
    · rw [blocked_cons hne]
      rcases s.entry_cases node key with hnull | ⟨child, hchild⟩ | ⟨x, hx, hleaf⟩
      · rw [writeAlong_missing hne hnull]
        obtain ⟨t, ht⟩ := exists_writeAlong_opened path (walked ++ [key]) v hin.inside key hne
        refine iff_of_false (fun ⟨e, he⟩ => nomatch ht.symm.trans he) ?_
        rintro ⟨x, hx, hcase⟩
        rw [hx] at hnull
        cases hnull
        rcases hcase with h | ⟨child, h, -⟩
        · exact h.1 rfl
        · cases h
      · rw [writeAlong_child hne hchild, ih (hin.child hchild)]
        constructor
        · exact fun h => ⟨_, hchild, Or.inr ⟨child, rfl, h⟩⟩
        · rintro ⟨x, hx, hcase⟩
          cases hchild.symm.trans hx
          rcases hcase with h | ⟨child', h, hb⟩
          · exact absurd rfl (h.2 child)
          · cases h
            exact hb
      · rw [writeAlong_blocked hne hx hleaf.1 hleaf.2]
        exact iff_of_true ⟨_, rfl⟩ ⟨x, hx, Or.inl hleaf⟩

/-- Whatever stops a write is a value in the way, and is reported as invalid. -/
theorem kind_of_writeAlong {e : Cause} (h : s.writeAlong path node walked v keys = .error e) :
    e.kind = .invalid := by
  induction keys generalizing s node walked with
  | nil => cases h
  | cons key keys ih =>
    by_cases hne : keys = []
    · subst hne
      cases h
    · rcases s.entry_cases node key with hnull | ⟨child, hchild⟩ | ⟨x, hx, hleaf⟩
      · exact ih ((writeAlong_missing hne hnull).symm.trans h)
      · exact ih ((writeAlong_child hne hchild).symm.trans h)
      · rw [writeAlong_blocked hne hx hleaf.1 hleaf.2] at h
        cases h
        rfl

/-- A write that makes missing dictionaries as it goes along. They are there afterwards even if it
fails. -/
def writeGoing (s : Store) (path : String) (node : Ref .dict) (walked : List String) (v : Value) :
    List String → Except Cause Unit × Store
  | [] => (.ok (), s)
  | [leaf] => (.ok (), s.insert node leaf v)
  | key :: keys =>
    let walked := walked ++ [key]
    match (Entries.get? (s.get node) key).getD .null with
    | .null => writeGoing (s.opened node key) path (s.newDict []).1 walked v keys
    | .dict child => writeGoing s path child walked v keys
    | other => (.error (.blockedPath path (String.intercalate "." walked) (s.kindName other)), s)

/-- Behind a dictionary that has been made there is nothing yet. -/
theorem paved_opened (hin : node.index < s.dicts.size) (key : String) :
    Paved (s.opened node key) ⟨s.dicts.size⟩ keys := by
  intro q r _ _ hr
  cases q with
  | nil =>
    cases hr
    rw [size_opened]
    exact Nat.lt_succ_self _
  | cons k q =>
    obtain ⟨x, hx, -⟩ := Option.bind_eq_some_iff.1 hr
    change Entries.get? ((s.opened node key).get (⟨s.dicts.size⟩ : Ref .dict)) k = some x at hx
    rw [get_opened hin] at hx
    cases hx

/-- **A write that fails has made nothing**, although it makes dictionaries as it goes along. -/
theorem writeGoing_eq (hin : Paved s node keys) : s.writeGoing path node walked v keys =
    match s.writeAlong path node walked v keys with
    | .ok t => (.ok (), t)
    | .error e => (.error e, s) := by
  induction keys generalizing s node walked with
  | nil => rfl
  | cons key keys ih =>
    by_cases hne : keys = []
    · subst hne
      rfl
    · have hstep : s.writeGoing path node walked v (key :: keys) =
          match (Entries.get? (s.get node) key).getD .null with
          | .null => (s.opened node key).writeGoing path ⟨s.dicts.size⟩ (walked ++ [key]) v keys
          | .dict child => s.writeGoing path child (walked ++ [key]) v keys
          | other => (.error (.blockedPath path (String.intercalate "." (walked ++ [key]))
              (s.kindName other)), s) := by
        rw [writeGoing]
        · rfl
        · exact hne
      rw [hstep]
      rcases s.entry_cases node key with hnull | ⟨child, hchild⟩ | ⟨x, hx, hleaf⟩
      · rw [hnull, writeAlong_missing hne hnull]
        refine (ih (paved_opened hin.inside key)).trans ?_
        obtain ⟨t, ht⟩ := exists_writeAlong_opened path (walked ++ [key]) v hin.inside key hne
        rw [ht]
      · rw [writeAlong_child hne hchild, hchild]
        exact ih (hin.child hchild)
      · rw [writeAlong_blocked hne hx hleaf.1 hleaf.2, hx]
        cases x with
        | null => exact absurd rfl hleaf.1
        | dict r => exact absurd rfl (hleaf.2 r)
        | _ => rfl

/-! ## What a write does -/

theorem Nested.paved (h : Nested ts o s) (hts : Split ts) (hp : p ∈ ts) : Paved s o p :=
  fun q r hq hne hr => h.there q r (hts.free hp hq hne) hr

/-- A write at a target succeeds. -/
theorem Nested.exists_setPath (h : Nested ts o s) (hts : Split ts) (hp : Path.segments path ∈ ts) :
    ∃ t, s.setPath o path v = .ok t := by
  cases ht : s.setPath o path v with
  | ok t => exact ⟨t, rfl⟩
  | error e =>
    obtain ⟨q, x, -, hq, hne, hx, hnull, hdict⟩ :=
      (writeAlong_error_iff (h.paved hts hp)).1 ⟨e, ht⟩
    rcases h.passable _ hp q hq hne x hx with rfl | ⟨r, rfl⟩
    · exact absurd rfl hnull
    · exact absurd rfl (hdict r)

theorem insert_twice (key : String) (hin : node.index < s.dicts.size) :
    (s.insert node key v).insert node key w = s.insert node key w := by
  have hget : (s.insert node key v).get node = Entries.insert (s.get node) key v :=
    getD_setIfInBounds_self hin
  rw [Store.insert, hget, Entries.insert_insert]
  show { s with dicts := _ } = { s with dicts := _ }
  congr 1
  exact Array.setIfInBounds_setIfInBounds _

/-- **A second write takes the place of the first one.** -/
theorem Nested.overwrite (hts : Split ts) (hkeys : keys ≠ []) (hp : a ++ keys ∈ ts)
    (h : Nested ts o s) (hnode : s.walk (.dict o) a = some (.dict node))
    (ht : s.writeAlong path node walked v keys = .ok t) :
    t.writeAlong path node walked w keys = s.writeAlong path node walked w keys := by
  induction keys generalizing a s node walked with
  | nil => exact absurd rfl hkeys
  | cons key keys ih =>
    have hfree : Free ts a := hts.free hp (List.prefix_append a _) (ne_concat a)
    have hw := Nested.writeAlong hts hkeys hp h hnode ht
    by_cases hne : keys = []
    · subst hne
      cases ht
      exact congrArg Except.ok (insert_twice key (h.there a node hfree hnode))
    · have hassoc : a ++ key :: keys = a ++ [key] ++ keys := by simp
      have hnode' : t.walk (.dict o) a = some (.dict node) := hw.stay a node hfree hnode
      have hfree' : Free ts (a ++ [key]) := by
        rw [hassoc] at hp
        exact hts.free hp (List.prefix_append _ _) fun heq => hne (by simpa using heq)
      -- The way goes on where it has gone on before.
      have hgoes : ∀ child, t.walk (.dict o) (a ++ [key]) = some (.dict child) →
          t.writeAlong path node walked w (key :: keys) =
            t.writeAlong path child (walked ++ [key]) w keys := by
        intro child hc
        rw [walk_concat, hnode'] at hc
        exact writeAlong_child hne hc
      rcases s.entry_cases node key with hnull | ⟨child, hchild⟩ | ⟨x, hx, hleaf⟩
      · rw [writeAlong_missing hne hnull] at ht ⊢
        have hmade := h.opened hts hne hp hnode hnull
        rw [hassoc] at hp
        have hw' := Nested.writeAlong hts hne hp hmade.nested hmade.here ht
        rw [hgoes _ (hw'.stay _ _ hfree' hmade.here)]
        exact ih hne hp hmade.nested hmade.here ht
      · rw [writeAlong_child hne hchild] at ht ⊢
        rw [hassoc] at hp
        have hc : s.walk (.dict o) (a ++ [key]) = some (.dict child) := by
          rw [walk_concat, hnode]
          exact hchild
        rw [hgoes child (hw.stay _ _ hfree' hc)]
        exact ih hne hp h hc ht
      · rw [writeAlong_blocked hne hx hleaf.1 hleaf.2] at ht
        cases ht

theorem paved_of_treelike (h : Treelike s o) : Paved s o keys := fun _ _ _ _ hr => h.inside hr

theorem not_blocked (h : Treelike s o) (ht : s.setPath o path v = .ok t) :
    ¬ Blocked s o (Path.segments path) := by
  intro hb
  obtain ⟨e, he⟩ := (writeAlong_error_iff (paved_of_treelike h)).2 hb
  exact nomatch ht.symm.trans he

theorem split_single (p : List String) : Split [p] := by
  intro a ha b hb _
  rw [List.mem_singleton.1 ha, List.mem_singleton.1 hb]

theorem Treelike.nested_of_setPath (h : Treelike s o) (ht : s.setPath o path v = .ok t) :
    Nested [Path.segments path] o s := by
  refine h.nested fun p hp => ?_
  rw [List.mem_singleton.1 hp]
  exact not_blocked h ht

theorem beside_single (hpq : ¬ p <+: q) (hqp : ¬ q <+: p) : Beside [p] q := by
  constructor
  · intro x hx
    rw [List.mem_singleton.1 hx]
    exact hpq
  · intro x hx
    rw [List.mem_singleton.1 hx]
    exact hqp

/-- **A path beside the target finds what it found.** -/
theorem Treelike.getPath_beside (h : Treelike s o) (ht : s.setPath o path v = .ok t) {path' : String}
    (hpq : ¬ Path.segments path <+: Path.segments path')
    (hqp : ¬ Path.segments path' <+: Path.segments path) :
    t.getPath (.dict o) path' = s.getPath (.dict o) path' := by
  have hn := h.nested_of_setPath ht
  have hts := split_single (Path.segments path)
  have hp := List.mem_singleton_self (Path.segments path)
  have hw := hn.setPath hts hp ht
  refine follow_beside hn hw.nested (fun q hq => hw.beside q (fun _ hp _ => hq.1.before hp)
    (hq.2 _ hp) (hq.1 _ hp)) (fun q x hq hx hleaf keys => ?_) (beside_single hpq hqp)
  refine Clear.follow Before.not_plain (hn.still hts hp ht) fun y hy => ⟨(h.clear hx y hy).1, ?_⟩
  rintro ⟨p, r, -, hr, rfl⟩
  exact h.leaves q x hx hleaf p r hr hy

/-! ## The order of writes -/

/-- Down to a depth, values of two stores are the same, apart from the order of keys. -/
def Same (s t : Store) : Nat → Value → Value → Prop
  | 0, _, _ => True
  | n + 1, .dict a, .dict b => ∀ key,
    Option.Rel (Same s t n) (Entries.get? (s.get a) key) (Entries.get? (t.get b) key)
  | n + 1, .results a, .results b => ∀ key,
    Option.Rel (Same s t n) (Entries.get? (s.get a) key) (Entries.get? (t.get b) key)
  | n + 1, .list a, .list b => List.Forall₂ (Same s t n) (s.get a) (t.get b)
  | n + 1, .tuple a, .tuple b => List.Forall₂ (Same s t n) (s.get a) (t.get b)
  | _ + 1, v, w => v = w

theorem same_entries {n : Nat} {es : Entries Value} (h : ∀ e ∈ es, Same s t n e.2 e.2)
    (key : String) : Option.Rel (Same s t n) (Entries.get? es key) (Entries.get? es key) := by
  cases hx : Entries.get? es key with
  | none => exact .none
  | some x => exact .some (h (key, x) (Entries.mem_of_get? hx))

theorem same_row {n : Nat} {xs : List Value} (h : ∀ x ∈ xs, Same s t n x x) :
    List.Forall₂ (Same s t n) xs xs := List.forall₂_same.2 h

/-- In stores that both come from a third one, a value has the same items if it has those of the third
one in both, and the items are the same. -/
theorem same_of_sight {n : Nat} (hs : s.sight v = u.sight v) (ht : t.sight v = u.sight v)
    (h : ∀ w, u.Leads v w → Same s t n w w) : Same s t (n + 1) v v := by
  cases v with
  | dict r | results r =>
    have hs : s.get r = u.get r := Option.some.inj (congrArg Prod.fst hs)
    have ht : t.get r = u.get r := Option.some.inj (congrArg Prod.fst ht)
    intro key
    rw [hs, ht]
    exact same_entries (fun e he => h e.2 (.entry rfl he)) key
  | list r | tuple r =>
    have hs : s.get r = u.get r := Option.some.inj (congrArg (fun x => x.2.1) hs)
    have ht : t.get r = u.get r := Option.some.inj (congrArg (fun x => x.2.1) ht)
    show List.Forall₂ _ _ _
    rw [hs, ht]
    exact same_row fun x hx => h x (.item rfl hx)
  | _ => rfl

/-- Two stores in which the same has been written at the targets, and in which nothing else has changed
since a common past. -/
structure Twins (ts : List (List String)) (o : Ref .dict) (s t u : Store) : Prop where
  split : Split ts
  clear : ∀ q x, u.walk (.dict o) q = some x → Clear (fun _ => False) u x
  left : Still (Before ts o u) u s
  right : Still (Before ts o u) u t
  stay : ∀ q r, Free ts q → u.walk (.dict o) q = some (.dict r) →
    s.walk (.dict o) q = some (.dict r) ∧ t.walk (.dict o) q = some (.dict r)
  found : ∀ p ∈ ts, ∃ x, s.walk (.dict o) p = some x ∧ t.walk (.dict o) p = some x ∧
    Clear (fun _ => False) u x
  beside : ∀ q, Beside ts q → s.walk (.dict o) q = u.walk (.dict o) q ∧
    t.walk (.dict o) q = u.walk (.dict o) q

/-- At a place with nothing but free places before it, twins have values that are the same, if
everything is the same one level further down. -/
theorem Twins.entry (h : Twins ts o s t u) {n : Nat}
    (hclear : ∀ x, Clear (fun _ => False) u x → Same s t n x x)
    (hfree : ∀ q a b, Free ts q → s.walk (.dict o) q = some (.dict a) →
      t.walk (.dict o) q = some (.dict b) → Same s t n (.dict a) (.dict b))
    (hq : ∀ p, p <+: q → p ≠ q → Free ts p) :
    Option.Rel (Same s t n) (s.walk (.dict o) q) (t.walk (.dict o) q) := by
  rcases place_cases hq with hmem | ⟨p, hp, hqp, hne⟩ | hb
  · obtain ⟨x, hs, ht, hx⟩ := h.found q hmem
    rw [hs, ht]
    exact .some (hclear x hx)
  · -- On the way to a target there are dictionaries in both.
    obtain ⟨x, hs, ht, -⟩ := h.found p hp
    obtain ⟨y, hy⟩ := exists_of_way hqp hs
    obtain ⟨z, hz⟩ := exists_of_way hqp ht
    obtain ⟨a, rfl⟩ := dict_of_way hqp hne hy hs
    obtain ⟨b, rfl⟩ := dict_of_way hqp hne hz ht
    rw [hy, hz]
    exact .some (hfree q a b (h.split.free hp hqp hne) hy hz)
  · obtain ⟨hs, ht⟩ := h.beside q hb
    rw [hs, ht]
    cases hx : u.walk (.dict o) q with
    | none => exact .none
    | some x => exact .some (hclear x (h.clear q x hx))

/-- **Twins hold the same.** -/
theorem Twins.same (h : Twins ts o s t u) (n : Nat) :
    (∀ x, Clear (fun _ => False) u x → Same s t n x x) ∧
      ∀ q a b, Free ts q → s.walk (.dict o) q = some (.dict a) →
        t.walk (.dict o) q = some (.dict b) → Same s t n (.dict a) (.dict b) := by
  induction n with
  | zero => exact ⟨fun _ _ => trivial, fun _ _ _ _ _ _ => trivial⟩
  | succ n ih =>
    have hfree : ∀ q a b, Free ts q → s.walk (.dict o) q = some (.dict a) →
        t.walk (.dict o) q = some (.dict b) → Same s t (n + 1) (.dict a) (.dict b) := by
      intro q a b hq ha hb key
      have hrel := h.entry ih.1 ih.2 (q := q ++ [key]) fun p hp hne =>
        hq.before (prefix_of_concat hp hne)
      rw [walk_concat, walk_concat, ha, hb] at hrel
      exact hrel
    refine ⟨fun x hx => ?_, hfree⟩
    by_cases hbefore : Before ts o u x
    · obtain ⟨q, r, hq, hr, rfl⟩ := hbefore
      obtain ⟨hs, ht⟩ := h.stay q r hq hr
      exact hfree q r r hq hs ht
    · exact same_of_sight (h.left.sight x hx.stands hbefore) (h.right.sight x hx.stands hbefore)
        fun w hw => ih.1 w (hx.leads hw)

/-- Targets of two writes of which none is at or behind the other one. -/
theorem split_pair (hpq : ¬ p <+: q) (hqp : ¬ q <+: p) : Split [p, q] := by
  intro a ha b hb hab
  simp only [List.mem_cons, List.not_mem_nil, or_false] at ha hb
  rcases ha with rfl | rfl <;> rcases hb with rfl | rfl
  · rfl
  · exact absurd hab hpq
  · exact absurd hab hqp
  · rfl

/-- A way that is not blocked after a write at another target was not blocked before it. -/
theorem Treelike.not_blocked_before (h : Treelike s o) {path' : String}
    (ht : s.setPath o path v = .ok t) (hpq : ¬ Path.segments path <+: Path.segments path')
    (hu : t.setPath o path' w = .ok u) : ¬ Blocked s o (Path.segments path') := by
  rintro ⟨q, x, hq, hpre, hne, hx, hleaf⟩
  have hn := h.nested_of_setPath ht
  have hw := hn.setPath (split_single _) (List.mem_singleton_self _) ht
  -- What blocks the way is not on the way to the other target, or the write there would have failed.
  have hto : ¬ q <+: Path.segments path := fun hto => not_blocked h ht
    ⟨q, x, hq, hto, fun heq => hpq (heq ▸ hpre), hx, hleaf⟩
  have hfrom : ¬ Path.segments path <+: q := fun hf => hpq (hf.trans hpre)
  have hbeside := beside_single hfrom hto
  have hx' : t.walk (.dict o) q = some x :=
    (hw.beside q (fun _ hp _ => hbeside.1.before hp) hto hfrom).trans hx
  have hpaved : Paved t o (Path.segments path') := fun p r hp _ hr =>
    hw.nested.there p r (fun y hy hyp => hpq ((List.mem_singleton.1 hy ▸ hyp).trans hp)) hr
  have herror : ∃ e, t.setPath o path' w = .error e :=
    (writeAlong_error_iff hpaved).2 ⟨q, x, hq, hpre, hne, hx', hleaf⟩
  obtain ⟨e, he⟩ := herror
  exact nomatch hu.symm.trans he

/-- **Writes at two targets give the same in either order.** -/
theorem Treelike.commute (h : Treelike s o) {path' : String}
    (hpq : ¬ Path.segments path <+: Path.segments path')
    (hqp : ¬ Path.segments path' <+: Path.segments path) (hv : Clear (fun _ => False) s v)
    (hw : Clear (fun _ => False) s w) (ht : s.setPath o path v = .ok t)
    (hu : t.setPath o path' w = .ok u) : ∃ t' u', s.setPath o path' w = .ok t' ∧
      t'.setPath o path v = .ok u' ∧ ∀ n, Same u u' n (.dict o) (.dict o) := by
  have hts := split_pair hpq hqp
  have hmem : Path.segments path ∈ [Path.segments path, Path.segments path'] := List.mem_cons_self
  have hmem' : Path.segments path' ∈ [Path.segments path, Path.segments path'] :=
    List.mem_cons_of_mem _ (List.mem_singleton_self _)
  have hn : Nested [Path.segments path, Path.segments path'] o s := by
    refine h.nested fun p hp => ?_
    simp only [List.mem_cons, List.not_mem_nil, or_false] at hp
    rcases hp with rfl | rfl
    · exact not_blocked h ht
    · exact h.not_blocked_before ht hpq hu
  have hwt := hn.setPath hts hmem ht
  have hwu := hwt.nested.setPath hts hmem' hu
  obtain ⟨t', ht'⟩ := hn.exists_setPath (v := w) hts hmem'
  have hwt' := hn.setPath hts hmem' ht'
  obtain ⟨u', hu'⟩ := hwt'.nested.exists_setPath (v := v) hts hmem
  have hwu' := hwt'.nested.setPath hts hmem hu'
  have hbefore : ∀ {p}, p ∈ [Path.segments path, Path.segments path'] → ∀ q, q <+: p → q ≠ p →
      Free [Path.segments path, Path.segments path'] q := fun hp q hq hne => hts.free hp hq hne
  have htwins : Twins [Path.segments path, Path.segments path'] o u u' s := by
    constructor
    case split => exact hts
    case clear => exact fun q x hx => h.clear hx
    case left => exact (hn.still hts hmem ht).then (hwt.nested.still hts hmem' hu) fun v => hwt.before
    case right => exact (hn.still hts hmem' ht').then (hwt'.nested.still hts hmem hu') fun v => hwt'.before
    case stay =>
      exact fun q r hq hr => ⟨hwu.stay q r hq (hwt.stay q r hq hr),
        hwu'.stay q r hq (hwt'.stay q r hq hr)⟩
    case found =>
      intro p hp
      simp only [List.mem_cons, List.not_mem_nil, or_false] at hp
      rcases hp with rfl | rfl
      · exact ⟨v, (hwu.beside _ (hbefore hmem) hpq hqp).trans hwt.here, hwu'.here, hv⟩
      · exact ⟨w, hwu.here, (hwu'.beside _ (hbefore hmem') hqp hpq).trans hwt'.here, hw⟩
    case beside =>
      intro q hq
      have hfree : ∀ p, p <+: q → p ≠ q → Free _ p := fun _ hp _ => hq.1.before hp
      exact ⟨(hwu.beside q hfree (hq.2 _ hmem') (hq.1 _ hmem')).trans
          (hwt.beside q hfree (hq.2 _ hmem) (hq.1 _ hmem)),
        (hwu'.beside q hfree (hq.2 _ hmem) (hq.1 _ hmem)).trans
          (hwt'.beside q hfree (hq.2 _ hmem') (hq.1 _ hmem'))⟩
  refine ⟨t', u', ht', hu', fun n => (htwins.same n).2 [] o o ?_ rfl rfl⟩
  exact hbefore hmem [] List.nil_prefix (Path.segments_ne_nil path).symm

/-- **The laws of paths.** Let a target be a tree of dictionaries.

A write fails, as invalid, if and only if a proper part of its way leads to a value that is neither
nothing nor a dictionary; and even if dictionaries are made as the way is gone, a write that fails has
made none. After a write the path reads what has been written, and every path beside it reads what it
read; a second write at the same path leaves what it alone would have left; and two writes at paths of
which none is at or behind the other leave the same in either order. Paths that are joined read one
after the other. -/
theorem path_laws (h : Treelike s o) (p : String) (v : Value) :
    ((∃ e, s.setPath o p v = .error e) ↔ ∃ q x, q ≠ [] ∧ q <+: Path.segments p ∧
      q ≠ Path.segments p ∧ s.walk (.dict o) q = some x ∧ x ≠ .null ∧ ∀ r, x ≠ .dict r) ∧
    (∀ e, s.setPath o p v = .error e →
      e.kind = .invalid ∧ s.writeGoing p o [] v (Path.segments p) = (.error e, s)) ∧
    (∀ t, s.setPath o p v = .ok t → s.writeGoing p o [] v (Path.segments p) = (.ok (), t) ∧
      t.getPath (.dict o) p = .ok v ∧
      (∀ q, ¬ Path.segments p <+: Path.segments q → ¬ Path.segments q <+: Path.segments p →
        t.getPath (.dict o) q = s.getPath (.dict o) q) ∧
      (∀ w, t.setPath o p w = s.setPath o p w) ∧
      ∀ q w u, ¬ Path.segments p <+: Path.segments q → ¬ Path.segments q <+: Path.segments p →
        Clear (fun _ => False) s v → Clear (fun _ => False) s w → t.setPath o q w = .ok u →
          ∃ t' u', s.setPath o q w = .ok t' ∧ t'.setPath o p v = .ok u' ∧
            ∀ n, Same u u' n (.dict o) (.dict o)) ∧
    ∀ root q, s.getPath root (p ++ "." ++ q) =
      (s.getPath root p).bind fun x => s.getPath x q := by
  refine ⟨writeAlong_error_iff (paved_of_treelike h), fun e he => ⟨kind_of_writeAlong he, ?_⟩,
    fun t ht => ⟨?_, ?_, fun q => h.getPath_beside ht, fun w => ?_,
      fun q w u hpq hqp hv hw hu => h.commute hpq hqp hv hw ht hu⟩, fun root q => ?_⟩
  · rw [writeGoing_eq (paved_of_treelike h), show s.writeAlong p o [] v _ = _ from he]
  · rw [writeGoing_eq (paved_of_treelike h), show s.writeAlong p o [] v _ = _ from ht]
  · exact follow_of_walk ((h.nested_of_setPath ht).setPath (split_single _)
      (List.mem_singleton_self _) ht).here
  · exact Nested.overwrite (a := []) (split_single _) (Path.segments_ne_nil p)
      (List.mem_singleton_self _) (h.nested_of_setPath ht) rfl ht
  · rw [getPath, Path.segments_append]
    exact follow_append root _ _

/-- A dictionary in a dictionary. -/
def twoLevels : Store :=
  { empty with dicts := #[[("a", .dict ⟨1⟩), ("b", .int 1)], [("c", .int 2)]] }

theorem leads_dict {r : Ref .dict} (h : s.Leads (.dict r) w) :
    (∃ e ∈ s.get r, w = e.2) ∨ w.isPlain = true := by
  cases h with
  | entry hm he =>
    cases hm
    exact Or.inl ⟨_, he, rfl⟩
  | item hr => cases hr
  | field key => exact Or.inr rfl

/-- What a path from the outer dictionary can lead to. -/
theorem leads_twoLevels (h : Relation.ReflTransGen twoLevels.Leads (.dict ⟨0⟩) w) :
    w = .dict ⟨0⟩ ∨ w = .dict ⟨1⟩ ∨ w.isPlain = true := by
  induction h with
  | refl => exact Or.inl rfl
  | @tail x y _ hxy ih =>
    rcases ih with rfl | rfl | hx
    · rcases leads_dict hxy with ⟨e, he, rfl⟩ | hy
      · change e ∈ [("a", Value.dict ⟨1⟩), ("b", .int 1)] at he
        rcases List.mem_cons.1 he with rfl | he
        · exact Or.inr (Or.inl rfl)
        · cases List.mem_singleton.1 he
          exact Or.inr (Or.inr rfl)
      · exact Or.inr (Or.inr hy)
    · rcases leads_dict hxy with ⟨e, he, rfl⟩ | hy
      · change e ∈ [("c", Value.int 2)] at he
        cases List.mem_singleton.1 he
        exact Or.inr (Or.inr rfl)
      · exact Or.inr (Or.inr hy)
    · exact Or.inr (Or.inr (hxy.plain hx))

theorem walk_twoLevels {r : Ref .dict} (h : twoLevels.walk (.dict ⟨0⟩) q = some (.dict r)) :
    (q = [] ∧ r = ⟨0⟩) ∨ (q = ["a"] ∧ r = ⟨1⟩) := by
  cases q with
  | nil =>
    cases h
    exact Or.inl ⟨rfl, rfl⟩
  | cons k q =>
    obtain ⟨x, hx, hq⟩ := Option.bind_eq_some_iff.1 h
    have hmem := Entries.mem_of_get? hx
    change (k, x) ∈ [("a", Value.dict ⟨1⟩), ("b", .int 1)] at hmem
    simp only [List.mem_cons, Prod.mk.injEq, List.not_mem_nil, or_false] at hmem
    rcases hmem with ⟨rfl, rfl⟩ | ⟨rfl, rfl⟩
    · cases q with
      | nil =>
        cases hq
        exact Or.inr ⟨rfl, rfl⟩
      | cons k q =>
        obtain ⟨y, hy, hq⟩ := Option.bind_eq_some_iff.1 hq
        have hmem := Entries.mem_of_get? hy
        change (k, y) ∈ [("c", Value.int 2)] at hmem
        cases List.mem_singleton.1 hmem
        cases q <;> cases hq
    · cases q <;> cases hq

theorem treelike_twoLevels : Treelike twoLevels ⟨0⟩ := by
  constructor
  · intro w hw
    refine ⟨?_, id⟩
    rcases leads_twoLevels hw with rfl | rfl | hw
    · exact Nat.zero_lt_two
    · exact Nat.one_lt_two
    · cases w <;> trivial
  · intro p q r hp hq
    rcases walk_twoLevels hp with ⟨rfl, rfl⟩ | ⟨rfl, rfl⟩ <;>
      rcases walk_twoLevels hq with ⟨rfl, h⟩ | ⟨rfl, h⟩ <;> first | rfl | cases h
  · intro q x hx hleaf p r _ hr
    rcases leads_twoLevels (leads_of_walk hx) with rfl | rfl | hplain
    · exact hleaf _ rfl
    · exact hleaf _ rfl
    · exact absurd (plain_of_leads hplain hr).2 nofun

/-- A value is written behind a new dictionary beside what is there, which is read as before. -/
theorem path_laws_twoLevels : ∃ t, twoLevels.setPath ⟨0⟩ "a.d.e" (.int 3) = .ok t ∧
    t.getPath (.dict ⟨0⟩) "a.d.e" = .ok (.int 3) ∧
    t.getPath (.dict ⟨0⟩) "a.c" = twoLevels.getPath (.dict ⟨0⟩) "a.c" := by
  obtain ⟨-, -, hok, -⟩ := path_laws treelike_twoLevels "a.d.e" (.int 3)
  obtain ⟨-, hread, hbeside, -⟩ := hok _ rfl
  exact ⟨_, rfl, hread, hbeside "a.c" (by decide) (by decide)⟩

end Store

end Conductor
