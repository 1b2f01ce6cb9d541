import Conductor.Proofs.Store.Writing

/-!
# Nested mappings

A dictionary is a nested mapping as far as one goes through dictionaries only. Let some places in it be
targets, none of them at or behind another one, and let the dictionaries before the targets form a
tree. Then a write at a target changes what is found there, and makes the dictionaries on the way
that are missing; everywhere beside the target it changes nothing, although other places may share
the way to it (`Nested.setPath`).

So writes at different targets do not disturb each other, in whatever order they happen.
-/

namespace Conductor

namespace Path

theorem splitDots_ne_nil : ∀ cs : List Char, splitDots cs ≠ []
  | [] => List.cons_ne_nil _ _
  | c :: cs => by
    unfold splitDots
    split
    · exact List.cons_ne_nil _ _
    · split <;> exact List.cons_ne_nil _ _

theorem segments_ne_nil (path : String) : segments path ≠ [] := fun h =>
  splitDots_ne_nil _ (List.map_eq_nil_iff.1 h)

end Path

namespace Store

/-- What a dictionary has under a key. -/
def entry? (s : Store) (v : Value) (key : String) : Option Value :=
  match v with
  | .dict r => Entries.get? (s.get r) key
  | _ => none

/-- What a row of keys leads to, through dictionaries only. -/
def walk (s : Store) : Value → List String → Option Value
  | v, [] => some v
  | v, key :: keys => (s.entry? v key).bind fun w => s.walk w keys

variable {s t : Store} {v w x : Value} {o node r : Ref .dict} {a p q : List String} {key : String}

theorem entry?_eq_some : s.entry? v key = some w ↔
    ∃ r, v = .dict r ∧ Entries.get? (s.get r) key = some w := by
  constructor
  · intro h
    cases v with
    | dict r => exact ⟨r, rfl, h⟩
    | _ => cases h
  · rintro ⟨r, rfl, h⟩
    exact h

theorem walk_append : ∀ (v : Value) (p q : List String),
    s.walk v (p ++ q) = (s.walk v p).bind fun w => s.walk w q
  | v, [], q => rfl
  | v, key :: p, q => by
    show (s.entry? v key).bind _ = ((s.entry? v key).bind _).bind _
    rw [Option.bind_assoc]
    exact congrArg _ (funext fun w => walk_append w p q)

theorem walk_concat (v : Value) (p : List String) (key : String) :
    s.walk v (p ++ [key]) = (s.walk v p).bind fun w => s.entry? w key := by
  rw [walk_append]
  refine congrArg _ (funext fun w => ?_)
  show (s.entry? w key).bind some = _
  exact Option.bind_fun_some _

/-- Where the dictionaries on the way have what they had, a way leads to where it led. -/
theorem walk_congr (h : ∀ p key, p ++ [key] <+: q → ∀ x, s.walk v p = some x →
    t.entry? x key = s.entry? x key) : t.walk v q = s.walk v q := by
  induction q using List.reverseRecOn with
  | nil => rfl
  | append_singleton q key ih =>
    rw [walk_concat, walk_concat, ih fun p k hp => h p k (hp.trans (List.prefix_append q _))]
    cases hx : s.walk v q with
    | none => rfl
    | some x => exact h q key List.prefix_rfl x hx

theorem walk_null (hv : v = .null) (key : String) (keys : List String) :
    s.walk v (key :: keys) = none := by
  rw [hv]
  rfl

/-! ## Targets -/

/-- A place that is neither one of the targets nor behind one. -/
def Free (ts : List (List String)) (q : List String) : Prop := ∀ p ∈ ts, ¬ p <+: q

/-- A place that is neither on the way to one of the targets, nor at one, nor behind one. -/
def Beside (ts : List (List String)) (q : List String) : Prop := Free ts q ∧ ∀ p ∈ ts, ¬ q <+: p

/-- No target is at another one or behind it. -/
def Split (ts : List (List String)) : Prop := ∀ p ∈ ts, ∀ q ∈ ts, p <+: q → p = q

variable {ts : List (List String)}

theorem Free.before (h : Free ts q) (hp : p <+: q) : Free ts p := fun x hx hxp => h x hx (hxp.trans hp)

/-- Whatever is before a target is free. -/
theorem Split.free (h : Split ts) (hp : p ∈ ts) (hq : q <+: p) (hne : q ≠ p) : Free ts q :=
  fun x hx hxq => hne (hq.eq_of_length_le (by
    rw [← h x hx p hp (hxq.trans hq)]
    exact hxq.length_le))

theorem ne_concat (a : List String) {k : String} {keys : List String} : a ≠ a ++ k :: keys := fun h =>
  absurd (congrArg List.length h) (by simp)

theorem ne_of_snoc_prefixed {k : String} (h : p ++ [k] <+: q) : p ≠ q := by
  rintro rfl
  exact absurd h.length_le (by simp)

/-- What comes before a longer place is before its last key. -/
theorem prefix_of_concat (h : p <+: q ++ [key]) (hne : p ≠ q ++ [key]) : p <+: q := by
  rcases List.prefix_concat_iff.1 h with h | h
  · exact absurd h hne
  · exact h

/-- The dictionaries before the targets form a tree, and nothing else is in the way to them. -/
structure Nested (ts : List (List String)) (o : Ref .dict) (s : Store) : Prop where
  there : ∀ q r, Free ts q → s.walk (.dict o) q = some (.dict r) → r.index < s.dicts.size
  single : ∀ p q r, Free ts p → Free ts q → s.walk (.dict o) p = some (.dict r) →
    s.walk (.dict o) q = some (.dict r) → p = q
  passable : ∀ p ∈ ts, ∀ q, q <+: p → q ≠ p → ∀ v, s.walk (.dict o) q = some v →
    v = .null ∨ ∃ r, v = .dict r

/-- What a write at a target has done to a nested mapping. -/
structure Written (ts : List (List String)) (o : Ref .dict) (p : List String) (v : Value)
    (s t : Store) : Prop where
  nested : Nested ts o t
  here : t.walk (.dict o) p = some v
  /-- Beside the target nothing has changed. -/
  beside : ∀ q, (∀ p, p <+: q → p ≠ q → Free ts p) → ¬ q <+: p → ¬ p <+: q →
    t.walk (.dict o) q = s.walk (.dict o) q
  /-- Dictionaries that are met newly are new. -/
  fresh : ∀ q r, Free ts q → t.walk (.dict o) q = some (.dict r) →
    s.walk (.dict o) q = some (.dict r) ∨ s.dicts.size ≤ r.index
  /-- Dictionaries before the targets stay where they are. -/
  stay : ∀ q r, Free ts q → s.walk (.dict o) q = some (.dict r) →
    t.walk (.dict o) q = some (.dict r)
  /-- No other dictionaries have changed. -/
  others : ∀ r : Ref .dict, r.index < s.dicts.size →
    (∀ q, Free ts q → s.walk (.dict o) q ≠ some (.dict r)) → t.get r = s.get r

theorem get_insert_of_ne (hr : r ≠ node) (key : String) (v : Value) :
    (s.insert node key v).get r = s.get r :=
  getD_setIfInBounds_of_ne fun hi => hr (by
    cases r
    cases node
    exact congrArg Ref.mk hi)

theorem size_insert (node : Ref .dict) (key : String) (v : Value) :
    (s.insert node key v).dicts.size = s.dicts.size := Array.size_setIfInBounds

/-- An entry that is written into a dictionary on the way is met at one place only. -/
theorem Nested.walk_insert (h : Nested ts o s) (ha : Free ts a)
    (hnode : s.walk (.dict o) a = some (.dict node)) (hq : ∀ p, p <+: q → p ≠ q → Free ts p)
    (hne : ¬ a ++ [key] <+: q) :
    (s.insert node key v).walk (.dict o) q = s.walk (.dict o) q := by
  refine walk_congr fun p k hp x hx => ?_
  have hpq : p <+: q := (List.prefix_append p [k]).trans hp
  have hfree : Free ts p := hq p hpq (ne_of_snoc_prefixed hp)
  cases x with
  | dict r =>
    show Entries.get? ((s.insert node key v).get r) k = Entries.get? (s.get r) k
    by_cases hr : r = node
    · subst hr
      have hpa := h.single p a r hfree ha hx hnode
      subst hpa
      have hget : (s.insert r key v).get r = Entries.insert (s.get r) key v :=
        getD_setIfInBounds_self (h.there p r ha hnode)
      rw [hget, Entries.get?_insert_of_ne]
      rintro rfl
      exact hne hp
    · exact congrArg (Entries.get? · k) (get_insert_of_ne hr key v)
  | _ => rfl

/-- The last step of a write. -/
theorem Nested.insert (hts : Split ts) (h : Nested ts o s) (hp : a ++ [key] ∈ ts)
    (hnode : s.walk (.dict o) a = some (.dict node)) :
    Written ts o (a ++ [key]) v s (s.insert node key v) := by
  have ha : Free ts a := hts.free hp (List.prefix_append a _) (ne_concat a)
  have hsame : ∀ {q}, (∀ p, p <+: q → p ≠ q → Free ts p) → ¬ a ++ [key] <+: q →
      (s.insert node key v).walk (.dict o) q = s.walk (.dict o) q := h.walk_insert ha hnode
  have hfree : ∀ {q}, Free ts q → (s.insert node key v).walk (.dict o) q = s.walk (.dict o) q :=
    fun hq => hsame (fun _ hp' _ => hq.before hp') (hq _ hp)
  constructor
  case nested =>
    constructor
    · intro q r hq hr
      rw [size_insert]
      exact h.there q r hq (hfree hq ▸ hr)
    · intro p q r hp hq hpr hqr
      exact h.single p q r hp hq (hfree hp ▸ hpr) (hfree hq ▸ hqr)
    · intro p hp' q hq hne x hx
      exact h.passable p hp' q hq hne x (hfree (hts.free hp' hq hne) ▸ hx)
  case here =>
    rw [walk_concat, hfree ha, hnode]
    show Entries.get? ((s.insert node key v).get node) key = some v
    rw [show (s.insert node key v).get node = Entries.insert (s.get node) key v from
      getD_setIfInBounds_self (h.there a node ha hnode)]
    exact Entries.get?_insert_self ..
  case beside => exact fun q hq _ hne => hsame hq hne
  case fresh => exact fun q r hq hr => Or.inl (hfree hq ▸ hr)
  case stay => exact fun q r hq hr => (hfree hq).trans hr
  case others => exact fun r _ hr => get_insert_of_ne (fun heq => hr a ha (by rw [hnode, heq])) key v

/-- New dictionaries are met nowhere. -/
theorem Nested.walk_newDict (h : Nested ts o s) (es : Entries Value)
    (hq : ∀ p, p <+: q → p ≠ q → Free ts p) :
    (s.newDict es).2.walk (.dict o) q = s.walk (.dict o) q := by
  refine walk_congr fun p k hp x hx => ?_
  have hfree : Free ts p := hq p ((List.prefix_append p [k]).trans hp) (ne_of_snoc_prefixed hp)
  cases x with
  | dict r => exact congrArg (Entries.get? · k) (getD_push_of_lt (h.there p r hfree hx))
  | _ => rfl

theorem Nested.newDict (h : Nested ts o s) (hts : Split ts) (es : Entries Value) :
    Nested ts o (s.newDict es).2 := by
  have hfree : ∀ {q}, Free ts q → (s.newDict es).2.walk (.dict o) q = s.walk (.dict o) q :=
    fun hq => h.walk_newDict es fun _ hp _ => hq.before hp
  constructor
  · intro q r hq hr
    exact (h.there q r hq (hfree hq ▸ hr)).trans_le
      (Nat.le_of_lt (Nat.lt_of_lt_of_eq (Nat.lt_succ_self _) (Array.size_push _).symm))
  · intro p q r hp hq hpr hqr
    exact h.single p q r hp hq (hfree hp ▸ hpr) (hfree hq ▸ hqr)
  · intro p hp q hq hne x hx
    exact h.passable p hp q hq hne x (hfree (hts.free hp hq hne) ▸ hx)

/-! ## One step on the way -/

/-- The store in which a dictionary that is missing on the way has been made. -/
def opened (s : Store) (node : Ref .dict) (key : String) : Store :=
  (s.newDict []).2.insert node key (.dict (s.newDict []).1)

theorem size_opened (s : Store) (node : Ref .dict) (key : String) :
    (s.opened node key).dicts.size = s.dicts.size + 1 :=
  (size_insert ..).trans (Array.size_push _)

/-- The new dictionary is empty. -/
theorem get_opened (h : node.index < s.dicts.size) (key : String) :
    (s.opened node key).get (⟨s.dicts.size⟩ : Ref .dict) = [] := by
  refine (get_insert_of_ne (fun heq => ?_) key _).trans getD_push_size
  rw [← heq] at h
  exact absurd h (Nat.lt_irrefl _)

section Steps

variable {path : String} {walked keys : List String}

theorem writeAlong_missing (hkeys : keys ≠ [])
    (h : (Entries.get? (s.get node) key).getD .null = .null) :
    s.writeAlong path node walked v (key :: keys) =
      (s.opened node key).writeAlong path ⟨s.dicts.size⟩ (walked ++ [key]) v keys := by
  rw [writeAlong]
  · dsimp only
    rw [h]
    rfl
  · exact hkeys

theorem writeAlong_child {child : Ref .dict} (hkeys : keys ≠ [])
    (h : Entries.get? (s.get node) key = some (.dict child)) :
    s.writeAlong path node walked v (key :: keys) =
      s.writeAlong path child (walked ++ [key]) v keys := by
  rw [writeAlong]
  · dsimp only
    rw [h]
    rfl
  · exact hkeys

theorem writeAlong_blocked (hkeys : keys ≠ [])
    (h : Entries.get? (s.get node) key = some x) (hnull : x ≠ .null)
    (hdict : ∀ r, x ≠ .dict r) : s.writeAlong path node walked v (key :: keys) =
      .error (.blockedPath path (String.intercalate "." (walked ++ [key])) (s.kindName x)) := by
  rw [writeAlong]
  · dsimp only
    rw [h]
    cases x with
    | null => exact absurd rfl hnull
    | dict r => exact absurd rfl (hdict r)
    | _ => rfl
  · exact hkeys

/-- The way goes on from a dictionary that is missing, from one that is there, or not at all. -/
theorem entry_cases (s : Store) (node : Ref .dict) (key : String) :
    (Entries.get? (s.get node) key).getD .null = .null ∨
      (∃ child, Entries.get? (s.get node) key = some (.dict child)) ∨
      ∃ x, Entries.get? (s.get node) key = some x ∧ x ≠ .null ∧ ∀ r, x ≠ .dict r := by
  cases h : Entries.get? (s.get node) key with
  | none => exact Or.inl rfl
  | some x =>
    by_cases hnull : x = .null
    · exact Or.inl hnull
    · by_cases hdict : ∃ r, x = .dict r
      · obtain ⟨r, rfl⟩ := hdict
        exact Or.inr (Or.inl ⟨r, rfl⟩)
      · exact Or.inr (Or.inr ⟨x, rfl, hnull, fun r hr => hdict ⟨r, hr⟩⟩)

end Steps

/-- What has changed when a dictionary has been made on the way to a target. -/
structure Made (ts : List (List String)) (o : Ref .dict) (a : List String) (s t : Store) : Prop where
  nested : Nested ts o t
  here : t.walk (.dict o) a = some (.dict ⟨s.dicts.size⟩)
  size : s.dicts.size ≤ t.dicts.size
  apart : ∀ q, (∀ p, p <+: q → p ≠ q → Free ts p) → ¬ a <+: q →
    t.walk (.dict o) q = s.walk (.dict o) q
  behind : ∀ key keys, t.walk (.dict o) (a ++ key :: keys) = none ∧
    s.walk (.dict o) (a ++ key :: keys) = none
  missing : ∀ r, s.walk (.dict o) a ≠ some (.dict r)
  others : ∀ r : Ref .dict, r.index < s.dicts.size →
    (∀ q, Free ts q → s.walk (.dict o) q ≠ some (.dict r)) → t.get r = s.get r

theorem Nested.opened (hts : Split ts) (h : Nested ts o s) {keys : List String} (hkeys : keys ≠ [])
    (hp : a ++ key :: keys ∈ ts) (hnode : s.walk (.dict o) a = some (.dict node))
    (hnull : (Entries.get? (s.get node) key).getD .null = .null) :
    Made ts o (a ++ [key]) s (s.opened node key) := by
  have ha : Free ts a := hts.free hp (List.prefix_append a _) (ne_concat a)
  have ha' : Free ts (a ++ [key]) := by
    refine hts.free hp ⟨keys, by simp⟩ fun heq => hkeys ?_
    simpa using heq
  have hnode₁ : (s.newDict []).2.walk (.dict o) a = some (.dict node) :=
    (h.walk_newDict [] fun _ hp _ => ha.before hp).trans hnode
  have h₁ := h.newDict hts []
  have hlt := h.there a node ha hnode
  have hsame : ∀ q, (∀ p, p <+: q → p ≠ q → Free ts p) → ¬ a ++ [key] <+: q →
      (s.opened node key).walk (.dict o) q = s.walk (.dict o) q := fun q hq hne =>
    (h₁.walk_insert ha hnode₁ hq hne).trans (h.walk_newDict [] hq)
  have hhere : (s.opened node key).walk (.dict o) (a ++ [key]) = some (.dict ⟨s.dicts.size⟩) := by
    rw [walk_concat, hsame a (fun _ hp _ => ha.before hp) fun hp => ?_, hnode]
    · show Entries.get? ((s.opened node key).get node) key = _
      rw [show (s.opened node key).get node = Entries.insert ((s.newDict []).2.get node) key _ from
        getD_setIfInBounds_self (h₁.there a node ha hnode₁)]
      exact Entries.get?_insert_self ..
    · exact absurd hp.length_le (by simp)
  have hsize := s.size_opened node key
  have hbehind : ∀ k keys, (s.opened node key).walk (.dict o) (a ++ [key] ++ k :: keys) = none := by
    intro k keys
    rw [walk_append, hhere]
    show (Entries.get? ((s.opened node key).get (⟨s.dicts.size⟩ : Ref .dict)) k).bind _ = none
    rw [get_opened hlt]
    rfl
  -- Places before the targets are the old ones and the new one.
  have hcases : ∀ {q x}, Free ts q → (s.opened node key).walk (.dict o) q = some x →
      (q = a ++ [key] ∧ x = .dict ⟨s.dicts.size⟩) ∨ s.walk (.dict o) q = some x := by
    intro q x hq hx
    by_cases hne : a ++ [key] <+: q
    · obtain ⟨rest, rfl⟩ := hne
      cases rest with
      | nil =>
        rw [List.append_nil] at hx ⊢
        exact Or.inl ⟨rfl, Option.some.inj (hx.symm.trans hhere)⟩
      | cons k keys => exact absurd (hx.symm.trans (hbehind k keys)) nofun
    · exact Or.inr (hsame q (fun _ hp _ => hq.before hp) hne ▸ hx)
  refine ⟨⟨?_, ?_, ?_⟩, hhere, hsize ▸ Nat.le_succ _, hsame, fun k keys => ⟨hbehind k keys, ?_⟩, ?_, ?_⟩
  · intro q r hq hr
    rw [hsize]
    rcases hcases hq hr with ⟨-, hr⟩ | hr
    · cases hr
      exact Nat.lt_succ_self _
    · exact (h.there q r hq hr).trans (Nat.lt_succ_self _)
  · intro p q r hp hq hpr hqr
    rcases hcases hp hpr with ⟨rfl, hr⟩ | hp' <;> rcases hcases hq hqr with ⟨rfl, hr'⟩ | hq'
    · rfl
    · cases hr
      exact absurd (h.there q _ hq hq') (Nat.lt_irrefl _)
    · cases hr'
      exact absurd (h.there p _ hp hp') (Nat.lt_irrefl _)
    · exact h.single p q r hp hq hp' hq'
  · intro p hp q hq hne x hx
    rcases hcases (hts.free hp hq hne) hx with ⟨-, rfl⟩ | hx
    · exact Or.inr ⟨_, rfl⟩
    · exact h.passable p hp q hq hne x hx
  · rw [walk_append, walk_concat, hnode]
    show ((Entries.get? (s.get node) key).bind _) = none
    cases hg : Entries.get? (s.get node) key with
    | none => rfl
    | some x =>
      rw [hg] at hnull
      exact walk_null hnull k keys
  · intro r hr
    rw [walk_concat, hnode] at hr
    rw [show Entries.get? (s.get node) key = some (.dict r) from hr] at hnull
    cases hnull
  · intro r hr hnot
    refine (get_insert_of_ne (fun heq => hnot a ha (by rw [hnode, heq])) key _).trans ?_
    exact getD_push_of_lt hr

/-- A write behind a dictionary that has been made on the way is a write from where one stood. -/
theorem Made.written {key : String} {keys : List String} {t u : Store} (h : Made ts o (a ++ [key]) s t)
    (hw : Written ts o (a ++ [key] ++ keys) v t u) :
    Written ts o (a ++ [key] ++ keys) v s u := by
  -- Nothing was at the new dictionary or behind it, and beside it nothing has changed.
  have hbehind : ∀ k rest, t.walk (.dict o) (a ++ [key] ++ k :: rest) = none ∧
      s.walk (.dict o) (a ++ [key] ++ k :: rest) = none := h.behind
  constructor
  case nested => exact hw.nested
  case here => exact hw.here
  case beside =>
    intro q hq hqp hpq
    rw [hw.beside q hq hqp hpq]
    by_cases hne : a ++ [key] <+: q
    · obtain ⟨rest, rfl⟩ := hne
      cases rest with
      | nil => exact absurd (by simp) hqp
      | cons k rest => exact (hbehind k rest).1.trans (hbehind k rest).2.symm
    · exact h.apart q hq hne
  case fresh =>
    intro q r hq hr
    rcases hw.fresh q r hq hr with hr | hr
    · by_cases hne : a ++ [key] <+: q
      · obtain ⟨rest, rfl⟩ := hne
        cases rest with
        | nil =>
          rw [List.append_nil, h.here] at hr
          cases hr
          exact Or.inr le_rfl
        | cons k rest => exact absurd (hr.symm.trans (hbehind k rest).1) nofun
      · exact Or.inl (h.apart q (fun _ hp _ => hq.before hp) hne ▸ hr)
    · exact Or.inr (h.size.trans hr)
  case stay =>
    intro q r hq hr
    refine hw.stay q r hq ?_
    by_cases hne : a ++ [key] <+: q
    · obtain ⟨rest, rfl⟩ := hne
      cases rest with
      | nil => exact absurd ((List.append_nil (a ++ [key])) ▸ hr) (h.missing r)
      | cons k rest => exact absurd (hr.symm.trans (hbehind k rest).2) nofun
    · exact (h.apart q (fun _ hp _ => hq.before hp) hne).trans hr
  case others =>
    intro r hr hnot
    rw [hw.others r (hr.trans_le h.size) fun q hq hwalk => ?_, h.others r hr hnot]
    by_cases hne : a ++ [key] <+: q
    · obtain ⟨rest, rfl⟩ := hne
      cases rest with
      | nil =>
        rw [List.append_nil, h.here] at hwalk
        cases hwalk
        exact absurd hr (Nat.lt_irrefl _)
      | cons k rest => exact absurd (hwalk.symm.trans (hbehind k rest).1) nofun
    · exact hnot q hq (h.apart q (fun _ hp _ => hq.before hp) hne ▸ hwalk)

/-- **A write at a target** changes what is found there, and beside it nothing. -/
theorem Nested.writeAlong (hts : Split ts) {path : String} {keys walked : List String} {t : Store}
    (hkeys : keys ≠ []) (hp : a ++ keys ∈ ts) (h : Nested ts o s)
    (hnode : s.walk (.dict o) a = some (.dict node))
    (ht : s.writeAlong path node walked v keys = .ok t) : Written ts o (a ++ keys) v s t := by
  induction keys generalizing a s node walked with
  | nil => exact absurd rfl hkeys
  | cons key keys ih =>
    cases keys with
    | nil =>
      cases ht
      exact h.insert hts hp hnode
    | cons key' keys =>
      have hne : key' :: keys ≠ [] := List.cons_ne_nil key' keys
      have hassoc : a ++ key :: key' :: keys = a ++ [key] ++ key' :: keys := by simp
      rcases s.entry_cases node key with hnull | ⟨child, hchild⟩ | ⟨x, hx, hnull, hdict⟩
      · rw [writeAlong_missing hne hnull] at ht
        have hmade := h.opened hts hne hp hnode hnull
        rw [hassoc] at hp ⊢
        exact hmade.written (ih hne hp hmade.nested hmade.here ht)
      · rw [writeAlong_child hne hchild] at ht
        rw [hassoc] at hp ⊢
        refine ih hne hp h ?_ ht
        rw [walk_concat, hnode]
        exact hchild
      · rw [writeAlong_blocked hne hx hnull hdict] at ht
        cases ht

theorem Nested.setPath (hts : Split ts) (h : Nested ts o s) {path : String}
    (hp : Path.segments path ∈ ts) (ht : s.setPath o path v = .ok t) :
    Written ts o (Path.segments path) v s t := by
  exact Nested.writeAlong (a := []) hts (Path.segments_ne_nil path) hp h rfl ht

end Store

end Conductor
