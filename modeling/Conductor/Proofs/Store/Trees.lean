import Conductor.Proofs.Store.Walking
import Mathlib.Data.Multiset.AddSub
import Mathlib.Data.Multiset.UnionInter

/-!
# Trees in the store

A value that has been made from new containers only, each met at one place, is a tree that nobody else
holds a part of. As long as nobody else writes into these containers, the tree is all that one needs to
know: a write at a path in a dictionary of trees gives the dictionary of the tree that one gets by
writing into the tree (`Tree.write`), and it fails if that fails.

**Representation.** `Spreads s es ts m` says that entries show trees, and which containers are read for
them, as a multiset: that it has no duplicates says that no container is met twice. What is asked of the
store is asked of these containers only, so the statement survives all that happens elsewhere
(`Spreads.congr`).

**Theorem (`Bears.writeAlong`).** Writing along a row of keys does to the dictionary what `Tree.write`
does to its trees, and touches nothing but the containers of the dictionary.
-/

namespace Conductor

namespace Entries

variable {α β : Type}

theorem map_insert (g : α → β) (key : String) (a : α) (es : Entries α) :
    (insert es key a).map (fun e => (e.1, g e.2)) = insert (es.map fun e => (e.1, g e.2)) key (g a) := by
  induction es with
  | nil => rfl
  | cons e es ih =>
    obtain ⟨k, b⟩ := e
    by_cases hk : k = key
    · simp [insert, hk]
    · simpa [insert, hk] using ih

theorem get?_map (g : α → β) (key : String) (es : Entries α) :
    get? (es.map fun e => (e.1, g e.2)) key = (get? es key).map g := by
  induction es with
  | nil => rfl
  | cons e es ih =>
    obtain ⟨k, a⟩ := e
    by_cases hk : k = key
    · simp [get?, hk]
    · simpa [get?, hk] using ih

end Entries

/-! ## Trees -/

namespace Tree

/-- A tree as it is seen down to a depth. -/
def cut : Nat → Tree → Tree
  | 0, _ => .leaf .null
  | _ + 1, .leaf v => .leaf v
  | n + 1, .node shape ts => .node shape (ts.map fun e => (e.1, cut n e.2))

/-- Entries as they are seen down to a depth. -/
def cutAll (n : Nat) (ts : Entries Tree) : Entries Tree := ts.map fun e => (e.1, e.2.cut n)

/-- The entries into which one writes at a key: those of the dictionary there, or none if nothing is
there. Into anything else one cannot write. -/
def entries? : Option Tree → Option (Entries Tree)
  | none | some (.leaf .null) => some []
  | some (.node .dict ts) => some ts
  | some _ => none

/-- Writes a tree behind a row of keys, with new dictionaries where there are none. -/
def write : Entries Tree → List String → Tree → Option (Entries Tree)
  | ts, [], _ => some ts
  | ts, [key], x => some (Entries.insert ts key x)
  | ts, key :: keys, x =>
    (entries? (Entries.get? ts key)).bind fun sub =>
      (write sub keys x).map fun sub => Entries.insert ts key (.node .dict sub)

/-- Writes trees at paths one after another, as far as they are not refused. -/
def writeAll (ts : Entries Tree) (ws : List (String × Tree)) : Entries Tree :=
  ws.foldl (fun ts w => (write ts (Path.segments w.1) w.2).getD ts) ts

theorem writeAll_append (ts : Entries Tree) (vs ws : List (String × Tree)) :
    writeAll ts (vs ++ ws) = writeAll (writeAll ts vs) ws := List.foldl_append

theorem write_cons {keys : List String} (hkeys : keys ≠ []) (ts : Entries Tree) (key : String)
    (x : Tree) : write ts (key :: keys) x = (entries? (Entries.get? ts key)).bind fun sub =>
      (write sub keys x).map fun sub => Entries.insert ts key (.node .dict sub) := by
  rw [write]
  exact hkeys

theorem cutAll_append (n : Nat) (ts us : Entries Tree) :
    cutAll n (ts ++ us) = cutAll n ts ++ cutAll n us := List.map_append

end Tree

namespace Store

/-- Entries as they look down to a depth. -/
def glance (s : Store) (n : Nat) (es : Entries Value) : Entries Tree :=
  es.map fun e => (e.1, s.unfold n e.2)

/-- Entries that show trees, and the containers that are read for them. -/
inductive Spreads (s : Store) : Entries Value → Entries Tree → Multiset Container → Prop
  | nil : Spreads s [] [] 0
  | leaf {key : String} {v : Value} {es : Entries Value} {ts : Entries Tree}
    {m : Multiset Container} (hv : v.container? = none) (h : Spreads s es ts m) :
    Spreads s ((key, v) :: es) ((key, .leaf v) :: ts) m
  | node {key : String} {v : Value} {shape : Shape} {c : Container} {es : Entries Value}
    {sub ts : Entries Tree} {m m' : Multiset Container} (hv : v.container? = some (shape, c))
    (hc : s.Has c) (hsub : Spreads s (s.content c) sub m) (h : Spreads s es ts m') :
    Spreads s ((key, v) :: es) ((key, .node shape sub) :: ts) (c ::ₘ (m + m'))

variable {s t u : Store} {es : Entries Value} {ts : Entries Tree} {m mx : Multiset Container}
  {key : String} {v w : Value} {x : Tree} {node : Ref .dict}

/-- Where something was only added, all that was there is as it was. -/
theorem Keeps.all (h : Keeps ∅ s t) : ∀ c, s.Has c → t.Has c ∧ t.content c = s.content c :=
  fun c hc => ⟨h.has c hc, h.content c (Set.notMem_empty c) hc⟩

theorem Keeps.of_empty (h : Keeps ∅ s t) (X : Set Container) : Keeps X s t :=
  h.mono fun c hc => absurd hc (Set.notMem_empty c)

namespace Spreads

theorem has (h : s.Spreads es ts m) : ∀ c ∈ m, s.Has c := by
  induction h with
  | nil => exact fun c hc => absurd hc (Multiset.notMem_zero c)
  | leaf hv h ih => exact ih
  | node hv hc hsub h ihsub ih =>
    intro d hd
    rcases Multiset.mem_cons.1 hd with rfl | hd
    · exact hc
    · exact (Multiset.mem_add.1 hd).elim (ihsub d) (ih d)

/-- Trees stay where their containers stay as they are. -/
theorem congr (h : s.Spreads es ts m)
    (ht : ∀ c ∈ m, s.Has c → t.Has c ∧ t.content c = s.content c) : t.Spreads es ts m := by
  induction h with
  | nil => exact .nil
  | leaf hv h ih => exact .leaf hv (ih ht)
  | node hv hc hsub h ihsub ih =>
    obtain ⟨hc', hcontent⟩ := ht _ (Multiset.mem_cons_self ..) hc
    refine .node hv hc' (hcontent ▸ ihsub fun d hd => ht d ?_) (ih fun d hd => ht d ?_)
    · exact Multiset.mem_cons_of_mem (Multiset.mem_add.2 (Or.inl hd))
    · exact Multiset.mem_cons_of_mem (Multiset.mem_add.2 (Or.inr hd))

/-- Whatever is held in one of the containers is in another one of them, or in none. -/
theorem closed (h : s.Spreads es ts m) {c : Container} (hc : c ∈ m) {e : String × Value}
    (he : e ∈ s.content c) {shape : Shape} {d : Container}
    (hd : e.2.container? = some (shape, d)) : d ∈ m := by
  -- The containers that entries show at once are among those that are read for them.
  have hhead : ∀ {es : Entries Value} {ts : Entries Tree} {m : Multiset Container},
      s.Spreads es ts m → ∀ e ∈ es, e.2.container? = some (shape, d) → d ∈ m := by
    intro es ts m h
    induction h with
    | nil => exact fun e he => absurd he List.not_mem_nil
    | leaf hv h ih =>
      intro e he hd
      rcases List.mem_cons.1 he with rfl | he
      · exact absurd (hv.symm.trans hd) nofun
      · exact ih e he hd
    | node hv hc hsub h ihsub ih =>
      intro e he hd
      rcases List.mem_cons.1 he with rfl | he
      · cases hv.symm.trans hd
        exact Multiset.mem_cons_self ..
      · exact Multiset.mem_cons_of_mem (Multiset.mem_add.2 (Or.inr (ih e he hd)))
  induction h with
  | nil => exact absurd hc (Multiset.notMem_zero c)
  | leaf hv h ih => exact ih hc
  | node hv hc' hsub h ihsub ih =>
    refine Multiset.mem_cons_of_mem (Multiset.mem_add.2 ?_)
    rcases Multiset.mem_cons.1 hc with rfl | hc
    · exact Or.inl (hhead hsub e he hd)
    · exact (Multiset.mem_add.1 hc).imp ihsub ih

/-- Entries look like the trees that they show. -/
theorem glance (h : s.Spreads es ts m) (n : Nat) : s.glance n es = Tree.cutAll n ts := by
  induction h generalizing n with
  | nil => rfl
  | leaf hv h ih =>
    refine congrArg₂ List.cons (congrArg (Prod.mk _) ?_) (ih n)
    cases n with
    | zero => rfl
    | succ n => exact unfold_leaf hv n
  | node hv hc hsub h ihsub ih =>
    refine congrArg₂ List.cons (congrArg (Prod.mk _) ?_) (ih n)
    cases n with
    | zero => rfl
    | succ n => exact (unfold_node hv hc n).trans (congrArg (Tree.node _) (ihsub n))

theorem keys (h : s.Spreads es ts m) : Entries.keys ts = Entries.keys es := by
  induction h with
  | nil => rfl
  | leaf hv h ih => exact congrArg (List.cons _) ih
  | node hv hc hsub h ihsub ih => exact congrArg (List.cons _) ih

/-! ## Entries one by one -/

theorem cons {m' : Multiset Container} (hx : s.Spreads [(key, v)] [(key, x)] mx)
    (h : s.Spreads es ts m') : s.Spreads ((key, v) :: es) ((key, x) :: ts) (mx + m') := by
  cases hx with
  | leaf hv hnil =>
    cases hnil
    exact (zero_add m').symm ▸ .leaf hv h
  | node hv hc hsub hnil =>
    cases hnil
    rw [add_zero, Multiset.cons_add]
    exact .node hv hc hsub h

theorem uncons (h : s.Spreads ((key, v) :: es) ts m) : ∃ x ts' m₁ m₂, ts = (key, x) :: ts' ∧
    m = m₁ + m₂ ∧ s.Spreads [(key, v)] [(key, x)] m₁ ∧ s.Spreads es ts' m₂ := by
  cases h with
  | leaf hv h => exact ⟨_, _, 0, _, rfl, (zero_add _).symm, .leaf hv .nil, h⟩
  | node hv hc hsub h =>
    refine ⟨_, _, _, _, rfl, ?_, .node hv hc hsub .nil, h⟩
    rw [add_zero, Multiset.cons_add]

/-- It does not matter under which key a value is held. -/
theorem rename (h : s.Spreads [(key, v)] [(key, x)] m) (key' : String) :
    s.Spreads [(key', v)] [(key', x)] m := by
  cases h with
  | leaf hv h => exact .leaf hv h
  | node hv hc hsub h => exact .node hv hc hsub h

/-- What is inserted into entries is inserted into their trees. -/
theorem insert (h : s.Spreads es ts m) (hx : s.Spreads [(key, v)] [(key, x)] mx) :
    ∃ m' ≤ m + mx, s.Spreads (Entries.insert es key v) (Entries.insert ts key x) m' := by
  induction es generalizing ts m with
  | nil =>
    cases h
    exact ⟨mx, (zero_add mx).ge, hx⟩
  | cons e es ih =>
    obtain ⟨k, w⟩ := e
    obtain ⟨y, ts, m₁, m₂, rfl, rfl, hy, h⟩ := h.uncons
    by_cases hk : k = key
    · subst hk
      simp only [Entries.insert, if_pos]
      refine ⟨mx + m₂, ?_, hx.cons h⟩
      rw [add_comm mx, add_assoc]
      exact Multiset.le_add_left _ _
    · obtain ⟨m', hle, h'⟩ := ih h
      simp only [Entries.insert, if_neg hk]
      refine ⟨m₁ + m', ?_, hy.cons h'⟩
      rw [add_assoc]
      exact add_le_add_right hle m₁

/-- Under each key there is a tree of its own, and another tree may take its place while all others stay
as they are. -/
theorem focus (h : s.Spreads es ts m) (hv : Entries.get? es key = some v) : ∃ x m₁ m₂,
    Entries.get? ts key = some x ∧ m = m₁ + m₂ ∧ s.Spreads [(key, v)] [(key, x)] m₁ ∧
      ∀ (t : Store) (x' : Tree) (m₁' : Multiset Container),
        (∀ c ∈ m₂, s.Has c → t.Has c ∧ t.content c = s.content c) →
          t.Spreads [(key, v)] [(key, x')] m₁' → t.Spreads es (Entries.insert ts key x') (m₁' + m₂) := by
  induction es generalizing ts m with
  | nil => cases hv
  | cons e es ih =>
    obtain ⟨k, w⟩ := e
    obtain ⟨y, ts, m₁, m₂, rfl, rfl, hy, h⟩ := h.uncons
    by_cases hk : k = key
    · subst hk
      simp only [Entries.get?, if_pos, Option.some.injEq] at hv
      subst hv
      refine ⟨y, m₁, m₂, if_pos rfl, rfl, hy, fun t x' m₁' ht hx' => ?_⟩
      simp only [Entries.insert, if_pos]
      exact hx'.cons (h.congr ht)
    · simp only [Entries.get?, if_neg hk] at hv ⊢
      obtain ⟨x, n₁, n₂, hx, rfl, hspread, hnext⟩ := ih h hv
      refine ⟨x, n₁, m₁ + n₂, hx, add_left_comm .., hspread, fun t x' m₁' ht hx' => ?_⟩
      simp only [Entries.insert, if_neg hk]
      rw [add_left_comm]
      exact (hy.congr fun c hc => ht c (Multiset.mem_add.2 (Or.inl hc))).cons
        (hnext t x' m₁' (fun c hc => ht c (Multiset.mem_add.2 (Or.inr hc))) hx')

theorem get?_eq_none (h : s.Spreads es ts m) (hv : Entries.get? es key = none) :
    Entries.get? ts key = none := by
  have hkey : ¬ Entries.has ts key = true := by
    rw [Entries.has_iff, h.keys, ← Entries.has_iff, Entries.has, hv]
    exact Bool.false_ne_true
  cases hx : Entries.get? ts key with
  | none => rfl
  | some x => exact absurd (by rw [Entries.has, hx]; rfl) hkey

end Spreads

/-! ## Dictionaries of trees -/

/-- Where some containers are replaced by others, of which each was among them or is new, still none is met
twice. -/
theorem nodup_replace {a : Container} {m m' others : Multiset Container} {p : Container → Prop}
    (h : (a ::ₘ (m + others)).Nodup) (hm' : m'.Nodup) (hfrom : ∀ c ∈ m', c ∈ m ∨ p c)
    (hold : ∀ c ∈ a ::ₘ others, ¬ p c) : (a ::ₘ (m' + others)).Nodup := by
  obtain ⟨ha, hall⟩ := Multiset.nodup_cons.1 h
  obtain ⟨-, hothers, hdisj⟩ := Multiset.nodup_add.1 hall
  refine Multiset.nodup_cons.2 ⟨fun hmem => ?_, Multiset.nodup_add.2
    ⟨hm', hothers, Multiset.disjoint_left.2 fun {c} hc hc' => ?_⟩⟩
  · rcases Multiset.mem_add.1 hmem with hmem | hmem
    · rcases hfrom a hmem with hmem | hnew
      · exact ha (Multiset.mem_add.2 (Or.inl hmem))
      · exact hold a (Multiset.mem_cons_self ..) hnew
    · exact ha (Multiset.mem_add.2 (Or.inr hmem))
  · rcases hfrom c hc with hc | hnew
    · exact Multiset.disjoint_left.1 hdisj hc hc'
    · exact hold c (Multiset.mem_cons_of_mem hc') hnew

/-- Nothing that is left as it is belongs to the rest. -/
theorem notMem_of_nodup {a c : Container} {m others : Multiset Container}
    (h : (a ::ₘ (m + others)).Nodup) (hc : c ∈ a ::ₘ others) : c ∉ m := by
  obtain ⟨ha, hall⟩ := Multiset.nodup_cons.1 h
  obtain ⟨-, -, hdisj⟩ := Multiset.nodup_add.1 hall
  intro hm
  rcases Multiset.mem_cons.1 hc with rfl | hc
  · exact ha (Multiset.mem_add.2 (Or.inl hm))
  · exact Multiset.disjoint_left.1 hdisj hm hc

/-- A dictionary that holds trees, in containers of which none is met twice. -/
structure Bears (s : Store) (node : Ref .dict) (ts : Entries Tree) (m : Multiset Container) :
    Prop where
  there : s.Has (.dict node)
  spreads : s.Spreads (s.get node) ts m
  once : (Container.dict node ::ₘ m).Nodup

theorem Bears.congr (h : s.Bears node ts m)
    (ht : ∀ c ∈ Container.dict node ::ₘ m, s.Has c → t.Has c ∧ t.content c = s.content c) :
    t.Bears node ts m := by
  obtain ⟨hthere, hcontent⟩ := ht _ (Multiset.mem_cons_self ..) h.there
  refine ⟨hthere, ?_, h.once⟩
  have hget : t.get node = s.get node := hcontent
  rw [hget]
  exact h.spreads.congr fun c hc => ht c (Multiset.mem_cons_of_mem hc)

/-- What a write into a dictionary of trees may come to: a failure if there is no tree for it, and otherwise
a dictionary of the trees. -/
def Lands (s : Store) (node : Ref .dict) (m mx : Multiset Container) (r : Except Cause Store) :
    Option (Entries Tree) → Prop
  | none => ∃ e, r = .error e
  | some ts => ∃ t m', r = .ok t ∧ t.Bears node ts m' ∧ (∀ c ∈ m', c ∈ m ∨ c ∈ mx ∨ ¬ s.Has c) ∧
    Keeps {c | c = .dict node ∨ c ∈ m} s t

/-- An entry is written into a dictionary of trees. -/
theorem Bears.insert (h : s.Bears node ts m) (hx : s.Spreads [(key, v)] [(key, x)] mx)
    (hnd : (Container.dict node ::ₘ (m + mx)).Nodup) :
    ∃ m' ≤ m + mx, (s.insert node key v).Bears node (Entries.insert ts key x) m' := by
  obtain ⟨m', hle, hspreads⟩ := h.spreads.insert hx
  refine ⟨m', hle, ?_, ?_, Multiset.nodup_of_le (Multiset.cons_le_cons _ hle) hnd⟩
  · exact (keeps_insert s node key v).has _ h.there
  · have hget : (s.insert node key v).get node = Entries.insert (s.get node) key v :=
      getD_setIfInBounds_self h.there
    rw [hget]
    refine hspreads.congr fun c hc hhas => ⟨(keeps_insert s node key v).has c hhas, ?_⟩
    refine (keeps_insert s node key v).content c (fun heq => ?_) hhas
    cases heq
    exact (Multiset.nodup_cons.1 hnd).1 (Multiset.mem_of_le hle hc)

/-- Below a dictionary in a dictionary one writes as into the inner one. -/
theorem Bears.below {child : Ref .dict} {r : Except Cause Store} (h : s.Bears node ts m)
    (hnd : (Container.dict node ::ₘ (m + mx)).Nodup)
    (hchild : Entries.get? (s.get node) key = some (.dict child)) :
    ∃ sub m₁, Entries.get? ts key = some (.node .dict sub) ∧ s.Bears child sub m₁ ∧
      (Container.dict child ::ₘ (m₁ + mx)).Nodup ∧ ∀ o, s.Lands child m₁ mx r o →
        s.Lands node m mx r (o.map fun sub => Entries.insert ts key (.node .dict sub)) := by
  obtain ⟨x, m₁, m₂, hx, rfl, hspreads, hnext⟩ := h.spreads.focus hchild
  cases hspreads with
  | leaf hv hnil => cases hv
  | @node _ _ shape c _ sub _ m₁ _ hv hc hsub hnil =>
    cases hnil
    cases hv
    rw [add_zero] at hnd h ⊢
    have hall : (Container.dict node ::ₘ ((Container.dict child ::ₘ (m₁ + mx)) + m₂)).Nodup := by
      rwa [add_right_comm, Multiset.cons_add (Container.dict child)] at hnd
    have hinner := (Multiset.nodup_add.1 (Multiset.nodup_cons.1 hall).2).1
    refine ⟨sub, m₁, hx, ⟨hc, hsub, ?_⟩, hinner, fun o ho => ?_⟩
    · exact Multiset.nodup_of_le (Multiset.cons_le_cons _ (Multiset.le_add_right _ _)) hinner
    · cases o with
      | none => exact ho
      | some sub' =>
        obtain ⟨t, m', rfl, hbears, hfrom, hkeeps⟩ := ho
        have hothers : ∀ c ∈ Container.dict node ::ₘ m₂, s.Has c := fun c hc' =>
          (Multiset.mem_cons.1 hc').elim (fun heq => heq ▸ h.there) fun hc' =>
            h.spreads.has c (Multiset.mem_add.2 (Or.inr hc'))
        -- The outer dictionary and the other trees in it stay as they are.
        have hkeep : ∀ c ∈ Container.dict node ::ₘ m₂, t.content c = s.content c := by
          intro c hc'
          refine hkeeps.content c (fun hmem => notMem_of_nodup hall hc' ?_) (hothers c hc')
          exact Multiset.mem_cons.2 (hmem.imp_right fun hmem => Multiset.mem_add.2 (Or.inl hmem))
        have hget : t.get node = s.get node := hkeep _ (Multiset.mem_cons_self ..)
        have hnew : t.Spreads (s.get node) (Entries.insert ts key (.node .dict sub'))
            ((Container.dict child ::ₘ (m' + 0)) + m₂) :=
          hnext t (.node .dict sub') _
            (fun c hc' hhas => ⟨hkeeps.has c hhas, hkeep c (Multiset.mem_cons_of_mem hc')⟩)
            (.node rfl hbears.there hbears.spreads .nil)
        rw [add_zero] at hnew
        refine ⟨t, _, rfl, ⟨hkeeps.has _ h.there, hget ▸ hnew, ?_⟩, fun c hc' => ?_,
          hkeeps.mono fun c hc' _ => Or.inr (Multiset.mem_add.2 (Or.inl (Multiset.mem_cons.2 hc')))⟩
        · refine nodup_replace hall hbears.once (fun c hc' => ?_) fun c hc' => not_not_intro (hothers c hc')
          rcases Multiset.mem_cons.1 hc' with rfl | hc'
          · exact Or.inl (Multiset.mem_cons_self ..)
          · exact (or_assoc.2 (hfrom c hc')).imp_left fun hmem =>
              Multiset.mem_cons_of_mem (Multiset.mem_add.2 hmem)
        · rcases Multiset.mem_add.1 hc' with hc' | hc'
          · rcases Multiset.mem_cons.1 hc' with rfl | hc'
            · exact Or.inl (Multiset.mem_add.2 (Or.inl (Multiset.mem_cons_self ..)))
            · refine (hfrom c hc').imp_left fun hmem => ?_
              exact Multiset.mem_add.2 (Or.inl (Multiset.mem_cons_of_mem hmem))
          · exact Or.inl (Multiset.mem_add.2 (Or.inr hc'))

/-! ## Writing along keys -/

section Writing

variable {path : String} {walked keys : List String}

theorem entries?_of_nothing (h : s.Spreads es ts m)
    (hnull : (Entries.get? es key).getD .null = .null) :
    Tree.entries? (Entries.get? ts key) = some [] := by
  cases hv : Entries.get? es key with
  | none => rw [h.get?_eq_none hv]; rfl
  | some v =>
    rw [hv] at hnull
    cases hnull
    obtain ⟨x, m₁, m₂, hx, -, hspreads, -⟩ := h.focus hv
    rw [hx]
    cases hspreads with
    | leaf => rfl
    | node hc => cases hc

theorem entries?_of_other (h : s.Spreads es ts m) (hv : Entries.get? es key = some v)
    (hnull : v ≠ .null) (hdict : ∀ r, v ≠ .dict r) :
    Tree.entries? (Entries.get? ts key) = none := by
  obtain ⟨x, m₁, m₂, hx, -, hspreads, -⟩ := h.focus hv
  rw [hx]
  cases hspreads with
  | leaf hleaf hnil =>
    cases v with
    | null => exact absurd rfl hnull
    | _ => rfl
  | node hc hthere hsub hnil =>
    cases v with
    | dict r => exact absurd rfl (hdict r)
    | list r | tuple r | results r =>
      cases hc
      rfl
    | _ => cases hc

/-- A dictionary that is missing is made as one that holds nothing. -/
theorem Bears.opened (h : s.Bears node ts m) (key : String) :
    ∃ m' ≤ m + {.dict ⟨s.dicts.size⟩},
      (s.opened node key).Bears node (Entries.insert ts key (.node .dict [])) m' := by
  have hnew : ¬ s.Has (.dict ⟨s.dicts.size⟩) := Nat.lt_irrefl _
  have hkeeps : Keeps ∅ s (s.newDict []).2 := keeps_newDict s []
  have hb : (s.newDict []).2.Bears node ts m :=
    h.congr fun c _ => hkeeps.all c
  have hthere : (s.newDict []).2.Has (.dict ⟨s.dicts.size⟩) :=
    Nat.lt_of_lt_of_eq (Nat.lt_succ_self _) (Array.size_push _).symm
  have hget : (s.newDict []).2.content (.dict ⟨s.dicts.size⟩) = [] := getD_push_size
  have hx : (s.newDict []).2.Spreads [(key, .dict ⟨s.dicts.size⟩)] [(key, .node .dict [])]
      {.dict ⟨s.dicts.size⟩} := by
    rw [show ({.dict ⟨s.dicts.size⟩} : Multiset Container) = .dict ⟨s.dicts.size⟩ ::ₘ (0 + 0) from rfl]
    refine .node rfl hthere ?_ .nil
    rw [hget]
    exact .nil
  refine hb.insert hx (add_comm m _ ▸ nodup_replace (m := 0) (p := fun c => ¬ s.Has c)
    ((zero_add m).symm ▸ h.once) (Multiset.nodup_singleton _) (fun c hc => Or.inr ?_)
    fun c hc => not_not_intro ?_)
  · exact Multiset.mem_singleton.1 hc ▸ hnew
  · exact (Multiset.mem_cons.1 hc).elim (fun heq => heq ▸ h.there) (h.spreads.has c)

theorem get?_opened (h : s.Has (.dict node)) (key : String) :
    Entries.get? ((s.opened node key).get node) key = some (.dict ⟨s.dicts.size⟩) := by
  have hin : (s.newDict []).2.Has (.dict node) := (keeps_newDict (X := ∅) s []).has _ h
  have hget : (s.opened node key).get node =
      Entries.insert ((s.newDict []).2.get node) key (.dict ⟨s.dicts.size⟩) :=
    getD_setIfInBounds_self hin
  rw [hget]
  exact Entries.get?_insert_self ..

theorem keeps_opened (s : Store) (node : Ref .dict) (key : String) :
    Keeps {.dict node} s (s.opened node key) :=
  (keeps_newDict s []).trans (keeps_insert _ node key _)

/-- **Writing along a row of keys** does to a dictionary what it does to its trees. -/
theorem Bears.writeAlong (h : s.Bears node ts m) (hx : s.Spreads [("", v)] [("", x)] mx)
    (hnd : (Container.dict node ::ₘ (m + mx)).Nodup) :
    s.Lands node m mx (s.writeAlong path node walked v keys) (Tree.write ts keys x) := by
  induction keys generalizing s node ts m walked with
  | nil => exact ⟨s, m, rfl, h, fun c hc => Or.inl hc, .refl _ s⟩
  | cons key keys ih =>
    by_cases hne : keys = []
    · subst hne
      obtain ⟨m', hle, hb⟩ := h.insert (hx.rename key) hnd
      refine ⟨_, m', rfl, hb, fun c hc => ?_, (keeps_insert s node key v).mono fun c hc _ => Or.inl hc⟩
      exact (Multiset.mem_add.1 (Multiset.mem_of_le hle hc)).imp_right Or.inl
    · -- Where there is a dictionary under the key, one goes on in it.
      have hinner : ∀ {s : Store} {ts : Entries Tree} {m : Multiset Container} {child : Ref .dict},
          s.Bears node ts m → s.Spreads [("", v)] [("", x)] mx →
          (Container.dict node ::ₘ (m + mx)).Nodup →
          Entries.get? (s.get node) key = some (.dict child) →
          s.Lands node m mx (s.writeAlong path node walked v (key :: keys))
            (Tree.write ts (key :: keys) x) := by
        intro s ts m child h hx hnd hchild
        obtain ⟨sub, m₁, hsub, hb, hnd', hlands⟩ := h.below hnd hchild
        rw [writeAlong_child hne hchild, Tree.write_cons hne, hsub]
        exact hlands _ (ih hb hx hnd')
      rcases s.entry_cases node key with hnull | ⟨child, hchild⟩ | ⟨w, hw, hnull, hdict⟩
      · -- Where there is none, one is made, and then one goes on in that.
        obtain ⟨m', hle, hb⟩ := h.opened key
        have hkeeps := s.keeps_opened node key
        have hnew : ¬ s.Has (.dict ⟨s.dicts.size⟩) := Nat.lt_irrefl _
        have hm' : ∀ c ∈ m', c ∈ m ∨ ¬ s.Has c := by
          intro c hc
          rcases Multiset.mem_add.1 (Multiset.mem_of_le hle hc) with hc | hc
          · exact Or.inl hc
          · exact Or.inr (Multiset.mem_singleton.1 hc ▸ hnew)
        have hx' : (s.opened node key).Spreads [("", v)] [("", x)] mx := by
          refine hx.congr fun c hc hhas => ⟨hkeeps.has c hhas, hkeeps.content c (fun heq => ?_) hhas⟩
          cases heq
          exact (Multiset.nodup_cons.1 hnd).1 (Multiset.mem_add.2 (Or.inr hc))
        have hnd' : (Container.dict node ::ₘ (m' + mx)).Nodup :=
          nodup_replace hnd (Multiset.nodup_cons.1 hb.once).2 hm' fun c hc => not_not_intro
            ((Multiset.mem_cons.1 hc).elim (fun heq => heq ▸ h.there) (hx.has c))
        have hlands := hinner hb hx' hnd' (get?_opened h.there key)
        have hstore : s.writeAlong path node walked v (key :: keys) =
            (s.opened node key).writeAlong path node walked v (key :: keys) :=
          (writeAlong_missing hne hnull).trans (writeAlong_child hne (get?_opened h.there key)).symm
        have htree : Tree.write (Entries.insert ts key (.node .dict [])) (key :: keys) x =
            Tree.write ts (key :: keys) x := by
          rw [Tree.write_cons hne, Tree.write_cons hne, Entries.get?_insert_self,
            entries?_of_nothing h.spreads hnull]
          simp only [Entries.insert_insert]
          rfl
        rw [hstore, ← htree]
        revert hlands
        cases Tree.write (Entries.insert ts key (.node .dict [])) (key :: keys) x with
        | none => exact id
        | some ts' =>
          rintro ⟨t, m₂, ht, hb', hfrom, hkeeps'⟩
          refine ⟨t, m₂, ht, hb', fun c hc => ?_, ?_⟩
          · rcases hfrom c hc with hc | hc | hc
            · exact (hm' c hc).imp_right Or.inr
            · exact Or.inr (Or.inl hc)
            · exact Or.inr (Or.inr fun hhas => hc (hkeeps.has c hhas))
          · refine ((hkeeps.mono fun c hc _ => Or.inl hc).trans hkeeps').mono fun c hc hhas => ?_
            exact hc.imp_right fun hc => (hm' c hc).resolve_right (not_not_intro hhas)
      · exact hinner h hx hnd hchild
      · rw [writeAlong_blocked hne hw hnull hdict, Tree.write_cons hne,
          entries?_of_other h.spreads hw hnull hdict]
        exact ⟨_, rfl⟩

end Writing

/-! ## New values -/

/-- Entries that show trees in new containers only, none of which is met twice. No container that was
there has changed. -/
structure Fresh (s t : Store) (es : Entries Value) (ts : Entries Tree) : Prop where
  keeps : Keeps ∅ s t
  spreads : ∃ m, t.Spreads es ts m ∧ m.Nodup ∧ ∀ c ∈ m, ¬ s.Has c

namespace Fresh

theorem nil (h : Keeps ∅ s t) : Fresh s t [] [] :=
  ⟨h, 0, .nil, Multiset.nodup_zero, fun c hc => absurd hc (Multiset.notMem_zero c)⟩

/-- What is no container needs none. -/
theorem leaf (h : Keeps ∅ s t) (hv : v.container? = none) (key : String) :
    Fresh s t [(key, v)] [(key, .leaf v)] :=
  ⟨h, 0, .leaf hv .nil, Multiset.nodup_zero, fun c hc => absurd hc (Multiset.notMem_zero c)⟩

theorem cons (hx : Fresh s t [(key, v)] [(key, x)]) (h : Fresh t u es ts) :
    Fresh s u ((key, v) :: es) ((key, x) :: ts) := by
  obtain ⟨hkeeps, m, hspreads, hnd, hnew⟩ := hx
  obtain ⟨hkeeps', m', hspreads', hnd', hnew'⟩ := h
  refine ⟨hkeeps.trans hkeeps', m + m', ?_, Multiset.nodup_add.2 ⟨hnd, hnd', ?_⟩, fun c hc => ?_⟩
  · exact (hspreads.congr fun c _ => hkeeps'.all c).cons hspreads'
  · exact Multiset.disjoint_left.2 fun {c} hc hc' => hnew' c hc' (hspreads.has c hc)
  · rcases Multiset.mem_add.1 hc with hc | hc
    · exact hnew c hc
    · exact fun hhas => hnew' c hc (hkeeps.has c hhas)

/-- A new container for new entries. -/
theorem gather {shape : Shape} {c : Container} (h : Fresh s t es ts) (hkeeps : Keeps ∅ t u)
    (hv : v.container? = some (shape, c)) (hnew : ¬ t.Has c) (hc : u.Has c)
    (hcontent : u.content c = es) (key : String) : Fresh s u [(key, v)] [(key, .node shape ts)] := by
  obtain ⟨hst, m, hspreads, hnd, hm⟩ := h
  refine ⟨hst.trans hkeeps, c ::ₘ (m + 0), .node hv hc ?_ .nil, ?_, fun d hd => ?_⟩
  · rw [hcontent]
    exact hspreads.congr fun d _ => hkeeps.all d
  · rw [add_zero]
    exact Multiset.nodup_cons.2 ⟨fun hmem => hnew (hspreads.has c hmem), hnd⟩
  · rw [add_zero] at hd
    rcases Multiset.mem_cons.1 hd with rfl | hd
    · exact fun hhas => hnew (hst.has d hhas)
    · exact hm d hd

theorem rename (h : Fresh s t [(key, v)] [(key, x)]) (key' : String) :
    Fresh s t [(key', v)] [(key', x)] :=
  ⟨h.keeps, h.spreads.imp fun _ hm => ⟨hm.1.rename key', hm.2⟩⟩

theorem newList {vs : List Value} (h : Fresh s t (vs.map fun v => ("", v)) ts) (key : String) :
    Fresh s (t.newList vs).2 [(key, (t.newList vs).1)] [(key, .node .list ts)] :=
  h.gather (c := .sequence ⟨t.sequences.size⟩) (keeps_newList t vs) rfl (Nat.lt_irrefl _)
    (Nat.lt_of_lt_of_eq (Nat.lt_succ_self _) (Array.size_push _).symm)
    (congrArg (List.map fun v => ("", v)) getD_push_size) key

theorem newTuple {vs : List Value} (h : Fresh s t (vs.map fun v => ("", v)) ts) (key : String) :
    Fresh s (t.newTuple vs).2 [(key, (t.newTuple vs).1)] [(key, .node .tuple ts)] :=
  h.gather (c := .sequence ⟨t.sequences.size⟩) (keeps_newList t vs) rfl (Nat.lt_irrefl _)
    (Nat.lt_of_lt_of_eq (Nat.lt_succ_self _) (Array.size_push _).symm)
    (congrArg (List.map fun v => ("", v)) getD_push_size) key

theorem newDict (h : Fresh s t es ts) (key : String) :
    Fresh s (t.newDict es).2 [(key, .dict (t.newDict es).1)] [(key, .node .dict ts)] :=
  h.gather (c := .dict ⟨t.dicts.size⟩) (keeps_newDict t es) rfl (Nat.lt_irrefl _)
    (Nat.lt_of_lt_of_eq (Nat.lt_succ_self _) (Array.size_push _).symm) getD_push_size key

theorem newResults (h : Fresh s t es ts) (key : String) :
    Fresh s (t.alloc (t := .results) es).2 [(key, .results (t.alloc (t := .results) es).1)]
      [(key, .node .results ts)] :=
  h.gather (c := .results ⟨t.results.size⟩) (keeps_newResults t es) rfl (Nat.lt_irrefl _)
    (Nat.lt_of_lt_of_eq (Nat.lt_succ_self _) (Array.size_push _).symm) getD_push_size key

end Fresh

mutual

/-- Data that are put into the store give a new value. -/
theorem fresh_build (key : String) : ∀ (d : Datum) (s : Store),
    ∃ x, Fresh s (s.build d).2 [(key, (s.build d).1)] [(key, x)]
  | .null, s | .bool _, s | .int _, s | .float _, s | .text _, s | .symbol _, s | .foreign _, s
  | .entity (.other _), s => ⟨_, .leaf (.refl ∅ s) rfl key⟩
  | .entity (.workflow _), s | .entity (.step _), s | .entity (.context _), s | .entity (.task _), s
  | .entity (.agent _), s | .entity (.goal _), s | .entity (.execution ..), s | .entity .code, s =>
    ⟨_, .leaf (.refl ∅ s) rfl key⟩
  | .failure kind text, s => by
    have hkeeps : Keeps ∅ s (s.build (.failure kind text)).2 := keeps_of_tables rfl rfl rfl rfl
    exact ⟨_, .leaf hkeeps rfl key⟩
  | .list xs, s => (fresh_buildItems xs s).elim fun _ h => ⟨_, h.newList key⟩
  | .tuple xs, s => (fresh_buildItems xs s).elim fun _ h => ⟨_, h.newTuple key⟩
  | .dict es, s | .record _ es, s => (fresh_buildEntries es s).elim fun _ h => ⟨_, h.newDict key⟩
  | .results es, s => (fresh_buildEntries es s).elim fun _ h => ⟨_, h.newResults key⟩

theorem fresh_buildItems : ∀ (xs : List Datum) (s : Store),
    ∃ ts, Fresh s (s.buildItems xs).2 ((s.buildItems xs).1.map fun v => ("", v)) ts
  | [], s => ⟨[], .nil (.refl ∅ s)⟩
  | x :: xs, s =>
    (fresh_build "" x s).elim fun _ hx => (fresh_buildItems xs (s.build x).2).elim fun _ h =>
      ⟨_, hx.cons h⟩

theorem fresh_buildEntries : ∀ (es : List (String × Datum)) (s : Store),
    ∃ ts, Fresh s (s.buildEntries es).2 (s.buildEntries es).1 ts
  | [], s => ⟨[], .nil (.refl ∅ s)⟩
  | (k, x) :: es, s =>
    (fresh_build k x s).elim fun _ hx => (fresh_buildEntries es (s.build x).2).elim fun _ h =>
      ⟨_, hx.cons h⟩

end

end Store

end Conductor
