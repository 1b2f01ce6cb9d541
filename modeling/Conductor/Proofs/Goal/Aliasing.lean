import Conductor.Goal.Alias
import Mathlib.Data.List.Basic

/-!
# Keys filled from other keys

Aliases are applied one after another to data that they read and write. What a list of them does to the
data is a relation that is kept along the list (`Fills`): a value that counts as true stays, a key that is
no target stays, and what a target gets is a value that counts as true and stands under a source as well.

**Theorem (`normalize_fills`).** All this holds of the input of an agent, for every list of aliases. If no
target is a source, the loop reads only what was there before it: a target gets the value of the first
alias for it that has one, and doing it all over again changes nothing.
-/

namespace Conductor

namespace Alias

variable {α : Type} {isTrue : α → Bool} {d d' d'' : Entries α} {as bs : List Alias} {a : Alias}
  {key : String} {v : α}

theorem trueAt?_eq_some : trueAt? isTrue d key = some v ↔ Entries.get? d key = some v ∧ isTrue v = true :=
  Option.filter_eq_some_iff

theorem trueAt?_eq_none :
    trueAt? isTrue d key = none ↔ ∀ v, Entries.get? d key = some v → isTrue v = false := by
  rw [trueAt?, Option.filter_eq_none_iff]
  exact forall₂_congr fun v _ => by rw [Bool.not_eq_true]

theorem trueAt?_congr (h : Entries.get? d' key = Entries.get? d key) :
    trueAt? isTrue d' key = trueAt? isTrue d key := congrArg (Option.filter isTrue) h

/-- An alias changes nothing, or its target has no value that counts as true and gets that of the
source. -/
theorem apply_cases (isTrue : α → Bool) (d : Entries α) (a : Alias) :
    (apply isTrue d a = d ∧ (trueAt? isTrue d a.target = none → trueAt? isTrue d a.source = none)) ∨
      ∃ v, trueAt? isTrue d a.target = none ∧ trueAt? isTrue d a.source = some v ∧
        apply isTrue d a = Entries.insert d a.target v := by
  unfold apply
  split
  · next v ht hs => exact Or.inr ⟨v, ht, hs, rfl⟩
  · next hnot =>
    refine Or.inl ⟨rfl, fun ht => ?_⟩
    cases hs : trueAt? isTrue d a.source with
    | none => rfl
    | some v => exact absurd hs (hnot v ht)

/-! ## What a list of aliases does -/

/-- What aliases make of data. -/
structure Fills (isTrue : α → Bool) (as : List Alias) (d d' : Entries α) : Prop where
  keeps : ∀ key v, trueAt? isTrue d key = some v → Entries.get? d' key = some v
  others : ∀ key, (∀ a ∈ as, a.target ≠ key) → Entries.get? d' key = Entries.get? d key
  /-- What has changed is a target, from nothing that counts as true to a copy of something that does. -/
  copies : ∀ key, Entries.get? d' key ≠ Entries.get? d key → trueAt? isTrue d key = none ∧
    ∃ a ∈ as, a.target = key ∧ ∃ v, isTrue v = true ∧ Entries.get? d' key = some v ∧
      Entries.get? d' a.source = some v ∧ ∃ origin, Entries.get? d origin = some v

namespace Fills

theorem refl (d : Entries α) : Fills isTrue [] d d :=
  ⟨fun _ _ h => (trueAt?_eq_some.1 h).1, fun _ _ => rfl, fun _ h => absurd rfl h⟩

theorem trueAt? (h : Fills isTrue as d d') (hv : trueAt? isTrue d key = some v) :
    Alias.trueAt? isTrue d' key = some v :=
  trueAt?_eq_some.2 ⟨h.keeps key v hv, (trueAt?_eq_some.1 hv).2⟩

/-- One alias at work. -/
theorem apply (isTrue : α → Bool) (d : Entries α) (a : Alias) :
    Fills isTrue [a] d (Alias.apply isTrue d a) := by
  rcases apply_cases isTrue d a with ⟨heq, -⟩ | ⟨v, ht, hs, heq⟩
  · rw [heq]
    exact ⟨fun _ _ h => (trueAt?_eq_some.1 h).1, fun _ _ => rfl, fun _ h => absurd rfl h⟩
  · obtain ⟨hsource, hv⟩ := trueAt?_eq_some.1 hs
    have hne : ∀ {key w}, Alias.trueAt? isTrue d key = some w → key ≠ a.target := by
      rintro _ w h rfl
      rw [ht] at h
      cases h
    rw [heq]
    refine ⟨fun key w h => ?_, fun key hkey => ?_, fun key hkey => ?_⟩
    · rw [Entries.get?_insert_of_ne d v (hne h)]
      exact (trueAt?_eq_some.1 h).1
    · exact Entries.get?_insert_of_ne d v (Ne.symm (hkey a List.mem_cons_self))
    · obtain rfl : key = a.target := by
        by_contra hother
        exact hkey (Entries.get?_insert_of_ne d v hother)
      refine ⟨ht, a, List.mem_cons_self, rfl, v, hv, Entries.get?_insert_self d _ v, ?_, a.source, hsource⟩
      rw [Entries.get?_insert_of_ne d v (hne hs)]
      exact hsource

theorem trans (h : Fills isTrue as d d') (h' : Fills isTrue bs d' d'') :
    Fills isTrue (as ++ bs) d d'' := by
  refine ⟨fun key v hv => h'.keeps key v (h.trueAt? hv), fun key hkey => ?_, fun key hkey => ?_⟩
  · rw [h'.others key fun b hb => hkey b (List.mem_append_right _ hb)]
    exact h.others key fun b hb => hkey b (List.mem_append_left _ hb)
  · by_cases hsame : Entries.get? d'' key = Entries.get? d' key
    · -- What the first aliases have copied counts as true, so it stays at both places.
      obtain ⟨hnone, a, ha, hta, v, hv, hat, hsource, horigin⟩ := h.copies key (hsame ▸ hkey)
      refine ⟨hnone, a, List.mem_append_left _ ha, hta, v, hv, hsame.trans hat, ?_, horigin⟩
      exact h'.keeps _ v (trueAt?_eq_some.2 ⟨hsource, hv⟩)
    · obtain ⟨hnone, a, ha, hta, v, hv, hat, hsource, origin, horigin⟩ := h'.copies key hsame
      refine ⟨?_, a, List.mem_append_right _ ha, hta, v, hv, hat, hsource, ?_⟩
      · cases hold : Alias.trueAt? isTrue d key with
        | none => rfl
        | some w =>
          rw [h.trueAt? hold] at hnone
          cases hnone
      · by_cases hstill : Entries.get? d' origin = Entries.get? d origin
        · exact ⟨origin, hstill ▸ horigin⟩
        · obtain ⟨-, -, -, -, w, -, hw, -, origin', horigin'⟩ := h.copies origin hstill
          cases hw.symm.trans horigin
          exact ⟨origin', horigin'⟩

/-- **Aliases one after another.** -/
theorem foldl (isTrue : α → Bool) : ∀ (as : List Alias) (d : Entries α),
    Fills isTrue as d (as.foldl (Alias.apply isTrue) d)
  | [], d => refl d
  | a :: as, d => (apply isTrue d a).trans (foldl isTrue as _)

end Fills

/-! ## Targets that are no sources -/

/-- No target is a source. -/
def Apart (as : List Alias) : Prop := ∀ a ∈ as, ∀ b ∈ as, a.target ≠ b.source

theorem Apart.tail (h : Apart (a :: as)) : Apart as :=
  fun b hb c hc => h b (List.mem_cons_of_mem _ hb) c (List.mem_cons_of_mem _ hc)

/-- What an alias has for a key: the value of its source, if the key is its target and the value counts as
true. -/
def supply? (isTrue : α → Bool) (d : Entries α) (key : String) (a : Alias) : Option α :=
  if a.target = key then trueAt? isTrue d a.source else none

/-- Applying an alias leaves the sources as they are. -/
theorem Apart.source_apply (h : Apart (a :: as)) {b : Alias} (hb : b ∈ a :: as) :
    trueAt? isTrue (apply isTrue d a) b.source = trueAt? isTrue d b.source := by
  refine trueAt?_congr ((Fills.apply isTrue d a).others b.source fun c hc => ?_)
  rw [List.mem_singleton.1 hc]
  exact h a List.mem_cons_self b hb

theorem findSome?_congr {f g : Alias → Option α} : ∀ {as : List Alias}, (∀ a ∈ as, f a = g a) →
    as.findSome? f = as.findSome? g
  | [], _ => rfl
  | a :: as, h => by
    rw [List.findSome?_cons, List.findSome?_cons, h a List.mem_cons_self,
      findSome?_congr fun b hb => h b (List.mem_cons_of_mem _ hb)]

/-- **The first alias counts that has a value for the key.** -/
theorem Apart.get?_foldl (h : Apart as) (hkey : trueAt? isTrue d key = none) :
    Entries.get? (as.foldl (apply isTrue) d) key =
      (as.findSome? (supply? isTrue d key)).or (Entries.get? d key) := by
  induction as generalizing d with
  | nil => rfl
  | cons a as ih =>
    have hrest : as.findSome? (supply? isTrue (apply isTrue d a) key) =
        as.findSome? (supply? isTrue d key) := findSome?_congr fun b hb => by
      rw [supply?, supply?, h.source_apply (List.mem_cons_of_mem _ hb)]
    rw [List.foldl_cons, List.findSome?_cons]
    by_cases ht : a.target = key
    · subst ht
      rw [supply?, if_pos rfl]
      rcases apply_cases isTrue d a with ⟨heq, hnothing⟩ | ⟨v, -, hv, heq⟩
      · rw [hnothing hkey, heq]
        exact ih h.tail hkey
      · rw [hv]
        refine (Fills.foldl isTrue as _).keeps _ v (trueAt?_eq_some.2 ⟨?_, (trueAt?_eq_some.1 hv).2⟩)
        rw [heq]
        exact Entries.get?_insert_self ..
    · have hsame := (Fills.apply isTrue d a).others key fun c hc => by rwa [List.mem_singleton.1 hc]
      rw [supply?, if_neg ht, ih h.tail ((trueAt?_congr hsame).trans hkey), hrest, hsame]

/-- An alias that has been applied has nothing left to do. -/
theorem Apart.apply_foldl (h : Apart as) (ha : a ∈ as) :
    apply isTrue (as.foldl (apply isTrue) d) a = as.foldl (apply isTrue) d := by
  have hfills := Fills.foldl isTrue as d
  rcases apply_cases isTrue (as.foldl (apply isTrue) d) a with ⟨heq, -⟩ | ⟨v, ht, hv, -⟩
  · exact heq
  · -- The source had this value from the beginning, so the target has got something.
    have hsource : trueAt? isTrue (as.foldl (apply isTrue) d) a.source = trueAt? isTrue d a.source :=
      trueAt?_congr (hfills.others a.source fun b hb => h b hb a ha)
    have hbefore : trueAt? isTrue d a.target = none := by
      cases hw : trueAt? isTrue d a.target with
      | none => rfl
      | some w =>
        rw [hfills.trueAt? hw] at ht
        cases ht
    have hsupply : supply? isTrue d a.target a = some v := (if_pos rfl).trans (hsource.symm.trans hv)
    obtain ⟨w, hw⟩ := Option.isSome_iff_exists.1 (List.findSome?_isSome_iff.2
      ⟨a, ha, Option.isSome_iff_exists.2 ⟨v, hsupply⟩⟩)
    obtain ⟨b, -, hb⟩ := List.exists_of_findSome?_eq_some hw
    have hfirst := h.get?_foldl hbefore
    rw [hw] at hfirst
    have htrue : isTrue w = true := by
      unfold supply? at hb
      split at hb
      · exact (trueAt?_eq_some.1 hb).2
      · cases hb
    rw [trueAt?_eq_some.2 ⟨hfirst, htrue⟩] at ht
    cases ht

theorem foldl_eq_self : ∀ {as : List Alias} {d : Entries α}, (∀ a ∈ as, apply isTrue d a = d) →
    as.foldl (apply isTrue) d = d
  | [], _, _ => rfl
  | a :: as, d, h => by
    rw [List.foldl_cons, h a List.mem_cons_self]
    exact foldl_eq_self fun b hb => h b (List.mem_cons_of_mem _ hb)

/-! ## The input of an agent -/

/-- The aliases for given capabilities. -/
def applicable (aliases : List Alias) (capabilities : List String) : List Alias :=
  aliases.filter fun a => capabilities.contains a.capability

theorem mem_applicable {aliases : List Alias} {capabilities : List String} :
    a ∈ applicable aliases capabilities ↔ a ∈ aliases ∧ a.capability ∈ capabilities := by
  rw [applicable, List.mem_filter, List.contains_iff_mem]

theorem applicable_congr (aliases : List Alias) {capabilities capabilities' : List String}
    (h : ∀ c, c ∈ capabilities' ↔ c ∈ capabilities) :
    applicable aliases capabilities' = applicable aliases capabilities :=
  List.filter_congr fun a _ => by
    rw [Bool.eq_iff_iff, List.contains_iff_mem, List.contains_iff_mem]
    exact h a.capability

/-- No target of an alias that holds where none are given is a source. -/
theorem defaults_apart (capabilities : List String) : Apart (applicable defaults capabilities) :=
  have h : ∀ a ∈ defaults, ∀ b ∈ defaults, a.target ≠ b.source := by decide
  fun a ha b hb => h a (mem_applicable.1 ha).1 b (mem_applicable.1 hb).1

end Alias

section Normalize

variable (s : Store) (aliases : List Alias) (capabilities : List String) (data : Entries Value)

theorem Store.normalize_eq : s.normalize aliases capabilities data =
    (Alias.applicable aliases capabilities).foldl (Alias.apply s.isTruthy) data := rfl

/-- **Aliases fill keys that have nothing to say.** In the input of an agent every key with a value that
counts as true keeps it, and every key that is not the target of an alias for one of the capabilities is as
it was, there or not. A target changes only from nothing, or from a value that does not count as true, to
one that does and that stands under the source of such an alias.

The capabilities matter only as a set. If no target of an alias that applies is a source of one, as among
those that hold where none are given, then a target without a value that counts as true gets the value, in
the data, of the first alias for it that has one, and stays as it was if there is none; and filling the
result in the same way again gives it back. -/
theorem Store.normalize_fills :
    (∀ key v, Entries.get? data key = some v → s.isTruthy v = true →
      Entries.get? (s.normalize aliases capabilities data) key = some v) ∧
    (∀ key, (∀ a ∈ Alias.applicable aliases capabilities, a.target ≠ key) →
      Entries.get? (s.normalize aliases capabilities data) key = Entries.get? data key) ∧
    (∀ key, Entries.get? (s.normalize aliases capabilities data) key ≠ Entries.get? data key →
      (∀ v, Entries.get? data key = some v → s.isTruthy v = false) ∧
      ∃ a ∈ Alias.applicable aliases capabilities, a.target = key ∧ ∃ v, s.isTruthy v = true ∧
        Entries.get? (s.normalize aliases capabilities data) key = some v ∧
        Entries.get? (s.normalize aliases capabilities data) a.source = some v ∧
        ∃ origin, Entries.get? data origin = some v) ∧
    (∀ capabilities', (∀ c, c ∈ capabilities' ↔ c ∈ capabilities) →
      s.normalize aliases capabilities' data = s.normalize aliases capabilities data) ∧
    (Alias.Apart (Alias.applicable aliases capabilities) →
      (∀ key, (∀ v, Entries.get? data key = some v → s.isTruthy v = false) →
        Entries.get? (s.normalize aliases capabilities data) key =
          ((Alias.applicable aliases capabilities).findSome? (Alias.supply? s.isTruthy data key)).or
            (Entries.get? data key)) ∧
      s.normalize aliases capabilities (s.normalize aliases capabilities data) =
        s.normalize aliases capabilities data) ∧
    Alias.Apart (Alias.applicable Alias.defaults capabilities) := by
  have hfills : Alias.Fills s.isTruthy (Alias.applicable aliases capabilities) data
      (s.normalize aliases capabilities data) := Alias.Fills.foldl s.isTruthy _ data
  refine ⟨fun key v hv ht => hfills.keeps key v (Alias.trueAt?_eq_some.2 ⟨hv, ht⟩), hfills.others,
    fun key hkey => ?_, fun capabilities' h => ?_, fun hapart => ⟨fun key hkey => ?_, ?_⟩,
    Alias.defaults_apart capabilities⟩
  · exact (hfills.copies key hkey).imp_left Alias.trueAt?_eq_none.1
  · rw [s.normalize_eq, s.normalize_eq, Alias.applicable_congr aliases h]
  · exact hapart.get?_foldl (Alias.trueAt?_eq_none.2 hkey)
  · exact Alias.foldl_eq_self fun a ha => hapart.apply_foldl ha

end Normalize

/-- A query that is empty, a text that is null and a concept that is given. -/
def sparseInput : Entries Value :=
  [("query", .text ""), ("topic", .text "tides"), ("text", .null), ("content", .text "Water."),
    ("concept", .text "moon")]

/-- What an agent is asked for, one thing twice. -/
def sparseCapabilities : List String := ["summarize", "visualize", "research", "research"]

/-- What the agent of these capabilities gets. -/
def sparseFilled : Entries Value :=
  Store.empty.normalize Alias.defaults sparseCapabilities sparseInput

theorem normalize_fills_sparse :
    Alias.Apart (Alias.applicable Alias.defaults sparseCapabilities) ∧
    (∀ v, Entries.get? sparseInput "query" = some v → Store.empty.isTruthy v = false) ∧
    Entries.get? sparseFilled "query" = some (.text "tides") ∧
    Entries.get? sparseFilled "text" = some (.text "Water.") ∧
    Entries.get? sparseFilled "concept" = some (.text "moon") ∧
    Store.empty.normalize Alias.defaults ["research", "visualize", "summarize"] sparseInput = sparseFilled ∧
    Store.empty.normalize Alias.defaults sparseCapabilities sparseFilled = sparseFilled := by
  obtain ⟨hkeeps, -, -, hset, hapart, hdefaults⟩ :=
    Store.normalize_fills Store.empty Alias.defaults sparseCapabilities sparseInput
  have hquery : ∀ v, Entries.get? sparseInput "query" = some v → Store.empty.isTruthy v = false := by
    rintro v h
    cases h
    rfl
  have htext : ∀ v, Entries.get? sparseInput "text" = some v → Store.empty.isTruthy v = false := by
    rintro v h
    cases h
    rfl
  obtain ⟨hfirst, hagain⟩ := hapart hdefaults
  refine ⟨hdefaults, hquery, (hfirst "query" hquery).trans (by decide), (hfirst "text" htext).trans (by decide),
    hkeeps "concept" _ rfl rfl, hset _ fun c => ?_, hagain⟩
  simp only [sparseCapabilities, List.mem_cons, List.not_mem_nil, or_false]
  tauto

end Conductor
