import Conductor.Entries
import Mathlib.Data.List.Basic
import Mathlib.Data.List.Nodup

/-!
# Entries one after another

Writing entries one after another keeps every key once, with the last value that is written under it
(`Entries.Latest`). Nothing is lost if all keys are different.
-/

namespace Conductor

namespace Entries

variable {α : Type}

theorem has_iff {key : String} : ∀ {es : Entries α}, has es key = true ↔ key ∈ keys es
  | [] => by simp [has, get?, keys]
  | (k, a) :: es => by
    have ih : has es key = true ↔ key ∈ keys es := has_iff
    by_cases hk : k = key
    · simp [has, get?, keys, hk]
    · simpa [has, get?, keys, hk, Ne.symm hk] using ih

/-- Nothing is lost by writing. -/
theorem has_insert {es : Entries α} {k key : String} {a : α} (h : has es k = true) :
    has (insert es key a) k = true := by
  rw [has_iff, keys_insert]
  split
  · exact has_iff.1 h
  · exact List.mem_append_left _ (has_iff.1 h)

theorem nodup_insert {es : Entries α} (h : (keys es).Nodup) (key : String) (a : α) :
    (keys (insert es key a)).Nodup := by
  rw [keys_insert]
  split
  · exact h
  · next hnew =>
    have hkey : key ∉ keys es := fun hmem => hnew (has_iff.2 hmem)
    exact List.nodup_append.2 ⟨h, List.nodup_singleton key, fun k hk k' hk' heq =>
      hkey (by rwa [List.mem_singleton.1 hk', ← heq] at *)⟩

theorem nodup_insertAll : ∀ {more : List (String × α)} {es : Entries α}, (keys es).Nodup →
    (keys (insertAll es more)).Nodup
  | [], _, h => h
  | (k, a) :: more, es, h => by
    show (keys (insertAll (insert es k a) more)).Nodup
    exact nodup_insertAll (nodup_insert h k a)

theorem insert_eq_append {es : Entries α} {key : String} (h : key ∉ keys es) (a : α) :
    insert es key a = es ++ [(key, a)] := by
  induction es with
  | nil => rfl
  | cons e es ih =>
    obtain ⟨hne, hkey⟩ := not_or.1 (mt List.mem_cons.2 h)
    rw [insert, if_neg (Ne.symm hne), ih hkey]
    rfl

/-- Entries with distinct keys come one after another. -/
theorem insertAll_eq_append : ∀ {more : List (String × α)} {es : Entries α},
    (keys (es ++ more)).Nodup → insertAll es more = es ++ more
  | [], es, _ => (List.append_nil es).symm
  | (k, a) :: more, es, h => by
    have hk : k ∉ keys es := fun hk => by
      rw [keys, List.map_append] at h
      exact (List.nodup_append.1 h).2.2 k hk k List.mem_cons_self rfl
    show insertAll (insert es k a) more = _
    rw [insert_eq_append hk, insertAll_eq_append (by rwa [List.append_assoc]), List.append_assoc]
    rfl

/-- The last of several entries under a key is found. -/
theorem get?_insertAll {key : String} : ∀ {more : List (String × α)} {es : Entries α},
    get? (insertAll es more) key = (more.reverse.lookup key).or (get? es key)
  | [], _ => rfl
  | (k, a) :: more, es => by
    show get? (insertAll (insert es k a) more) key = _
    rw [get?_insertAll, List.reverse_cons, List.lookup_append, Option.or_assoc]
    congr 1
    by_cases hk : key = k
    · subst hk
      simp [get?_insert_self]
    · rw [get?_insert_of_ne es a hk, List.lookup_cons, beq_eq_false_iff_ne.2 hk]
      rfl

theorem mem_insert {key : String} {a : α} {e : String × α} :
    ∀ {es : Entries α}, e ∈ insert es key a → e ∈ es ∨ e = (key, a)
  | [], h => Or.inr (List.mem_singleton.1 h)
  | (k, b) :: es, h => by
    unfold insert at h
    split at h
    · next hk =>
      rcases List.mem_cons.1 h with rfl | h
      · exact Or.inr (by rw [hk])
      · exact Or.inl (List.mem_cons_of_mem _ h)
    · rcases List.mem_cons.1 h with rfl | h
      · exact Or.inl List.mem_cons_self
      · exact (mem_insert h).imp_left (List.mem_cons_of_mem _)

theorem mem_insertAll {e : String × α} : ∀ {more : List (String × α)} {es : Entries α},
    e ∈ insertAll es more → e ∈ es ∨ e ∈ more
  | [], _, h => Or.inl h
  | (k, a) :: more, es, h => by
    have hmem : e ∈ insert es k a ∨ e ∈ more := mem_insertAll h
    rcases hmem with h | h
    · rcases mem_insert h with h | rfl
      · exact Or.inl h
      · exact Or.inr List.mem_cons_self
    · exact Or.inr (List.mem_cons_of_mem _ h)

theorem insertAll_append (es : Entries α) (as bs : List (String × α)) :
    insertAll es (as ++ bs) = insertAll (insertAll es as) bs := List.foldl_append

/-- It does not matter whether keys are left out before or after writing. -/
theorem filter_insert (p : String → Bool) (es : Entries α) (key : String) (a : α) :
    (insert es key a).filter (fun e => p e.1) =
      if p key then insert (es.filter fun e => p e.1) key a else es.filter fun e => p e.1 := by
  induction es with
  | nil => cases hp : p key <;> simp [insert, hp]
  | cons e es ih =>
    obtain ⟨k, v⟩ := e
    by_cases hk : k = key
    · subst hk
      cases hp : p k <;> simp [insert, hp]
    · cases hp : p k <;> cases hkey : p key <;> simp [insert, hk, hp, ih, hkey]

/-- Entries hold under each key that is in a list the last value that is under it. -/
structure Latest (es : Entries α) (xs : List (String × α)) : Prop where
  once : (keys es).Nodup
  last : ∀ key, get? es key = xs.reverse.lookup key
  /-- Entries with distinct keys are what is in the list, in order. -/
  distinct : (keys xs).Nodup → es = xs

theorem latest_insertAll (xs : List (String × α)) : Latest (insertAll [] xs) xs where
  once := nodup_insertAll List.nodup_nil
  last _ := get?_insertAll.trans (Option.or_none ..)
  distinct h := (insertAll_eq_append (List.nil_append xs ▸ h)).trans (List.nil_append xs)

end Entries

end Conductor
