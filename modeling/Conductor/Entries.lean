/-!
# Entries in insertion order

A list of entries under distinct texts, in the order in which the keys first came in. Writing under
a key that is present replaces the value and leaves the key in its place; a new key goes to the
end. Dictionaries, registries and definitions are all kept this way.
-/

namespace Conductor

/-- Values under texts, in the order in which the keys first came in. -/
abbrev Entries (α : Type) := List (String × α)

namespace Entries

variable {α : Type}

/-- The value under a key. -/
def get? : Entries α → String → Option α
  | [], _ => none
  | (k, v) :: es, key => if k = key then some v else get? es key

/-- Whether there is a value under a key. -/
def has (es : Entries α) (key : String) : Bool := (get? es key).isSome

/-- Writes a value under a key. -/
def insert : Entries α → String → α → Entries α
  | [], key, value => [(key, value)]
  | (k, v) :: es, key, value => if k = key then (k, value) :: es else (k, v) :: insert es key value

/-- Writes entries one after another. -/
def insertAll (es : Entries α) (more : List (String × α)) : Entries α :=
  more.foldl (fun es (k, v) => insert es k v) es

/-- Entries from a list in which a later value under a key replaces an earlier one. -/
def ofList (es : List (String × α)) : Entries α := insertAll [] es

/-- The keys in order. -/
def keys (es : Entries α) : List String := es.map Prod.fst

/-- The values in order. -/
def values (es : Entries α) : List α := es.map Prod.snd

theorem get?_insert_self (es : Entries α) (key : String) (value : α) :
    get? (insert es key value) key = some value := by
  induction es with
  | nil => simp [insert, get?]
  | cons e es ih =>
    obtain ⟨k, v⟩ := e
    by_cases h : k = key <;> simp [insert, get?, h, ih]

theorem get?_insert_of_ne (es : Entries α) {key other : String} (value : α) (h : other ≠ key) :
    get? (insert es key value) other = get? es other := by
  induction es with
  | nil => simp [insert, get?, Ne.symm h]
  | cons e es ih =>
    obtain ⟨k, v⟩ := e
    by_cases hk : k = key
    · subst hk
      simp [insert, get?, Ne.symm h]
    · rw [insert, if_neg hk]
      by_cases ho : k = other <;> simp [get?, ho, ih]

/-- A key that is present keeps its place, and a new key goes to the end. -/
theorem keys_insert (es : Entries α) (key : String) (value : α) :
    keys (insert es key value) = if has es key then keys es else keys es ++ [key] := by
  induction es with
  | nil => simp [insert, keys, has, get?]
  | cons e es ih =>
    obtain ⟨k, v⟩ := e
    by_cases hk : k = key
    · simp [insert, keys, has, get?, hk]
    · have hhas : has ((k, v) :: es) key = has es key := by simp [has, get?, hk]
      rw [insert, if_neg hk, hhas]
      simp only [keys, List.map_cons] at ih ⊢
      rw [ih]
      split <;> simp

end Entries

end Conductor
