import Conductor.Proofs.Json.Writing
import Conductor.Proofs.Store.Merging

/-!
# What is written is read back

Reading gives the plain form of the data that were written (`read_write`), if no dictionary among them has
two entries under one key. What is left to read behind a value must not be able to belong to a number; what
follows a value that is written inside of others is a comma or a bracket.

The reader has a fuel for nested values. It suffices if it is twice the length of the text.
-/

namespace Conductor

namespace Json

open Datum

variable {cs ds rest : List Char} {c : Char} {d : Datum} {fuel : Nat}

/-! ## Texts -/

theorem readText_char (hc : 0x20 ≤ c.toNat) (hquote : c ≠ '"') (hslash : c ≠ '\\') :
    readText (c :: cs) = (readText cs).map fun (t, rest) => (c :: t, rest) := by
  rw [readText, if_neg (Nat.not_lt.2 hc)]
  · exact hquote
  · exact fun _ _ _ _ _ h _ => hslash h
  · exact fun _ _ h _ => hslash h

theorem readText_short {e : Char} (he : shortEscape? e = some c) :
    readText ('\\' :: e :: cs) = (readText cs).map fun (t, rest) => (c :: t, rest) := by
  rw [readText, he]
  rintro _ _ _ _ _ rfl
  cases he

theorem readText_code {i j k l : Char} (h : code? i j k l = some c.toNat) (hc : c.toNat < 0x20) :
    readText ('\\' :: 'u' :: i :: j :: k :: l :: cs) =
      (readText cs).map fun (t, rest) => (c :: t, rest) := by
  have hhigh : (decide (0xd800 ≤ c.toNat) && decide (c.toNat < 0xdc00)) = false := by simp; omega
  have hlow : (decide (0xdc00 ≤ c.toNat) && decide (c.toNat < 0xe000)) = false := by simp; omega
  rw [readText, h]
  simp only [hhigh, hlow, Bool.false_eq_true, if_false, Char.ofNat_toNat]

theorem readText_escape (h : Escaped c ds) :
    readText (ds ++ cs) = (readText cs).map fun (t, rest) => (c :: t, rest) := by
  cases h with
  | char hc hquote hslash => exact readText_char hc hquote hslash
  | short he _ => exact readText_short he
  | code h hc => exact readText_code h hc

/-- **A text is read back.** -/
theorem readText_write : ∀ cs : List Char, readText (cs.flatMap escape ++ '"' :: rest) = some (cs, rest)
  | [] => rfl
  | c :: cs => by rw [List.flatMap_cons, List.append_assoc, readText_escape (escaped c), readText_write cs]; rfl

/-! ## Words and numbers -/

theorem afterWord?_eq_none {word : String} (h : ¬word.toList <+: cs) : afterWord? word cs = none := by
  refine if_neg fun heq => h ?_
  rw [← eq_of_beq heq]
  exact List.take_prefix _ _

/-- A word is read as what it stands for. -/
theorem readLeaf_word {w : String × Datum} (hw : w ∈ words) (rest : List Char) : readLeaf (w.1.toList ++ rest) = some (w.2, rest) := by
  simp only [words, List.mem_cons, List.not_mem_nil, or_false] at hw
  rcases hw with rfl | rfl | rfl | rfl | rfl | rfl <;> rfl

theorem ne_of_digit {e : Char} (hc : c.isDigit = true) (he : e.isDigit = false) : c ≠ e := by
  rintro rfl
  rw [hc] at he
  cases he

/-- No word begins with a digit, or with a minus and a digit. -/
theorem afterWord?_number {w : String × Datum} (hw : w ∈ words) (hc : c.isDigit = true) (minus : Bool)
    (cs : List Char) : afterWord? w.1 (if minus then '-' :: c :: cs else c :: cs) = none := by
  refine afterWord?_eq_none fun h => ?_
  simp only [words, List.mem_cons, List.not_mem_nil, or_false] at hw
  rcases hw with rfl | rfl | rfl | rfl | rfl | rfl <;> cases minus <;>
    simp [List.cons_prefix_cons] at h <;> exact ne_of_digit hc rfl h.1.symm

theorem Number.head {minus : Bool} (h : Number minus cs d) : ∃ c ds, cs = c :: ds ∧ c.isDigit = true := by
  cases h with
  | int hw => exact hw.head
  | real h =>
    obtain ⟨hw, -, -, -⟩ := h
    obtain ⟨c, ds, rfl, hc⟩ := hw.head
    exact ⟨c, _, rfl, hc⟩

/-- **A number with its sign is read.** -/
theorem readLeaf_number {minus : Bool} (h : Number minus cs d) (hrest : Stop rest) :
    readLeaf ((if minus then '-' :: cs else cs) ++ rest) = some (d, rest) := by
  have hread := h.read hrest
  obtain ⟨c, ds, rfl, hc⟩ := h.head
  unfold readLeaf
  rw [List.findSome?_eq_none_iff.2 fun w hw => ?noWord]
  case noWord =>
    have hnone := afterWord?_number hw hc minus (ds ++ rest)
    cases minus <;> exact congrArg (Option.map _) hnone
  cases minus with
  | true => exact hread
  | false =>
    rw [if_neg Bool.false_ne_true, List.cons_append]
    dsimp only
    split
    · next heq =>
      obtain ⟨rfl, -⟩ := List.cons.inj heq
      cases hc
    · exact hread

/-! ## Values -/

/-- A character at which a value begins: no blank, and no closing bracket. -/
structure Opens (c : Char) : Prop where
  skip : (c == ' ' || c == '\n' || c == '\t' || c == '\r') = false
  bracket : c ≠ ']' ∧ c ≠ '\x7d'

theorem opens_digit (hc : c.isDigit = true) : Opens c where
  skip := by
    have hne : ∀ {e : Char}, e.isDigit = false → (c == e) = false := fun he => beq_false_of_ne (ne_of_digit hc he)
    rw [hne rfl, hne rfl, hne rfl, hne rfl]
    rfl
  bracket := ⟨ne_of_digit hc rfl, ne_of_digit hc rfl⟩

/-- What is written begins a value. -/
theorem write_head (d : Datum) : ∃ c cs, (write d).toList = c :: cs ∧ Opens c := by
  have hnumber : ∀ {minus cs d}, Number minus cs d → ∃ c ds, (if minus then '-' :: cs else cs) = c :: ds ∧ Opens c := by
    intro minus cs d h
    obtain ⟨c, ds, rfl, hc⟩ := h.head
    cases minus with
    | false => exact ⟨c, ds, rfl, opens_digit hc⟩
    | true => exact ⟨_, _, rfl, rfl, by decide⟩
  induction d using written_induction with
  | null => exact ⟨_, _, rfl, rfl, by decide⟩
  | bool b => cases b <;> exact ⟨_, _, rfl, rfl, by decide⟩
  | int i =>
    obtain ⟨cs, hcs, h⟩ := int_number i
    have h := hnumber h
    simp only [decide_eq_true_eq, ← hcs] at h
    exact h
  | float x =>
    cases x with
    | nan => exact ⟨_, _, rfl, rfl, by decide⟩
    | infinite s => cases s <;> exact ⟨_, _, rfl, rfl, by decide⟩
    | finite s k =>
      obtain ⟨cs, hcs, h⟩ := float_number s k
      rw [write, hcs]
      exact hnumber h
  | text d s hw _ _ =>
    rw [hw, writeText_toList]
    exact ⟨_, _, rfl, rfl, by decide⟩
  | list xs _ =>
    rw [write_list]
    exact ⟨_, _, rfl, rfl, by decide⟩
  | tuple xs _ => exact ⟨_, _, write_list xs, rfl, by decide⟩
  | dict es _ =>
    rw [write_dict]
    exact ⟨_, _, rfl, rfl, by decide⟩

theorem skip_cons (hc : (c == ' ' || c == '\n' || c == '\t' || c == '\r') = false) : skip (c :: cs) = c :: cs :=
  List.dropWhile_cons_of_neg (by rw [hc]; decide)

theorem skip_write (d : Datum) (rest : List Char) : skip ((write d).toList ++ rest) = (write d).toList ++ rest := by
  obtain ⟨c, cs, heq, hc⟩ := write_head d
  rw [heq]
  exact skip_cons hc.skip

mutual

/-- Data in which no dictionary that is written has two entries under one key. -/
def Keyed : Datum → Prop
  | .list xs | .tuple xs => KeyedItems xs
  | .dict es => (Entries.keys es).Nodup ∧ KeyedEntries es
  | _ => True

def KeyedItems : List Datum → Prop
  | [] => True
  | x :: xs => Keyed x ∧ KeyedItems xs

def KeyedEntries : List (String × Datum) → Prop
  | [] => True
  | (_, x) :: es => Keyed x ∧ KeyedEntries es

end

/-- A datum is read back from what is written of it, with fuel for twice its length. -/
def ReadBack (d : Datum) : Prop := ∀ fuel rest, 2 * (write d).toList.length ≤ fuel → Stop rest →
  readValue fuel ((write d).toList ++ rest) = some (plain d, rest)

/-- A leaf is not read as a text, a list or a dictionary. -/
theorem readValue_leaf (h : c ≠ '"' ∧ c ≠ '[' ∧ c ≠ '\x7b') :
    readValue (fuel + 1) (c :: cs) = readLeaf (c :: cs) := by
  rw [readValue]
  · exact fun _ heq => h.1 (List.cons.inj heq).1
  · exact fun _ heq => h.2.1 (List.cons.inj heq).1
  · exact fun _ heq => h.2.2 (List.cons.inj heq).1

theorem stop_comma (cs : List Char) : Stop (',' :: cs) := by
  rintro _ ⟨⟩
  exact ⟨rfl, by decide, by unfold Mark; decide⟩

theorem stop_bracket (cs : List Char) : Stop (']' :: cs) := by
  rintro _ ⟨⟩
  exact ⟨rfl, by decide, by unfold Mark; decide⟩

theorem stop_brace (cs : List Char) : Stop ('\x7d' :: cs) := by
  rintro _ ⟨⟩
  exact ⟨rfl, by decide, by unfold Mark; decide⟩

theorem readValue_text (s : String) :
    readValue (fuel + 1) ((writeText s).toList ++ rest) = some (.text s, rest) := by
  rw [writeText_toList, List.cons_append, List.append_assoc]
  show (readText (s.toList.flatMap escape ++ '"' :: rest)).map _ = _
  rw [readText_write]
  show some (Datum.text (String.ofList s.toList), rest) = _
  rw [String.ofList_toList]

/-- Texts with separators begin with the first of them. -/
theorem exists_joined (separator t : String) (ts : List String) :
    ∃ tail, (joined separator (t :: ts)).toList = t.toList ++ tail := by
  cases ts with
  | nil => exact ⟨[], (List.append_nil _).symm⟩
  | cons t' ts => exact ⟨_, by
    rw [joined_cons (List.cons_ne_nil t' ts), String.toList_append, String.toList_append, List.append_assoc]⟩

theorem comma_length : ", ".toList.length = 2 := rfl

/-- Items begin with no blank and no closing bracket. -/
theorem items_head (x : Datum) (xs : List Datum) :
    ∃ c cs, (joined ", " ((x :: xs).map write)).toList = c :: cs ∧ Opens c := by
  obtain ⟨tail, htail⟩ := exists_joined ", " (write x) (xs.map write)
  obtain ⟨c, cs, hcs, hc⟩ := write_head x
  rw [hcs] at htail
  exact ⟨c, _, htail, hc⟩

/-- **Items are read** up to the closing bracket. -/
theorem readItems_write {xs : List Datum} (hne : xs ≠ []) (h : ∀ x ∈ xs, ReadBack x)
    (hfuel : 2 * (joined ", " (xs.map write)).toList.length + 1 ≤ fuel) (rest : List Char) :
    readItems fuel ((joined ", " (xs.map write)).toList ++ ']' :: rest) = some (xs.map plain, rest) := by
  induction xs generalizing fuel with
  | nil => exact absurd rfl hne
  | cons x xs ih =>
    obtain ⟨hx, hxs⟩ := List.forall_mem_cons.1 h
    obtain ⟨n, rfl⟩ : ∃ n, fuel = n + 1 := ⟨fuel - 1, by omega⟩
    rw [readItems]
    cases xs with
    | nil =>
      have hread := hx n _ (Nat.le_of_succ_le_succ hfuel) (stop_bracket rest)
      rw [List.map_singleton, joined, hread]
      rfl
    | cons y ys =>
      obtain ⟨c, cs, hcs, hc⟩ := items_head y ys
      have hrest : (y :: ys).map write ≠ [] := List.cons_ne_nil _ _
      rw [List.map_cons, joined_cons hrest, String.toList_append, String.toList_append] at hfuel ⊢
      simp only [List.length_append, comma_length] at hfuel
      have hmore := ih (List.cons_ne_nil _ _) hxs (by omega : _ ≤ n)
      rw [hcs] at hmore ⊢
      have hread := hx n _ (by omega) (stop_comma (' ' :: (c :: cs ++ ']' :: rest)))
      have hskip : skip (' ' :: (c :: cs ++ ']' :: rest)) = c :: cs ++ ']' :: rest := skip_cons hc.skip
      have hsplit : (write x).toList ++ ", ".toList ++ c :: cs ++ ']' :: rest =
          (write x).toList ++ ',' :: ' ' :: (c :: cs ++ ']' :: rest) := by
        rw [List.append_assoc, List.append_assoc]
        rfl
      rw [hsplit, hread]
      show ((readItems n (skip (' ' :: (c :: cs ++ ']' :: rest)))).bind _) = _
      rw [hskip, hmore]
      rfl

/-- What is written of an entry, with its parts. -/
theorem writeEntry_toList (e : String × Datum) (rest : List Char) : (writeEntry e).toList ++ rest =
    '"' :: (e.1.toList.flatMap escape ++ '"' :: ':' :: ' ' :: ((write e.2).toList ++ rest)) := by
  rw [writeEntry, String.toList_append, String.toList_append, writeText_toList]
  simp

/-- One entry is read. -/
theorem readEntries_entry {e : String × Datum} (he : ReadBack e.2)
    (hfuel : 2 * (write e.2).toList.length ≤ fuel) (hrest : Stop rest) :
    readEntries (fuel + 1) ((writeEntry e).toList ++ rest) =
      match skip rest with
      | '\x7d' :: rest => some ([(e.1, plain e.2)], rest)
      | ',' :: rest => (readEntries fuel (skip rest)).bind fun (es, rest) => some ((e.1, plain e.2) :: es, rest)
      | _ => none := by
  have hvalue : readValue fuel (skip (' ' :: ((write e.2).toList ++ rest))) = some (plain e.2, rest) := by
    have hskip : skip (' ' :: ((write e.2).toList ++ rest)) = skip ((write e.2).toList ++ rest) := rfl
    rw [hskip, skip_write]
    exact he fuel rest hfuel hrest
  have hcolon : skip (':' :: ' ' :: ((write e.2).toList ++ rest)) = ':' :: ' ' :: ((write e.2).toList ++ rest) := rfl
  rw [writeEntry_toList, readEntries]
  simp only [readText_write, Option.bind_eq_bind, Option.bind_some, hcolon, hvalue, String.ofList_toList]
    <;> rfl

/-- **Entries are read** up to the closing brace. -/
theorem readEntries_write {es : List (String × Datum)} (hne : es ≠ []) (h : ∀ e ∈ es, ReadBack e.2)
    (hfuel : 2 * (joined ", " (es.map writeEntry)).toList.length + 1 ≤ fuel) (rest : List Char) :
    readEntries fuel ((joined ", " (es.map writeEntry)).toList ++ '\x7d' :: rest) =
      some (es.map fun e => (e.1, plain e.2), rest) := by
  induction es generalizing fuel with
  | nil => exact absurd rfl hne
  | cons e es ih =>
    obtain ⟨he, hes⟩ := List.forall_mem_cons.1 h
    obtain ⟨n, rfl⟩ : ∃ n, fuel = n + 1 := ⟨fuel - 1, by omega⟩
    have hlength : (write e.2).toList.length ≤ (writeEntry e).toList.length := by
      rw [writeEntry, String.toList_append, List.length_append]
      omega
    cases es with
    | nil =>
      rw [List.map_singleton, joined] at hfuel ⊢
      rw [readEntries_entry he (by omega) (stop_brace rest)]
      rfl
    | cons e' es =>
      obtain ⟨tail, htail⟩ := exists_joined ", " (writeEntry e') (es.map writeEntry)
      have hrest : (e' :: es).map writeEntry ≠ [] := List.cons_ne_nil _ _
      rw [List.map_cons, joined_cons hrest, String.toList_append, String.toList_append] at hfuel ⊢
      simp only [List.length_append, comma_length] at hfuel
      have hmore := ih (List.cons_ne_nil _ _) hes (by omega : _ ≤ n)
      have hskip : skip (' ' :: ((joined ", " ((e' :: es).map writeEntry)).toList ++ '\x7d' :: rest)) =
          (joined ", " ((e' :: es).map writeEntry)).toList ++ '\x7d' :: rest := by
        rw [List.map_cons, htail, List.append_assoc, writeEntry_toList]
        rfl
      have hsplit : (writeEntry e).toList ++ ", ".toList ++
          (joined ", " ((e' :: es).map writeEntry)).toList ++ '\x7d' :: rest = (writeEntry e).toList ++
            ',' :: ' ' :: ((joined ", " ((e' :: es).map writeEntry)).toList ++ '\x7d' :: rest) := by
        rw [List.append_assoc, List.append_assoc]
        rfl
      rw [hsplit, readEntries_entry he (by omega) (stop_comma _)]
      show (readEntries n (skip (' ' :: _))).bind _ = _
      rw [hskip, hmore]
      rfl

theorem plainItems_eq (xs : List Datum) : plainItems xs = xs.map plain := by
  induction xs with
  | nil => rfl
  | cons x xs ih => rw [plainItems, ih, List.map_cons]

theorem plainEntries_eq (es : List (String × Datum)) : plainEntries es = es.map fun e => (e.1, plain e.2) := by
  induction es with
  | nil => rfl
  | cons e es ih => rw [plainEntries, ih, List.map_cons]

theorem keyed_of_items {xs : List Datum} (h : KeyedItems xs) : ∀ x ∈ xs, Keyed x := by
  induction xs with
  | nil => exact List.forall_mem_nil _
  | cons x xs ih => exact List.forall_mem_cons.2 ⟨h.1, ih h.2⟩

theorem keyed_of_entries {es : List (String × Datum)} (h : KeyedEntries es) : ∀ e ∈ es, Keyed e.2 := by
  induction es with
  | nil => exact List.forall_mem_nil _
  | cons e es ih => exact List.forall_mem_cons.2 ⟨h.1, ih h.2⟩

theorem readBack_list {xs : List Datum} (h : ∀ x ∈ xs, ReadBack x) : ReadBack (.list xs) := by
  intro fuel rest hfuel hrest
  rw [write_list] at hfuel ⊢
  simp only [List.length_cons, List.length_append] at hfuel
  obtain ⟨n, rfl⟩ : ∃ n, fuel = n + 1 := ⟨fuel - 1, by omega⟩
  rw [plain, plainItems_eq]
  cases xs with
  | nil => rfl
  | cons x xs =>
    have hread := readItems_write (List.cons_ne_nil x xs) h (by omega : _ ≤ n) rest
    obtain ⟨c, cs, hcs, hc⟩ := items_head x xs
    rw [List.cons_append, List.append_assoc]
    rw [hcs] at hread ⊢
    rw [readValue]
    dsimp only
    rw [List.cons_append, skip_cons hc.skip]
    split
    · next heq => exact absurd (List.cons.inj heq).1 hc.bracket.1
    · exact congrArg (Option.map _) hread

theorem readBack_dict {es : List (String × Datum)} (hkeys : (Entries.keys es).Nodup)
    (h : ∀ e ∈ es, ReadBack e.2) : ReadBack (.dict es) := by
  intro fuel rest hfuel hrest
  rw [write_dict] at hfuel ⊢
  simp only [List.length_cons, List.length_append] at hfuel
  obtain ⟨n, rfl⟩ : ∃ n, fuel = n + 1 := ⟨fuel - 1, by omega⟩
  rw [plain, plainEntries_eq]
  cases es with
  | nil => rfl
  | cons e es =>
    have hread := readEntries_write (List.cons_ne_nil e es) h (by omega : _ ≤ n) rest
    obtain ⟨tail, htail⟩ := exists_joined ", " (writeEntry e) (es.map writeEntry)
    obtain ⟨cs, hcs⟩ : ∃ cs, (joined ", " ((e :: es).map writeEntry)).toList = '"' :: cs :=
      ⟨_, htail.trans (writeEntry_toList e tail)⟩
    have hlast : Entries.ofList ((e :: es).map fun e => (e.1, plain e.2)) =
        (e :: es).map fun e => (e.1, plain e.2) := by
      refine (Entries.latest_insertAll _).distinct ?_
      rwa [Entries.keys, List.map_map]
    rw [List.cons_append, List.append_assoc]
    rw [hcs] at hread ⊢
    show (readEntries n ('"' :: cs ++ ('\x7d' :: rest))).map _ = _
    rw [hread]
    exact congrArg (fun es => some (Datum.dict es, rest)) hlast

/-- What is written of a leaf that is no text. -/
theorem readBack_leaf (hhead : ∃ c cs, (write d).toList = c :: cs ∧ c ≠ '"' ∧ c ≠ '[' ∧ c ≠ '\x7b')
    (h : ∀ rest, Stop rest → readLeaf ((write d).toList ++ rest) = some (plain d, rest)) : ReadBack d := by
  intro fuel rest hfuel hrest
  have hread := h rest hrest
  obtain ⟨c, cs, hcs, hc⟩ := hhead
  rw [hcs] at hfuel hread ⊢
  obtain ⟨n, rfl⟩ : ∃ n, fuel = n + 1 := ⟨fuel - 1, by rw [List.length_cons] at hfuel; omega⟩
  exact (readValue_leaf hc).trans hread

theorem readBack_word {w : String × Datum} (hw : w ∈ words) : ReadBack w.2 := by
  have hread := readLeaf_word hw
  simp only [words, List.mem_cons, List.not_mem_nil, or_false] at hw
  rcases hw with rfl | rfl | rfl | rfl | rfl | rfl <;>
    exact readBack_leaf ⟨_, _, rfl, by decide⟩ fun rest _ => hread rest

theorem readBack_number {minus : Bool} (h : Number minus cs d) (hplain : plain d = d)
    (hwrite : (write d).toList = if minus then '-' :: cs else cs) : ReadBack d := by
  refine readBack_leaf ?_ fun rest hrest => ?_
  · obtain ⟨c, ds, rfl, hc⟩ := h.head
    rw [hwrite]
    cases minus with
    | false => exact ⟨c, ds, rfl, ne_of_digit hc rfl, ne_of_digit hc rfl, ne_of_digit hc rfl⟩
    | true => exact ⟨_, _, rfl, by decide⟩
  · rw [hwrite, hplain]
    exact readLeaf_number h hrest

/-- **What is written is read back** as the plain form of the data. -/
theorem readBack (d : Datum) (hd : Keyed d) : ReadBack d := by
  induction d using written_induction with
  | null => exact readBack_word (w := ("null", _)) (by simp [words])
  | bool b =>
    cases b with
    | true => exact readBack_word (w := ("true", _)) (by simp [words])
    | false => exact readBack_word (w := ("false", _)) (by simp [words])
  | int i =>
    obtain ⟨cs, hcs, h⟩ := int_number i
    refine readBack_number h rfl ?_
    rw [write, hcs]
    simp only [decide_eq_true_eq]
  | float x =>
    cases x with
    | nan => exact readBack_word (w := ("NaN", _)) (by simp [words])
    | infinite s =>
      cases s with
      | true => exact readBack_word (w := ("-Infinity", _)) (by simp [words])
      | false => exact readBack_word (w := ("Infinity", _)) (by simp [words])
    | finite s k =>
      obtain ⟨cs, hcs, h⟩ := float_number s k
      exact readBack_number h rfl hcs
  | text d s hw hp _ =>
    intro fuel rest hfuel hrest
    have hpos : 0 < (writeText s).toList.length := by
      rw [writeText_toList]
      exact Nat.succ_pos _
    rw [hw] at hfuel ⊢
    obtain ⟨n, rfl⟩ : ∃ n, fuel = n + 1 := ⟨fuel - 1, by omega⟩
    rw [readValue_text, hp]
  | list xs ih => exact readBack_list fun x hx => ih x hx (keyed_of_items hd x hx)
  | tuple xs ih => exact readBack_list fun x hx => ih x hx (keyed_of_items hd x hx)
  | dict es ih => exact readBack_dict hd.1 fun e he => ih e he (keyed_of_entries hd.2 e he)

/-- **A whole text is read back.** -/
theorem read_write {d : Datum} (hd : Keyed d) : read (write d) = some (plain d) := by
  have hskip := skip_write d []
  rw [List.append_nil] at hskip
  have hread := readBack d hd (2 * (write d).toList.length + 1) [] (Nat.le_succ _) (by rintro _ ⟨⟩)
  rw [List.append_nil] at hread
  unfold read
  rw [hskip]
  dsimp only
  rw [hread]
  rfl

end Json

end Conductor
