import Conductor.Proofs.Json.Grammar

/-!
# What is written is JSON

Data are written on one line, and as JSON if all floating-point numbers in them are finite. Those that are
not are written as words with a capital letter, which are no JSON, so that one of them spoils the whole text
(`written`, `object_iff`).

What is written is the plain form of data (`plain`): rows of all sorts are lists, and whatever JSON has no
form for is the text that shows it.
-/

namespace Conductor

namespace Json

open Datum

variable {cs ds : List Char} {b : Bool} {d : Datum}

/-! ## The plain form of data -/

mutual

/-- What data are when they have been written and read again. -/
def plain : Datum → Datum
  | .list xs | .tuple xs => .list (plainItems xs)
  | .dict es => .dict (plainEntries es)
  | .symbol s => .text s.value
  | .results es => .text (Datum.repr (.results es))
  | .record k fs => .text (Datum.repr (.record k fs))
  | .failure k t => .text (Datum.repr (.failure k t))
  | .foreign t => .text t
  | .entity e => .text (Datum.entityText e)
  | d => d

def plainItems : List Datum → List Datum
  | [] => []
  | x :: xs => plain x :: plainItems xs

def plainEntries : List (String × Datum) → List (String × Datum)
  | [] => []
  | (k, x) :: es => (k, plain x) :: plainEntries es

end

mutual

/-- Whether all floating-point numbers are finite that are written as numbers. -/
def finite : Datum → Bool
  | .float x => x.isFinite
  | .list xs | .tuple xs => finiteItems xs
  | .dict es => finiteEntries es
  | _ => true

def finiteItems : List Datum → Bool
  | [] => true
  | x :: xs => finite x && finiteItems xs

def finiteEntries : List (String × Datum) → Bool
  | [] => true
  | (_, x) :: es => finite x && finiteEntries es

end

/-- **Induction over what is written.** All that JSON has no form for is written as a text. -/
theorem written_induction {P : Datum → Prop} (null : P .null) (bool : ∀ b, P (.bool b))
    (int : ∀ i, P (.int i)) (float : ∀ x, P (.float x))
    (text : ∀ d s, write d = writeText s → plain d = .text s → finite d = true → P d)
    (list : ∀ xs, (∀ x ∈ xs, P x) → P (.list xs)) (tuple : ∀ xs, (∀ x ∈ xs, P x) → P (.tuple xs))
    (dict : ∀ es, (∀ e ∈ es, P e.2) → P (.dict es)) (d : Datum) : P d :=
  @Datum.rec P (fun xs => ∀ x ∈ xs, P x) (fun es => ∀ e ∈ es, P e.2) (fun e => P e.2)
    null bool int float (fun _ => text _ _ rfl rfl rfl) list tuple dict (fun _ _ => text _ _ rfl rfl rfl)
    (fun _ _ _ => text _ _ rfl rfl rfl) (fun _ => text _ _ rfl rfl rfl) (fun _ _ => text _ _ rfl rfl rfl)
    (fun _ => text _ _ rfl rfl rfl) (fun _ => text _ _ rfl rfl rfl)
    (List.forall_mem_nil _) (fun _ _ hx hxs => List.forall_mem_cons.2 ⟨hx, hxs⟩)
    (List.forall_mem_nil _) (fun _ _ he hes => List.forall_mem_cons.2 ⟨he, hes⟩) (fun _ _ hx => hx) d

/-! ## Texts -/

/-- The code of a control character has four digits. -/
theorem hex_code : ∀ n < 0x20, ∃ i j k l, Text.hex 4 n = [i, j, k, l] ∧ code? i j k l = some n := by
  intro n hn
  interval_cases n <;> exact ⟨_, _, _, _, rfl, rfl⟩

theorem shown_of_hexValue? {c : Char} (h : (hexValue? c).isSome = true) : 0x20 ≤ c.toNat := by
  unfold hexValue? at h
  split_ifs at h with hdigit hlow hhigh
  · exact le_trans (by decide) (Char.isDigit_iff_toNat.1 hdigit).1
  · have hle := of_decide_eq_true (Bool.and_eq_true _ _ ▸ hlow).1
    exact le_trans (by decide) (Char.le_def.1 hle)
  · have hle := of_decide_eq_true (Bool.and_eq_true _ _ ▸ hhigh).1
    exact le_trans (by decide) (Char.le_def.1 hle)
  · cases h

/-- What is written of a character: the character itself, an escape with a letter, or one with a code. -/
inductive Escaped (c : Char) : List Char → Prop
  | char (hc : 0x20 ≤ c.toNat) (hquote : c ≠ '"') (hslash : c ≠ '\\') : Escaped c [c]
  | short {e : Char} (he : shortEscape? e = some c) (h : 0x20 ≤ e.toNat) : Escaped c ['\\', e]
  | code {i j k l : Char} (h : code? i j k l = some c.toNat) (hc : c.toNat < 0x20) : Escaped c ['\\', 'u', i, j, k, l]

theorem escaped (c : Char) : Escaped c (escape c) := by
  have hcode : ∀ n, c.toNat = n → n.isValidChar → c = Char.ofNat n := by
    rintro n rfl -
    exact (Char.ofNat_toNat c).symm
  unfold escape
  split_ifs with h₁ h₂ h₃ h₄ h₅ h₆ h₇ h₈
  · exact .short (by rw [beq_iff_eq.1 h₁]; rfl) (by decide)
  · exact .short (by rw [beq_iff_eq.1 h₂]; rfl) (by decide)
  · exact .short (by rw [beq_iff_eq.1 h₃]; rfl) (by decide)
  · exact .short (by rw [beq_iff_eq.1 h₄]; rfl) (by decide)
  · exact .short (by rw [beq_iff_eq.1 h₅]; rfl) (by decide)
  · exact .short (by rw [hcode 8 (beq_iff_eq.1 h₆) (by decide)]; rfl) (by decide)
  · exact .short (by rw [hcode 12 (beq_iff_eq.1 h₇) (by decide)]; rfl) (by decide)
  · obtain ⟨i, j, k, l, heq, hread⟩ := hex_code c.toNat h₈
    rw [heq]
    exact .code hread h₈
  · exact .char (Nat.le_of_not_lt h₈) (by simpa using h₁) (by simpa using h₂)

theorem Escaped.shown {c : Char} (h : Escaped c cs) : ∀ d ∈ cs, 0x20 ≤ d.toNat := by
  cases h with
  | char hc _ _ => exact List.forall_mem_singleton.2 hc
  | short _ h => exact List.forall_mem_cons.2 ⟨by decide, List.forall_mem_singleton.2 h⟩
  | code h _ =>
    obtain ⟨hi, hj, hk, hl⟩ := code?_isSome (Option.isSome_iff_exists.2 ⟨_, h⟩)
    simp only [List.forall_mem_cons]
    exact ⟨by decide, by decide, shown_of_hexValue? hi, shown_of_hexValue? hj, shown_of_hexValue? hk,
      shown_of_hexValue? hl, List.forall_mem_nil _⟩

theorem chars_escape : ∀ cs : List Char, Chars (cs.flatMap escape)
  | [] => .nil
  | c :: cs => by
    have ih := chars_escape cs
    rw [List.flatMap_cons]
    have h := escaped c
    generalize escape c = es at h ⊢
    cases h with
    | char hc hquote hslash => exact .char hc hquote hslash ih
    | short he _ => exact .short (Option.isSome_iff_exists.2 ⟨_, he⟩) ih
    | code h _ => exact .code (Option.isSome_iff_exists.2 ⟨_, h⟩) ih

/-! ## Lines -/

/-- A text that stands on one line, and that has a given form if a flag is set, and a capital letter outside
of its texts otherwise. -/
structure Line (Form : List Char → Prop) (cs : List Char) (b : Bool) : Prop where
  shown : ∀ c ∈ cs, 0x20 ≤ c.toNat
  capitals : Capitals cs !b
  form : b = true → Form cs

theorem Line.of_form {Form : List Char → Prop} (hshown : ∀ c ∈ cs, 0x20 ≤ c.toNat)
    (hcapitals : Capitals cs false) (h : Form cs) : Line Form cs true :=
  ⟨hshown, hcapitals, fun _ => h⟩

theorem writeText_toList (s : String) : (writeText s).toList = '"' :: (s.toList.flatMap escape ++ ['"']) :=
  String.toList_ofList

theorem line_text (s : String) : Line Quoted (writeText s).toList true := by
  rw [writeText_toList]
  have h := Quoted.quotes (chars_escape s.toList)
  refine .of_form (List.forall_mem_cons.2 ⟨by decide, List.forall_mem_append.2 ⟨fun d hd => ?_, ?_⟩⟩) h.capitals h
  · obtain ⟨c, -, hd⟩ := List.mem_flatMap.1 hd
    exact (escaped c).shown d hd
  · exact List.forall_mem_singleton.2 (by decide)

theorem Numeric.shown {c : Char} (h : Numeric c) : 0x20 ≤ c.toNat := by
  rcases h with h | h
  · exact le_trans (by decide) (Char.isDigit_iff_toNat.1 h).1
  · simp only [List.mem_cons, List.not_mem_nil, or_false] at h
    rcases h with rfl | rfl | rfl | rfl | rfl <;> decide

theorem line_number {minus : Bool} (h : Number minus cs d) :
    Line Value (if minus then '-' :: cs else cs) true :=
  .of_form (fun c hc => (h.signed c hc).shown) (.of_low fun c hc => (h.signed c hc).low) (.number h)

/-! ## Rows -/

theorem joined_cons {t : String} {ts : List String} (hts : ts ≠ []) (separator : String) :
    joined separator (t :: ts) = t ++ separator ++ joined separator ts := by
  cases ts with
  | nil => exact absurd rfl hts
  | cons t' ts => rfl

theorem writeItems_eq (xs : List Datum) : writeItems xs = xs.map write := by
  induction xs with
  | nil => rfl
  | cons x xs ih => rw [writeItems, ih, List.map_cons]

/-- What is written of an entry. -/
def writeEntry (e : String × Datum) : String := writeText e.1 ++ ": " ++ write e.2

theorem writeEntries_eq (es : List (String × Datum)) : writeEntries es = es.map writeEntry := by
  induction es with
  | nil => rfl
  | cons e es ih => rw [writeEntries, ih, List.map_cons, writeEntry]

theorem finiteItems_eq (xs : List Datum) : finiteItems xs = xs.all finite := by
  induction xs with
  | nil => rfl
  | cons x xs ih => rw [finiteItems, ih, List.all_cons]

theorem finiteEntries_eq (es : List (String × Datum)) : finiteEntries es = es.all fun e => finite e.2 := by
  induction es with
  | nil => rfl
  | cons e es ih => rw [finiteEntries, ih, List.all_cons]

/-- A text of characters that are neither quotes nor capital letters, between two others. -/
structure Between (ms : List Char) : Prop where
  shown : ∀ c ∈ ms, 0x20 ≤ c.toNat
  low : ∀ c ∈ ms, c ≠ '"' ∧ c ≠ 'N' ∧ c ≠ 'I'

theorem between_comma : Between [',', ' '] := ⟨by simp, by simp⟩

theorem between_colon : Between [':', ' '] := ⟨by simp, by simp⟩

variable {Form Form' Form'' : List Char → Prop} {a : Bool}

theorem Line.append {ms : List Char} (h : Line Form cs a) (hms : Between ms) (h' : Line Form' ds b)
    (hform : Form cs → Form' ds → Form'' (cs ++ (ms ++ ds))) : Line Form'' (cs ++ (ms ++ ds)) (a && b) where
  shown := List.forall_mem_append.2 ⟨h.shown, List.forall_mem_append.2 ⟨hms.shown, h'.shown⟩⟩
  capitals := by
    rw [Bool.not_and]
    exact h.capitals.append (.low_append hms.low h'.capitals)
  form hab := by
    rw [Bool.and_eq_true] at hab
    exact hform (h.form hab.1) (h'.form hab.2)

/-- What stands between two brackets. -/
theorem Line.enclose {l r : Char} (h : Line Form cs b) (hl : Between [l]) (hr : Between [r])
    (hform : Form cs → Form' (l :: (cs ++ [r]))) : Line Form' (l :: (cs ++ [r])) b where
  shown := List.forall_mem_cons.2 ⟨hl.shown l List.mem_cons_self, List.forall_mem_append.2 ⟨h.shown, hr.shown⟩⟩
  capitals := h.capitals.between (hl.low l List.mem_cons_self) (hr.low r List.mem_cons_self)
  form hb := hform (h.form hb)

/-- Lines with commas between them. -/
theorem Line.row {α : Type} {f : α → String} {p : α → Bool} (last : ∀ {cs}, Form cs → Form' cs)
    (more : ∀ {cs ds}, Form cs → Form' ds → Form' (cs ++ ([',', ' '] ++ ds))) {xs : List α} (hne : xs ≠ [])
    (h : ∀ x ∈ xs, Line Form (f x).toList (p x)) : Line Form' (joined ", " (xs.map f)).toList (xs.all p) := by
  induction xs with
  | nil => exact absurd rfl hne
  | cons x xs ih =>
    obtain ⟨hx, hxs⟩ := List.forall_mem_cons.1 h
    cases xs with
    | nil =>
      rw [List.all_cons, List.all_nil, Bool.and_true]
      exact ⟨hx.shown, hx.capitals, fun hb => last (hx.form hb)⟩
    | cons y ys =>
      have hrest : (y :: ys).map f ≠ [] := List.cons_ne_nil _ _
      rw [List.map_cons, joined_cons hrest, List.all_cons, String.toList_append,
        String.toList_append, List.append_assoc]
      exact hx.append between_comma (ih (List.cons_ne_nil _ _) hxs) more

theorem blank_nil : Blank [] := List.forall_mem_nil _

theorem blank_space : Blank [' '] := List.forall_mem_singleton.2 (Or.inl rfl)

theorem line_items {xs : List Datum} (hne : xs ≠ [])
    (h : ∀ x ∈ xs, Line Value (write x).toList (finite x)) :
    Line Items (joined ", " (xs.map write)).toList (xs.all finite) :=
  .row .last (fun h hs => .more h blank_nil blank_space hs) hne h

theorem line_members {es : List (String × Datum)} (hne : es ≠ [])
    (h : ∀ e ∈ es, Line Value (write e.2).toList (finite e.2)) :
    Line Members (joined ", " (es.map writeEntry)).toList (es.all fun e => finite e.2) := by
  refine .row .last (fun h hs => .more h blank_nil blank_space hs) hne fun e he => ?_
  rw [writeEntry, String.toList_append, String.toList_append, List.append_assoc]
  exact (line_text e.1).append between_colon (h e he) fun hk hv => .pair hk blank_nil blank_space hv

/-! ## Data -/

theorem write_list (xs : List Datum) :
    (write (.list xs)).toList = '[' :: ((joined ", " (xs.map write)).toList ++ [']']) := by
  rw [write, writeItems_eq, String.toList_append, String.toList_append]
  rfl

theorem write_dict (es : List (String × Datum)) :
    (write (.dict es)).toList = '\x7b' :: ((joined ", " (es.map writeEntry)).toList ++ ['\x7d']) := by
  rw [write, writeEntries_eq, String.toList_append, String.toList_append]
  rfl

/-- A word that is no JSON. -/
theorem line_odd {Form : List Char → Prop} (cs : List Char) (hshown : ∀ c ∈ cs, 0x20 ≤ c.toNat) (h : Capitals cs true) :
    Line Form cs false :=
  ⟨hshown, h, fun h => by cases h⟩

theorem line_word (h : cs ∈ plainWords) : Line Value cs true := by
  refine .of_form ?_ (.of_low (plainWords_low cs h)) (.word h)
  simp only [plainWords, List.mem_cons, List.not_mem_nil, or_false] at h
  rcases h with rfl | rfl | rfl <;> simp

theorem between_bracket : Between ['['] ∧ Between [']'] ∧ Between ['\x7b'] ∧ Between ['\x7d'] :=
  ⟨⟨by simp, by simp⟩, ⟨by simp, by simp⟩, ⟨by simp, by simp⟩, ⟨by simp, by simp⟩⟩

theorem line_list {xs : List Datum} (h : ∀ x ∈ xs, Line Value (write x).toList (finite x)) :
    Line Value (write (.list xs)).toList (finite (.list xs)) := by
  obtain ⟨hl, hr, -, -⟩ := between_bracket
  rw [write_list, finite, finiteItems_eq]
  cases xs with
  | nil =>
    have hnil : Line Blank [] true := .of_form (List.forall_mem_nil _) .nil blank_nil
    exact hnil.enclose hl hr .noItems
  | cons x xs =>
    exact (line_items (List.cons_ne_nil x xs) h).enclose hl hr fun h => .list blank_nil h blank_nil

theorem line_dict {es : List (String × Datum)} (h : ∀ e ∈ es, Line Value (write e.2).toList (finite e.2)) :
    Line Value (write (.dict es)).toList (finite (.dict es)) := by
  obtain ⟨-, -, hl, hr⟩ := between_bracket
  rw [write_dict, finite, finiteEntries_eq]
  cases es with
  | nil =>
    have hnil : Line Blank [] true := .of_form (List.forall_mem_nil _) .nil blank_nil
    exact hnil.enclose hl hr .noMembers
  | cons e es =>
    exact (line_members (List.cons_ne_nil e es) h).enclose hl hr fun h => .dict blank_nil h blank_nil

theorem line_float (x : Binary64) : Line Value (write (.float x)).toList (finite (.float x)) := by
  cases x with
  | nan => exact line_odd ['N', 'a', 'N'] (by simp) fun rest => rfl
  | infinite s =>
    cases s with
    | false => exact line_odd ['I', 'n', 'f', 'i', 'n', 'i', 't', 'y'] (by simp) fun rest => rfl
    | true => exact line_odd ['-', 'I', 'n', 'f', 'i', 'n', 'i', 't', 'y'] (by simp) fun rest => rfl
  | finite s k =>
    obtain ⟨cs, hcs, h⟩ := float_number s k
    rw [write, hcs]
    exact line_number h

/-- **Data are written on one line**, and as JSON unless a number is not finite. -/
theorem written (d : Datum) : Line Value (write d).toList (finite d) := by
  induction d using written_induction with
  | null => exact line_word (by decide)
  | bool b => cases b <;> exact line_word (by decide)
  | int i =>
    obtain ⟨cs, hcs, h⟩ := int_number i
    have h := line_number h
    simp only [decide_eq_true_eq, ← hcs] at h
    exact h
  | float x => exact line_float x
  | text d s hw _ hf =>
    have h := line_text s
    rw [hw, hf]
    exact ⟨h.shown, h.capitals, fun _ => .text (h.form rfl)⟩
  | list xs ih => exact line_list ih
  | tuple xs ih => exact line_list ih
  | dict es ih => exact line_dict ih

/-- **Written entries are JSON exactly if all numbers in them are finite.** -/
theorem object_iff (es : List (String × Datum)) :
    IsObject (write (.dict es)).toList ↔ finite (.dict es) = true := by
  have h := written (.dict es)
  constructor
  · intro hobject
    have := h.capitals.unique hobject.capitals
    simpa using this
  · intro hfinite
    refine ⟨[], _, [], blank_nil, h.form hfinite, blank_nil, ?_, (List.append_nil _).symm⟩
    rw [write_dict]
    rfl

end Json

end Conductor
