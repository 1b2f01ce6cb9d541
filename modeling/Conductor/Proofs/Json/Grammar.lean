import Conductor.Proofs.Json.Numbers

/-!
# The grammar of JSON

The texts that RFC 8259 calls JSON: values with blanks between their parts, where a word is one of three, a
number has digits, and a text stands between quotes with every quote, backslash and control character in it
escaped.

Outside of its texts a value has no capital letter but the `E` of an exponent. So a text in which an `N` or
an `I` stands outside of all quotes is no JSON (`Value.capitals`).
-/

namespace Conductor

namespace Json

variable {cs ds : List Char} {a b : Bool} {c : Char} {d : Datum}

/-! ## Values -/

/-- Blanks between the parts of a value. -/
def Blank (cs : List Char) : Prop := ∀ c ∈ cs, c = ' ' ∨ c = '\n' ∨ c = '\t' ∨ c = '\r'

/-- What stands between the quotes of a text. -/
inductive Chars : List Char → Prop
  | nil : Chars []
  | char {c : Char} {cs : List Char} (hc : 0x20 ≤ c.toNat) (hquote : c ≠ '"') (hslash : c ≠ '\\')
    (h : Chars cs) : Chars (c :: cs)
  | short {c : Char} {cs : List Char} (hc : (shortEscape? c).isSome = true) (h : Chars cs) :
    Chars ('\\' :: c :: cs)
  | code {i j k l : Char} {cs : List Char} (hc : (code? i j k l).isSome = true) (h : Chars cs) :
    Chars ('\\' :: 'u' :: i :: j :: k :: l :: cs)

/-- A text in its quotes. -/
inductive Quoted : List Char → Prop
  | quotes {cs : List Char} (h : Chars cs) : Quoted ('"' :: (cs ++ ['"']))

/-- The words that are values. -/
def plainWords : List (List Char) := [['n', 'u', 'l', 'l'], ['t', 'r', 'u', 'e'], ['f', 'a', 'l', 's', 'e']]

mutual

/-- A value, without blanks around it. -/
inductive Value : List Char → Prop
  | word {cs : List Char} (h : cs ∈ plainWords) : Value cs
  | number {minus : Bool} {cs : List Char} {d : Datum} (h : Number minus cs d) :
    Value (if minus then '-' :: cs else cs)
  | text {cs : List Char} (h : Quoted cs) : Value cs
  | noItems {i : List Char} (hi : Blank i) : Value ('[' :: (i ++ [']']))
  | list {i cs j : List Char} (hi : Blank i) (h : Items cs) (hj : Blank j) :
    Value ('[' :: (i ++ (cs ++ (j ++ [']']))))
  | noMembers {i : List Char} (hi : Blank i) : Value ('\x7b' :: (i ++ ['\x7d']))
  | dict {i cs j : List Char} (hi : Blank i) (h : Members cs) (hj : Blank j) :
    Value ('\x7b' :: (i ++ (cs ++ (j ++ ['\x7d']))))

/-- One or more values with commas between them. -/
inductive Items : List Char → Prop
  | last {cs : List Char} (h : Value cs) : Items cs
  | more {cs i j ds : List Char} (h : Value cs) (hi : Blank i) (hj : Blank j) (hs : Items ds) :
    Items (cs ++ (i ++ ',' :: (j ++ ds)))

/-- A text and a value with a colon between them. -/
inductive Member : List Char → Prop
  | pair {ks i j cs : List Char} (hk : Quoted ks) (hi : Blank i) (hj : Blank j) (h : Value cs) :
    Member (ks ++ (i ++ ':' :: (j ++ cs)))

/-- One or more such pairs with commas between them. -/
inductive Members : List Char → Prop
  | last {cs : List Char} (h : Member cs) : Members cs
  | more {cs i j ds : List Char} (h : Member cs) (hi : Blank i) (hj : Blank j) (hs : Members ds) :
    Members (cs ++ (i ++ ',' :: (j ++ ds)))

end

/-- A JSON text that holds an object. -/
def IsObject (cs : List Char) : Prop :=
  ∃ i v j, Blank i ∧ Value v ∧ Blank j ∧ v.head? = some '\x7b' ∧ cs = i ++ (v ++ j)

/-! ## Capital letters -/

/-- Whether an `N` or an `I` stands outside of all texts. The flag tells whether the characters begin
inside of one. -/
def capital : Bool → List Char → Bool
  | _, [] => false
  | false, c :: cs => if c = '"' then capital true cs else c = 'N' || c = 'I' || capital false cs
  | true, '\\' :: _ :: cs => capital true cs
  | true, c :: cs => capital (c != '"') cs

/-- Characters begin and end outside of texts, and the flag tells whether there is a capital among those
that stand outside. -/
def Capitals (cs : List Char) (b : Bool) : Prop :=
  ∀ rest, capital false (cs ++ rest) = (b || capital false rest)

namespace Capitals

theorem nil : Capitals [] false := fun _ => rfl

theorem append (h : Capitals cs a) (h' : Capitals ds b) : Capitals (cs ++ ds) (a || b) := fun rest => by
  rw [List.append_assoc, h, h', Bool.or_assoc]

theorem cons (hc : c ≠ '"') (h : Capitals cs b) : Capitals (c :: cs) (c = 'N' || c = 'I' || b) := fun rest => by
  rw [List.cons_append, capital, if_neg hc, h, Bool.or_assoc, Bool.or_assoc, Bool.or_assoc]

theorem unique (h : Capitals cs a) (h' : Capitals cs b) : a = b := by
  have h := (h []).symm.trans (h' [])
  rwa [capital, Bool.or_false, Bool.or_false] at h

/-- A character that is no capital outside of texts, and no quote. -/
theorem cons_low (hc : c ≠ '"' ∧ c ≠ 'N' ∧ c ≠ 'I') (h : Capitals cs b) : Capitals (c :: cs) b := by
  have h := h.cons hc.1
  rwa [decide_eq_false hc.2.1, decide_eq_false hc.2.2, Bool.false_or, Bool.false_or] at h

theorem of_low (h : ∀ c ∈ cs, c ≠ '"' ∧ c ≠ 'N' ∧ c ≠ 'I') : Capitals cs false := by
  induction cs with
  | nil => exact nil
  | cons c cs ih =>
    exact cons_low (h c List.mem_cons_self) (ih fun d hd => h d (List.mem_cons_of_mem _ hd))

/-- Low characters in front of others. -/
theorem low_append (h : ∀ c ∈ cs, c ≠ '"' ∧ c ≠ 'N' ∧ c ≠ 'I') (h' : Capitals ds b) :
    Capitals (cs ++ ds) b := by
  have h := (of_low h).append h'
  rwa [Bool.false_or] at h

end Capitals

/-! ## Capital letters in values -/

/-- A character in a text that neither ends it nor begins an escape. -/
theorem capital_char (hquote : c ≠ '"') (hslash : c ≠ '\\') (cs : List Char) :
    capital true (c :: cs) = capital true cs := by
  rw [capital, bne_iff_ne.2 hquote]
  exact fun _ _ h => absurd h hslash

theorem hexValue?_isSome (h : (hexValue? c).isSome = true) : c ≠ '"' ∧ c ≠ '\\' := by
  constructor <;> (rintro rfl; cases h)

theorem code?_isSome {i j k l : Char} (h : (code? i j k l).isSome = true) :
    (hexValue? i).isSome = true ∧ (hexValue? j).isSome = true ∧ (hexValue? k).isSome = true ∧
      (hexValue? l).isSome = true := by
  obtain ⟨n, h⟩ := Option.isSome_iff_exists.1 h
  simp only [code?, Option.bind_eq_bind, Option.bind_eq_some_iff] at h
  obtain ⟨_, hi, _, hj, _, hk, _, hl, -⟩ := h
  simp [hi, hj, hk, hl]

/-- A text ends at its quote. -/
theorem Chars.capital (h : Chars cs) (rest : List Char) :
    Json.capital true (cs ++ '"' :: rest) = Json.capital false rest := by
  induction h with
  | nil => rfl
  | char _ hquote hslash _ ih => exact (capital_char hquote hslash _).trans ih
  | short _ _ ih => exact ih
  | code hc _ ih =>
    obtain ⟨hi, hj, hk, hl⟩ := code?_isSome hc
    simp only [List.cons_append, Json.capital]
    have hskip : ∀ {c : Char} (cs : List Char), (hexValue? c).isSome = true →
        Json.capital true (c :: cs) = Json.capital true cs :=
      fun cs h => capital_char (hexValue?_isSome h).1 (hexValue?_isSome h).2 cs
    rw [hskip _ hi, hskip _ hj, hskip _ hk, hskip _ hl]
    exact ih

theorem Quoted.capitals (h : Quoted cs) : Capitals cs false := fun rest => by
  obtain ⟨h⟩ := h
  rw [List.cons_append, List.append_assoc]
  exact h.capital rest

theorem Blank.capitals (h : Blank cs) : Capitals cs false :=
  .of_low fun c hc => by rcases h c hc with rfl | rfl | rfl | rfl <;> decide

/-! ### Numbers -/

/-- The characters of numbers. -/
def Numeric (c : Char) : Prop := c.isDigit = true ∨ c ∈ ['.', 'e', 'E', '+', '-']

theorem Digits.numeric (h : Digits cs) : ∀ c ∈ cs, Numeric c := fun c hc => Or.inl (h.all c hc)

theorem Mark.numeric (h : Mark c) : Numeric c := by
  rcases h with rfl | rfl <;> exact Or.inr (by decide)

theorem Whole.numeric (h : Whole cs) : ∀ c ∈ cs, Numeric c := by
  rcases h with rfl | ⟨h, -⟩
  · exact digits_zero.numeric
  · exact h.numeric

theorem Fraction.numeric (h : Fraction cs ds) : ∀ c ∈ cs, Numeric c := by
  cases h with
  | absent => exact fun _ h => absurd h List.not_mem_nil
  | present h => exact List.forall_mem_cons.2 ⟨Or.inr (by decide), h.numeric⟩

theorem Exponent.numeric {x : Int} (h : Exponent cs x) : ∀ c ∈ cs, Numeric c := by
  cases h with
  | absent => exact fun _ h => absurd h List.not_mem_nil
  | bare hc h => exact List.forall_mem_cons.2 ⟨hc.numeric, h.numeric⟩
  | plus hc h | minus hc h =>
    exact List.forall_mem_cons.2 ⟨hc.numeric, List.forall_mem_cons.2 ⟨Or.inr (by decide), h.numeric⟩⟩

theorem Number.numeric (h : Number a cs d) : ∀ c ∈ cs, Numeric c := by
  cases h with
  | int h => exact h.numeric
  | real h =>
    obtain ⟨hw, hf, he, -⟩ := h
    exact List.forall_mem_append.2 ⟨hw.numeric, List.forall_mem_append.2 ⟨hf.numeric, he.numeric⟩⟩

/-- The characters of a number with its sign. -/
theorem Number.signed (h : Number a cs d) : ∀ c ∈ (if a then '-' :: cs else cs), Numeric c := by
  cases a with
  | false => exact h.numeric
  | true => exact List.forall_mem_cons.2 ⟨Or.inr (by decide), h.numeric⟩

theorem Numeric.low (h : Numeric c) : c ≠ '"' ∧ c ≠ 'N' ∧ c ≠ 'I' := by
  rcases h with h | h
  · refine ⟨?_, ?_, ?_⟩ <;> (rintro rfl; cases h)
  · refine ⟨?_, ?_, ?_⟩ <;> (rintro rfl; revert h; decide)

/-! ### Values -/

theorem plainWords_low : ∀ cs ∈ plainWords, ∀ c ∈ cs, c ≠ '"' ∧ c ≠ 'N' ∧ c ≠ 'I' := by
  simp [plainWords]

/-- What stands between two brackets. -/
theorem Capitals.between {l r : Char} (hl : l ≠ '"' ∧ l ≠ 'N' ∧ l ≠ 'I') (hr : r ≠ '"' ∧ r ≠ 'N' ∧ r ≠ 'I')
    (h : Capitals cs a) : Capitals (l :: (cs ++ [r])) a := by
  have h := cons_low hl (h.append (cons_low hr nil))
  rwa [Bool.or_false] at h

mutual

/-- **Outside of its texts a value has no capital letters** `N` and `I`. -/
theorem Value.capitals {cs : List Char} : Value cs → Capitals cs false
  | .word h => .of_low (plainWords_low _ h)
  | .number h => .of_low fun c hc => (h.signed c hc).low
  | .text h => h.capitals
  | .noItems hi => hi.capitals.between (by decide) (by decide)
  | .noMembers hi => hi.capitals.between (by decide) (by decide)
  | .list hi h hj => by
    have h := (hi.capitals.append (h.capitals.append hj.capitals)).between (l := '[') (r := ']')
      (by decide) (by decide)
    simpa using h
  | .dict hi h hj => by
    have h := (hi.capitals.append (h.capitals.append hj.capitals)).between (l := '\x7b') (r := '\x7d')
      (by decide) (by decide)
    simpa using h

theorem Items.capitals {cs : List Char} : Items cs → Capitals cs false
  | .last h => h.capitals
  | .more h hi hj hs =>
    h.capitals.append (hi.capitals.append (.cons_low (by decide) (hj.capitals.append hs.capitals)))

theorem Member.capitals {cs : List Char} : Member cs → Capitals cs false
  | .pair hk hi hj h =>
    hk.capitals.append (hi.capitals.append (.cons_low (by decide) (hj.capitals.append h.capitals)))

theorem Members.capitals {cs : List Char} : Members cs → Capitals cs false
  | .last h => h.capitals
  | .more h hi hj hs =>
    h.capitals.append (hi.capitals.append (.cons_low (by decide) (hj.capitals.append hs.capitals)))

end

/-- What is JSON has no capital letters outside of its texts. -/
theorem IsObject.capitals (h : IsObject cs) : Capitals cs false := by
  obtain ⟨i, v, j, hi, hv, hj, -, rfl⟩ := h
  exact hi.capitals.append (hv.capitals.append hj.capitals)

end Json

end Conductor
