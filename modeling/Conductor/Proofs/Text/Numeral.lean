import Conductor.Path
import Mathlib

/-!
# Digits and integers

A segment of a path that consists of digits, with any number of dashes in front, asks for a position.
Whether it does is found out by one test, and which position it is by another one: the reading of
integers. The test lets through more than the reading understands. Superscripts and the like are digits
without a value, at most one dash is a sign, and there is a limit to the digits of an integer.

**Theorem (`position_ok_iff`).** The reading understands a text that passes the test if and only if
it has decimal digits only, not too many of them, behind one dash at most. Then it gives the number
that the digits denote.
-/

namespace Conductor

namespace Text

variable {c : Char} {cs : List Char} {ds : List Nat} {n : Nat}

/-- A row of characters is a row of decimal digits of some scripts. -/
def Spells (cs : List Char) (ds : List Nat) : Prop := cs.map decimalValue? = ds.map some

/-- The number that decimal digits denote, the first digit being the highest. -/
def valueOf (ds : List Nat) : Nat := Nat.ofDigits 10 ds.reverse

/-! ## Single characters -/

theorem isDigit_iff : c.isDigit = true ↔ 48 ≤ c.toNat ∧ c.toNat ≤ 57 := by
  simp only [Char.isDigit, Bool.and_eq_true, decide_eq_true_eq, UInt32.le_iff_toNat_le]
  rfl

theorem decimalValue?_lt (h : decimalValue? c = some n) : n < 10 := by
  unfold decimalValue? at h
  split at h
  · next hc =>
    have hc := isDigit_iff.1 hc
    obtain rfl : c.toNat - 48 = n := Option.some.inj h
    omega
  · split at h
    · cases h
    · obtain ⟨z, hz, rfl⟩ := Option.map_eq_some_iff.1 h
      have hz := List.find?_some hz
      simp only [Bool.and_eq_true, decide_eq_true_eq] at hz
      omega

/-- A digit in its plain form. -/
def plainDigit (n : Nat) : Char := Char.ofNat ('0'.toNat + n)

theorem plainChar_of_value (h : decimalValue? c = some n) : plainChar c = plainDigit n := by
  unfold plainChar
  rw [h]
  rfl

theorem toNat_plainDigit (h : n < 10) : (plainDigit n).toNat = 48 + n := by
  interval_cases n <;> rfl

/-- The plain form of a digit of any sort is no blank, no sign and no underscore. -/
structure Solid (c : Char) : Prop where
  blank : isBlank c = false
  minus : c ≠ '-'
  plus : c ≠ '+'
  underscore : c ≠ '_'

theorem solid_plainDigit (h : n < 10) : Solid (plainDigit n) ∧ (plainDigit n).isDigit = true := by
  interval_cases n <;> exact ⟨⟨by decide, by decide, by decide, by decide⟩, by decide⟩

/-- A digit that has no value. -/
def isOther (c : Char) : Bool :=
  0x80 ≤ c.toNat && otherDigits.any fun (lo, hi) => lo ≤ c.toNat && c.toNat ≤ hi

theorem isBlank_of_isOther (h : isOther c = true) : isBlank c = false := by
  simp only [isOther, otherDigits, Bool.and_eq_true, decide_eq_true_eq, List.any_cons, List.any_nil,
    Bool.or_eq_true, Bool.or_false] at h
  simp only [isBlank, Bool.or_eq_false_iff, Bool.and_eq_false_iff, decide_eq_false_iff_not, beq_eq_false_iff_ne]
  omega

theorem solid_of_isOther (h : isOther c = true) : Solid c ∧ c.isDigit = false := by
  have hlarge : 0x80 ≤ c.toNat := by
    simp only [isOther, Bool.and_eq_true, decide_eq_true_eq] at h
    exact h.1
  have hne : ∀ d : Char, d.toNat < 0x80 → c ≠ d := by
    rintro d hd rfl
    omega
  refine ⟨⟨isBlank_of_isOther h, hne _ (by decide), hne _ (by decide), hne _ (by decide)⟩, ?_⟩
  by_contra hd
  have := isDigit_iff.1 (Bool.not_eq_false _ ▸ hd)
  omega

/-! ## Rows of digits -/

theorem trim_of_solid (h : ∀ c ∈ cs, isBlank c = false) : trim cs = cs := by
  have hdrop : ∀ xs : List Char, (∀ c ∈ xs, isBlank c = false) → xs.dropWhile isBlank = xs := by
    intro xs hxs
    cases xs with
    | nil => rfl
    | cons x xs => rw [List.dropWhile_cons, hxs x (List.mem_cons_self ..)]; rfl
  rw [trim, hdrop cs h, hdrop _ fun c hc => h c (List.mem_reverse.1 hc), List.reverse_reverse]

/-- Digits have no underscores to be removed. -/
theorem dropGroups?_of_digits (h : ∀ c ∈ cs, c.isDigit = true) {previous : Char}
    (hp : previous ≠ '_') : dropGroups? previous cs = some cs := by
  induction cs generalizing previous with
  | nil => simp [dropGroups?, hp]
  | cons c cs ih =>
    have hc : c.isDigit = true := h c (List.mem_cons_self ..)
    have hne : c ≠ '_' := by
      rintro rfl
      cases hc
    simp only [dropGroups?, beq_iff_eq, hne, if_false, hc, Bool.not_true, Bool.and_false,
      Bool.false_eq_true]
    rw [ih (fun x hx => h x (List.mem_cons_of_mem c hx)) hne]
    rfl

theorem digitsValue_append (cs : List Char) (c : Char) :
    digitsValue (cs ++ [c]) = 10 * digitsValue cs + (c.toNat - 48) := by
  simp only [digitsValue, List.foldl_append, List.foldl_cons, List.foldl_nil]
  rfl

theorem digitsValue_plain (h : ∀ d ∈ ds, d < 10) : digitsValue (ds.map plainDigit) = valueOf ds := by
  induction ds using List.reverseRecOn with
  | nil => rfl
  | append_singleton ds d ih =>
    have hd : d < 10 := h d (by simp)
    have ih := ih fun x hx => h x (List.mem_append_left _ hx)
    rw [List.map_append, List.map_singleton, digitsValue_append, ih, toNat_plainDigit hd]
    simp only [valueOf, List.reverse_append, List.reverse_singleton, List.singleton_append,
      Nat.ofDigits_cons]
    omega

theorem Spells.lt (h : Spells cs ds) : ∀ d ∈ ds, d < 10 := by
  intro d hd
  have hmem : some d ∈ cs.map decimalValue? := by
    rw [h]
    exact List.mem_map_of_mem hd
  obtain ⟨c, -, hc⟩ := List.mem_map.1 hmem
  exact decimalValue?_lt hc

theorem Spells.plain (h : Spells cs ds) : cs.map plainChar = ds.map plainDigit := by
  induction cs generalizing ds with
  | nil =>
    cases ds with
    | nil => rfl
    | cons d ds => cases h
  | cons c cs ih =>
    cases ds with
    | nil => cases h
    | cons d ds =>
      obtain ⟨hc, hcs⟩ := List.cons.inj h
      exact congrArg₂ List.cons (plainChar_of_value hc) (ih hcs)

theorem Spells.length (h : Spells cs ds) : cs.length = ds.length := by
  simpa using congrArg List.length h

theorem exists_spells (h : ∀ c ∈ cs, (decimalValue? c).isSome = true) : ∃ ds, Spells cs ds := by
  induction cs with
  | nil => exact ⟨[], rfl⟩
  | cons c cs ih =>
    obtain ⟨d, hd⟩ := Option.isSome_iff_exists.1 (h c (List.mem_cons_self ..))
    obtain ⟨ds, hds⟩ := ih fun x hx => h x (List.mem_cons_of_mem c hx)
    exact ⟨d :: ds, congrArg₂ List.cons hd hds⟩

/-! ## The reading of integers -/

/-- What reading makes of a text once blanks and the sign are gone. -/
def readBody (minus : Bool) (body : List Char) : Except NumeralError Int :=
  match dropGroups? ' ' (body.takeWhile fun c => c.isDigit || c == '_') with
  | none => .error .malformed
  | some ds =>
    if ds.length > digitLimit then .error (.tooLong ds.length)
    else if ds.isEmpty || (body.takeWhile fun c => c.isDigit || c == '_').length < body.length then
      .error .malformed
    else .ok (if minus then -(digitsValue ds : Int) else digitsValue ds)

theorem readInteger_eq (key : String) : readInteger key =
    readBody (takeSign (trim (key.toList.map plainChar))).1
      (takeSign (trim (key.toList.map plainChar))).2 := rfl

/-- Of a row of plain characters without underscores, the reading takes the digits at its beginning. -/
theorem readBody_of_solid {minus : Bool} (h : ∀ c ∈ cs, Solid c) : readBody minus cs =
    if (cs.takeWhile Char.isDigit).length > digitLimit then
      .error (.tooLong (cs.takeWhile Char.isDigit).length)
    else if cs = [] ∨ ¬ cs.all Char.isDigit then .error .malformed
    else .ok (if minus then -(digitsValue cs : Int) else digitsValue cs) := by
  have hrun : (cs.takeWhile fun c => c.isDigit || c == '_') = cs.takeWhile Char.isDigit := by
    induction cs with
    | nil => rfl
    | cons c cs ih =>
      have hne := (h c (List.mem_cons_self ..)).underscore
      simp only [List.takeWhile_cons, beq_false_of_ne hne, Bool.or_false]
      rw [ih fun x hx => h x (List.mem_cons_of_mem c hx)]
  have hdigits : ∀ c ∈ cs.takeWhile Char.isDigit, c.isDigit = true := fun c hc =>
    List.mem_takeWhile_imp hc
  rw [readBody, hrun, dropGroups?_of_digits hdigits (by decide)]
  dsimp only
  by_cases hall : cs.all Char.isDigit = true
  · rw [List.takeWhile_eq_self_iff.2 (List.all_eq_true.1 hall)]
    simp [hall, List.isEmpty_iff]
  · have hlt : (cs.takeWhile Char.isDigit).length < cs.length := by
      refine lt_of_le_of_ne (List.takeWhile_prefix _).length_le fun heq => hall ?_
      have hself := (List.takeWhile_prefix Char.isDigit).eq_of_length heq
      exact List.all_eq_true.2 (List.takeWhile_eq_self_iff.1 hself)
    simp [hall, hlt]

/-- The reading does not stop before the end. -/
theorem isDigit_of_readBody {minus : Bool} {i : Int} (h : ∀ c ∈ cs, Solid c)
    (hi : readBody minus cs = .ok i) : ∀ c ∈ cs, c.isDigit = true := by
  rw [readBody_of_solid h] at hi
  by_cases hall : cs.all Char.isDigit = true
  · exact List.all_eq_true.1 hall
  · rw [if_pos (Or.inr hall)] at hi
    split at hi <;> cases hi

end Text

namespace Path

open Text

variable {key : String} {minus : Bool} {ds : List Nat} {i : Int}

/-- A text of decimal digits, with a dash in front or none. -/
structure Numeral (key : String) (minus : Bool) (ds : List Nat) : Prop where
  digits : ds ≠ []
  text : ∃ cs, key.toList = (if minus then '-' :: cs else cs) ∧ Spells cs ds

/-- The integer that decimal digits denote behind a dash or none. -/
def signed (minus : Bool) (ds : List Nat) : Int := if minus then -(valueOf ds : Int) else valueOf ds

/-- A text of decimal digits, not more than can be read, denotes an integer. -/
def Denotes (key : String) (i : Int) : Prop :=
  ∃ minus ds, Numeral key minus ds ∧ ds.length ≤ digitLimit ∧ signed minus ds = i

/-! ## What asks for a position -/

/-- A text that asks for a position is dashes and digits of any sort. -/
theorem isPosition_iff : isPosition key = true ↔ ∃ k body, body ≠ [] ∧ body.all Text.isDigit ∧
    key.toList = List.replicate k '-' ++ body := by
  unfold isPosition
  simp only [Bool.and_eq_true, Bool.not_eq_true', List.isEmpty_eq_false_iff]
  constructor
  · rintro ⟨hne, hall⟩
    refine ⟨(key.toList.takeWhile (· == '-')).length, _, hne, hall, ?_⟩
    have hdashes : key.toList.takeWhile (· == '-') =
        List.replicate (key.toList.takeWhile (· == '-')).length '-' :=
      List.eq_replicate_of_mem fun c hc => by simpa using List.mem_takeWhile_imp hc
    exact List.takeWhile_append_dropWhile.symm.trans (congrArg (· ++ _) hdashes)
  · rintro ⟨k, body, hne, hall, hkey⟩
    have hdrop : key.toList.dropWhile (· == '-') = body := by
      rw [hkey, List.dropWhile_append_of_pos (by simp)]
      cases body with
      | nil => exact absurd rfl hne
      | cons c cs =>
        rw [List.dropWhile_cons, if_neg]
        intro hc
        obtain rfl : c = '-' := by simpa using hc
        exact absurd (List.all_eq_true.1 hall '-' (List.mem_cons_self ..)) (by decide)
    rw [hdrop]
    exact ⟨hne, hall⟩

/-- The plain form of a digit of any sort stands for itself. -/
theorem solid_of_isDigit {c : Char} (h : Text.isDigit c = true) : Solid (plainChar c) ∧
    ((plainChar c).isDigit = true ↔ (decimalValue? c).isSome = true) := by
  cases hc : decimalValue? c with
  | some d =>
    have hd := solid_plainDigit (decimalValue?_lt hc)
    rw [plainChar_of_value hc]
    exact ⟨hd.1, iff_of_true hd.2 rfl⟩
  | none =>
    have hother : isOther c = true := by
      rw [Text.isDigit, hc] at h
      exact h
    have hs := solid_of_isOther hother
    have hplain : plainChar c = c := by
      unfold plainChar
      rw [hc]
      simp only [hs.1.blank, Bool.false_eq_true, if_false]
    rw [hplain, hs.2]
    exact ⟨hs.1, by simp⟩

theorem solid_of_digits {body : List Char} (hall : body.all Text.isDigit = true) :
    ∀ c ∈ body.map plainChar, Solid c := by
  intro c hc
  obtain ⟨d, hd, rfl⟩ := List.mem_map.1 hc
  exact (solid_of_isDigit (List.all_eq_true.1 hall d hd)).1

/-- Reading dashes and digits: at most one dash is a sign. -/
theorem readInteger_of_dashes {k : Nat} {body : List Char} (hne : body ≠ [])
    (hall : body.all Text.isDigit) (hkey : key.toList = List.replicate k '-' ++ body) :
    readInteger key = if k ≤ 1 then readBody (k == 1) (body.map plainChar)
      else .error .malformed := by
  have hsolid := solid_of_digits hall
  have hmap : key.toList.map plainChar = List.replicate k '-' ++ body.map plainChar := by
    rw [hkey, List.map_append, List.map_replicate]
    rfl
  have htrim : trim (key.toList.map plainChar) = List.replicate k '-' ++ body.map plainChar := by
    rw [hmap]
    refine trim_of_solid fun c hc => ?_
    rcases List.mem_append.1 hc with hc | hc
    · rw [List.eq_of_mem_replicate hc]
      decide
    · exact (hsolid c hc).blank
  rw [readInteger_eq, htrim]
  match k with
  | 0 =>
    obtain ⟨c, cs, hcs⟩ := List.exists_cons_of_ne_nil (List.map_eq_nil_iff.not.2 hne)
    rw [hcs] at hsolid ⊢
    have hc := hsolid c (List.mem_cons_self ..)
    have hsign : takeSign (c :: cs) = (false, c :: cs) := by
      unfold takeSign
      split
      · next heq => exact absurd (List.cons.inj heq).1 hc.minus
      · next heq => exact absurd (List.cons.inj heq).1 hc.plus
      · rfl
    rw [List.replicate_zero, List.nil_append, hsign]
    rfl
  | 1 => rfl
  | k + 2 => rfl

/-- A numeral is a row of digits behind one dash at most. -/
theorem Numeral.dashes (h : Numeral key minus ds) : ∃ cs, cs ≠ [] ∧ cs.all Text.isDigit = true ∧
    Spells cs ds ∧ key.toList = List.replicate (if minus then 1 else 0) '-' ++ cs := by
  obtain ⟨cs, hkey, hcs⟩ := h.text
  refine ⟨cs, ?_, ?_, hcs, ?_⟩
  · rintro rfl
    exact h.digits (List.length_eq_zero_iff.1 hcs.length.symm)
  · refine List.all_eq_true.2 fun c hc => ?_
    have hmem : decimalValue? c ∈ ds.map some := by
      rw [← hcs]
      exact List.mem_map_of_mem hc
    obtain ⟨d, -, hd⟩ := List.mem_map.1 hmem
    simp [Text.isDigit, ← hd]
  · rw [hkey]
    cases minus <;> rfl

theorem isPosition_of_numeral (h : Numeral key minus ds) : isPosition key = true := by
  obtain ⟨cs, hne, hall, -, hkey⟩ := h.dashes
  exact isPosition_iff.2 ⟨_, cs, hne, hall, hkey⟩

/-- **Digits behind one dash at most are read as the number that they denote**, if there are not too
many of them. -/
theorem position_of_numeral (h : Numeral key minus ds) : position key =
    if ds.length ≤ digitLimit then .ok (signed minus ds) else .error (.longInteger ds.length) := by
  obtain ⟨cs, hne, hall, hcs, hkey⟩ := h.dashes
  have hplain : ∀ c ∈ ds.map plainDigit, Solid c ∧ c.isDigit = true := by
    intro c hc
    obtain ⟨d, hd, rfl⟩ := List.mem_map.1 hc
    exact solid_plainDigit (hcs.lt d hd)
  have hwhole : (ds.map plainDigit).takeWhile Char.isDigit = ds.map plainDigit :=
    List.takeWhile_eq_self_iff.2 fun c hc => (hplain c hc).2
  have hread : readInteger key = if ds.length ≤ digitLimit then .ok (signed minus ds)
      else .error (.tooLong ds.length) := by
    have hminus : (if minus then 1 else 0) ≤ 1 ∧ ((if minus then 1 else 0) == 1) = minus := by
      cases minus <;> decide
    rw [readInteger_of_dashes hne hall hkey, if_pos hminus.1, hminus.2, hcs.plain,
      readBody_of_solid fun c hc => (hplain c hc).1, hwhole, List.length_map,
      digitsValue_plain hcs.lt]
    by_cases hlong : ds.length ≤ digitLimit
    · have hall : (ds.map plainDigit).all Char.isDigit = true :=
        List.all_eq_true.2 fun c hc => (hplain c hc).2
      rw [if_neg (Nat.not_lt.2 hlong), if_pos hlong, if_neg]
      · rfl
      · simp [h.digits, hall]
    · rw [if_pos (Nat.lt_of_not_le hlong), if_neg hlong]
  unfold position
  rw [hread]
  split_ifs <;> rfl

/-- **What asks for a position and can be read denotes it.** -/
theorem position_ok_iff (h : isPosition key = true) : position key = .ok i ↔ Denotes key i := by
  constructor
  · intro hi
    obtain ⟨k, body, hne, hall, hkey⟩ := isPosition_iff.1 h
    have hread : readInteger key = .ok i := by
      unfold position at hi
      split at hi
      · next hr => exact hr.trans (congrArg _ (Except.ok.inj hi))
      · cases hi
      · cases hi
    have hsolid := solid_of_digits hall
    rw [readInteger_of_dashes hne hall hkey] at hread
    by_cases hk : k ≤ 1
    · rw [if_pos hk] at hread
      have hdecimal : ∀ c ∈ body, (decimalValue? c).isSome = true := fun c hc =>
        (solid_of_isDigit (List.all_eq_true.1 hall c hc)).2.1
          (isDigit_of_readBody hsolid hread _ (List.mem_map_of_mem hc))
      obtain ⟨ds, hds⟩ := exists_spells hdecimal
      have hnum : Numeral key (k == 1) ds := by
        refine ⟨?_, body, ?_, hds⟩
        · rintro rfl
          exact hne (List.length_eq_zero_iff.1 hds.length)
        · rw [hkey]
          interval_cases k <;> rfl
      have hpos := position_of_numeral hnum
      rw [hi] at hpos
      split_ifs at hpos with hshort
      exact ⟨_, ds, hnum, hshort, (Except.ok.inj hpos).symm⟩
    · rw [if_neg hk] at hread
      cases hread
  · rintro ⟨minus, ds, hnum, hshort, rfl⟩
    rw [position_of_numeral hnum, if_pos hshort]

end Path

end Conductor
