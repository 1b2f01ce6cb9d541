import Conductor.Json.Reader
import Conductor.Json.Writer
import Conductor.Proofs.Binary64.Shortest

/-!
# Numbers in JSON

What a number looks like, with what it denotes: an optional minus, a whole part without a needless zero, and
maybe a fraction and an exponent. A number that has one of these two is a floating-point number, any other
is an integer (`Number`).

The reader takes all of a number (`Number.read`). What is written of an integer, and of a floating-point
number that is finite, is such a number and denotes the number that it was written for (`int_number`,
`float_number`).
-/

namespace Conductor

namespace Json

open Binary64 Text

variable {cs ds w f g e rest : List Char} {minus : Bool} {x : Int} {d : Datum}

/-! ## The form of a number -/

/-- One or more decimal digits. -/
structure Digits (cs : List Char) : Prop where
  nonempty : cs ≠ []
  all : ∀ c ∈ cs, c.isDigit = true

/-- A whole part: a zero, or digits of which the first is no zero. -/
def Whole (cs : List Char) : Prop := cs = ['0'] ∨ Digits cs ∧ cs.head? ≠ some '0'

/-- A fraction with its digits. -/
inductive Fraction : List Char → List Char → Prop
  | absent : Fraction [] []
  | present {cs : List Char} (h : Digits cs) : Fraction ('.' :: cs) cs

/-- The mark of an exponent. -/
def Mark (c : Char) : Prop := c = 'e' ∨ c = 'E'

/-- An exponent with its value. -/
inductive Exponent : List Char → Int → Prop
  | absent : Exponent [] 0
  | bare {c : Char} {cs : List Char} (hc : Mark c) (h : Digits cs) : Exponent (c :: cs) (digitsValue cs)
  | plus {c : Char} {cs : List Char} (hc : Mark c) (h : Digits cs) :
    Exponent (c :: '+' :: cs) (digitsValue cs)
  | minus {c : Char} {cs : List Char} (hc : Mark c) (h : Digits cs) :
    Exponent (c :: '-' :: cs) (-(digitsValue cs : Int))

/-- An unsigned number with a fraction or an exponent, and digits and an exponent of the decimal that it
denotes. -/
inductive Real : List Char → Nat → Int → Prop
  | parts {w f g e : List Char} {x : Int} (hw : Whole w) (hf : Fraction f g) (he : Exponent e x)
    (h : f ++ e ≠ []) : Real (w ++ (f ++ e)) (digitsValue (w ++ g)) (x - g.length)

/-- A number without its sign, and what it denotes behind a minus or none. -/
inductive Number (minus : Bool) : List Char → Datum → Prop
  | int {w : List Char} (h : Whole w) :
    Number minus w (.int (if minus then -(digitsValue w : Int) else digitsValue w))
  | real {cs : List Char} {n : Nat} {x : Int} (h : Real cs n x) :
    Number minus cs (.float (ofDecimal minus n x))

/-! ## Reading -/

/-- Nothing follows, or something that is no digit. -/
def Undigit (cs : List Char) : Prop := ∀ c, cs.head? = some c → c.isDigit = false

/-- Nothing follows, or something that cannot belong to a number. -/
def Stop (cs : List Char) : Prop :=
  ∀ c, cs.head? = some c → c.isDigit = false ∧ c ≠ '.' ∧ ¬Mark c

theorem Stop.undigit (h : Stop cs) : Undigit cs := fun c hc => (h c hc).1

theorem Mark.undigit {c : Char} (h : Mark c) : c.isDigit = false := by
  rcases h with rfl | rfl <;> rfl

theorem undigit_cons {c : Char} (h : c.isDigit = false) : Undigit (c :: cs) := by
  rintro _ ⟨⟩
  exact h

theorem span_digits (hds : ∀ c ∈ ds, c.isDigit = true) (hrest : Undigit rest) :
    (ds ++ rest).span Char.isDigit = (ds, rest) := by
  have htake : rest.takeWhile Char.isDigit = [] ∧ rest.dropWhile Char.isDigit = rest := by
    cases rest with
    | nil => exact ⟨rfl, rfl⟩
    | cons c cs =>
      have hc := hrest c rfl
      exact ⟨List.takeWhile_cons_of_neg (by rw [hc]; decide), List.dropWhile_cons_of_neg (by rw [hc]; decide)⟩
  rw [List.span_eq_takeWhile_dropWhile, List.takeWhile_append_of_pos hds, List.dropWhile_append_of_pos hds,
    htake.1, htake.2, List.append_nil]

theorem Whole.head (h : Whole w) : ∃ c cs, w = c :: cs ∧ c.isDigit = true := by
  rcases h with rfl | ⟨⟨hne, hall⟩, -⟩
  · exact ⟨'0', [], rfl, rfl⟩
  · cases w with
    | nil => exact absurd rfl hne
    | cons c cs => exact ⟨c, cs, rfl, hall c List.mem_cons_self⟩

theorem Whole.take (h : Whole w) (hrest : Undigit rest) : takeWhole? (w ++ rest) = some (w, rest) := by
  rcases h with rfl | ⟨⟨hne, hall⟩, hzero⟩
  · rfl
  · obtain ⟨c, cs, rfl⟩ := List.exists_cons_of_ne_nil hne
    have hspan := span_digits hall hrest
    unfold takeWhole?
    split
    · next heq =>
      obtain ⟨rfl, -⟩ := List.cons.inj heq
      exact absurd rfl hzero
    · rw [hspan]
      rfl

theorem Fraction.take (h : Fraction f g) (hrest : Undigit rest) (hpoint : rest.head? ≠ some '.') :
    takeFraction (f ++ rest) = (if f = [] then none else some g, rest) := by
  cases h with
  | absent =>
    cases rest with
    | nil => rfl
    | cons c cs =>
      unfold takeFraction
      split
      · next heq => exact absurd (congrArg List.head? heq) hpoint
      · rfl
  | present hg =>
    rw [List.cons_append]
    simp only [takeFraction, span_digits hg.all hrest]
    simp [hg.nonempty]

/-- What is read behind a mark. -/
theorem takeExponent_mark {c : Char} (hc : Mark c) (sign : Bool) (hds : Digits ds) (hrest : Undigit rest)
    {more : List Char} (hmore : takeSign more = (sign, ds ++ rest)) :
    takeExponent (c :: more) = (some (if sign then -(digitsValue ds : Int) else digitsValue ds), rest) := by
  have hmark : (c == 'e' || c == 'E') = true := by rcases hc with rfl | rfl <;> rfl
  unfold takeExponent
  simp only [hmark, if_true, hmore, span_digits hds.all hrest, List.isEmpty_iff, hds.nonempty, if_false]

theorem takeSign_digits (h : Digits ds) : takeSign (ds ++ rest) = (false, ds ++ rest) := by
  obtain ⟨c, cs, rfl⟩ := List.exists_cons_of_ne_nil h.nonempty
  have hc := h.all c List.mem_cons_self
  unfold takeSign
  split
  · next heq =>
    obtain ⟨rfl, -⟩ := List.cons.inj heq
    cases hc
  · next heq =>
    obtain ⟨rfl, -⟩ := List.cons.inj heq
    cases hc
  · rfl

theorem Exponent.take (h : Exponent e x) (hrest : Stop rest) :
    takeExponent (e ++ rest) = (if e = [] then none else some x, rest) := by
  cases h with
  | absent =>
    cases rest with
    | nil => rfl
    | cons c cs =>
      have hmark : (c == 'e' || c == 'E') ≠ true := fun h => (hrest c rfl).2.2 (by simpa [Mark] using h)
      exact if_neg hmark
  | bare hc hds => exact takeExponent_mark hc false hds hrest.undigit (takeSign_digits hds)
  | plus hc hds => exact takeExponent_mark hc false hds hrest.undigit rfl
  | minus hc hds => exact takeExponent_mark hc true hds hrest.undigit rfl

theorem Exponent.head (h : Exponent e x) (hrest : Stop rest) :
    Undigit (e ++ rest) ∧ (e ++ rest).head? ≠ some '.' := by
  have hmark : ∀ {c : Char} {cs : List Char}, Mark c → Undigit (c :: cs) ∧ (c :: cs).head? ≠ some '.' :=
    fun hc => ⟨undigit_cons hc.undigit, by rintro ⟨⟩; rcases hc with h | h <;> cases h⟩
  cases h with
  | absent => exact ⟨hrest.undigit, fun h => (hrest _ h).2.1 rfl⟩
  | bare hc _ => exact hmark hc
  | plus hc _ => exact hmark hc
  | minus hc _ => exact hmark hc

theorem Fraction.undigit (h : Fraction f g) (hrest : Undigit rest) : Undigit (f ++ rest) := by
  cases h with
  | absent => exact hrest
  | present => exact undigit_cons rfl

/-- **The reader takes all of a number.** -/
theorem Number.read (h : Number minus cs d) (hrest : Stop rest) :
    readNumber? minus (cs ++ rest) = some (d, rest) := by
  cases h with
  | int hw =>
    have hf := Fraction.absent.take hrest.undigit fun h => (hrest _ h).2.1 rfl
    have he := Exponent.absent.take hrest
    rw [List.nil_append] at hf he
    rw [readNumber?, hw.take hrest.undigit]
    simp only [Option.map_some, hf, he, if_true]
  | real h =>
    obtain ⟨hw, hf, he, hne⟩ := h
    obtain ⟨hdigit, hpoint⟩ := he.head hrest
    rw [readNumber?, List.append_assoc, List.append_assoc, hw.take (hf.undigit hdigit), Option.map_some]
    simp only [hf.take hdigit hpoint, he.take hrest]
    -- A part that is absent has the value that stands in for it.
    cases hf with
    | present => exact congrArg (fun y => some (Datum.float (ofDecimal minus _ (y - _)), rest)) (by cases he <;> rfl)
    | absent =>
      cases he with
      | absent => exact absurd rfl hne
      | _ => rfl

/-! ## The values of digits -/

theorem digitsValue_eq (cs : List Char) : digitsValue cs = Nat.ofDigitChars 10 cs 0 := rfl

theorem digitsValue_append (as bs : List Char) :
    digitsValue (as ++ bs) = digitsValue as * 10 ^ bs.length + digitsValue bs := by
  rw [digitsValue_eq, digitsValue_eq, digitsValue_eq, Nat.ofDigitChars_append,
    Nat.ofDigitChars_eq_ofDigitChars_zero, Nat.mul_comm]

theorem digitsValue_zeros (n : Nat) : digitsValue (List.replicate n '0') = 0 := by
  rw [digitsValue_eq, Nat.ofDigitChars_replicate_zero, Nat.mul_zero]

theorem digitsValue_digitsOf (n : Nat) : digitsValue (digitsOf n) = n := Nat.ofDigitChars_ten_toDigits

theorem digits_digitsOf (n : Nat) : Digits (digitsOf n) :=
  ⟨Nat.toDigits_ne_nil, fun _ h => Nat.isDigit_of_mem_toDigits (by decide) (by decide) h⟩

theorem head_digitsOf {n : Nat} (hn : 0 < n) : (digitsOf n).head? ≠ some '0' := by
  induction n using Nat.strongRecOn with
  | ind n ih =>
    unfold digitsOf at ih ⊢
    rcases Nat.lt_or_ge n 10 with hlt | hge
    · rw [Nat.toDigits_of_lt_base hlt]
      interval_cases n <;> decide
    · have hdiv := ih (n / 10) (by omega) (by omega)
      rw [Nat.toDigits_of_base_le (by decide) hge, List.head?_append_of_ne_nil _ Nat.toDigits_ne_nil]
      exact hdiv

theorem whole_digitsOf (n : Nat) : Whole (digitsOf n) := by
  rcases Nat.eq_zero_or_pos n with rfl | hn
  · exact Or.inl rfl
  · exact Or.inr ⟨digits_digitsOf n, head_digitsOf hn⟩

/-- **What is written of an integer denotes it.** -/
theorem int_number (i : Int) : ∃ cs, (toString i).toList = (if i < 0 then '-' :: cs else cs) ∧
    Number (decide (i < 0)) cs (.int i) := by
  refine ⟨digitsOf i.natAbs, ?_, ?_⟩
  · have hrepr : ∀ n, (Nat.repr n).toList = digitsOf n := fun n => by
      rw [Nat.repr_eq_ofList_toDigits, String.toList_ofList]
      rfl
    cases i with
    | ofNat n =>
      rw [if_neg (Int.not_lt.2 (Int.natCast_nonneg n) : ¬Int.ofNat n < 0)]
      exact hrepr n
    | negSucc n =>
      rw [if_pos (Int.negSucc_lt_zero n)]
      show ("-" ++ Nat.repr (n + 1)).toList = _
      rw [String.toList_append, hrepr]
      rfl
  · have h : Number (decide (i < 0)) _ _ := .int (whole_digitsOf i.natAbs)
    rw [digitsValue_digitsOf] at h
    convert h using 2
    by_cases hi : i < 0
    · rw [if_pos (decide_eq_true hi)]
      omega
    · rw [if_neg (by simpa using hi)]
      omega

/-! ## The layout of digits -/

theorem Digits.append (h : Digits ds) {es : List Char} (hes : ∀ c ∈ es, c.isDigit = true) :
    Digits (ds ++ es) :=
  ⟨List.append_ne_nil_of_left_ne_nil h.nonempty es, fun c hc => (List.mem_append.1 hc).elim (h.all c) (hes c)⟩

theorem isDigit_of_mem_zeros {n : Nat} : ∀ c ∈ List.replicate n '0', c.isDigit = true := by
  intro c hc
  rw [List.eq_of_mem_replicate hc]
  rfl

theorem digits_zero : Digits ['0'] := ⟨List.cons_ne_nil _ _, List.forall_mem_singleton.2 rfl⟩

theorem digitsValue_zeros_append (n : Nat) (cs : List Char) :
    digitsValue (List.replicate n '0' ++ cs) = digitsValue cs := by
  rw [digitsValue_append, digitsValue_zeros, Nat.zero_mul, Nat.zero_add]

/-- All digits behind the point. -/
theorem real_behind (hds : Digits ds) (z : Nat) :
    Real ('0' :: '.' :: List.replicate z '0' ++ ds) (digitsValue ds) (-z - ds.length) := by
  have hg : Digits (List.replicate z '0' ++ ds) := by
    refine ⟨List.append_ne_nil_of_right_ne_nil _ hds.nonempty, fun c hc => ?_⟩
    exact (List.mem_append.1 hc).elim (isDigit_of_mem_zeros c) (hds.all c)
  have h := Real.parts (Or.inl rfl) (.present hg) .absent (by simp)
  rw [show ['0'] = List.replicate 1 '0' from rfl, digitsValue_zeros_append, digitsValue_zeros_append, List.length_append, List.length_replicate,
    List.append_nil] at h
  have hlength : (-z - ds.length : Int) = 0 - ((z + ds.length : Nat) : Int) := by omega
  rw [hlength]
  exact h

/-- The point between digits. -/
theorem real_between (hds : Digits ds) (hzero : ds.head? ≠ some '0') {p : Nat} (hp : 0 < p)
    (hlt : p < ds.length) :
    Real (ds.take p ++ '.' :: ds.drop p) (digitsValue ds) (p - ds.length) := by
  have hdrop : Digits (ds.drop p) := by
    refine ⟨?_, fun c hc => hds.all c (List.mem_of_mem_drop hc)⟩
    rw [← List.length_pos_iff, List.length_drop]
    omega
  have htake : Whole (ds.take p) := by
    refine Or.inr ⟨⟨?_, fun c hc => hds.all c (List.mem_of_mem_take hc)⟩, ?_⟩
    · rw [← List.length_pos_iff, List.length_take]
      omega
    · rwa [List.head?_take, if_neg (by omega)]
  have h := Real.parts htake (.present hdrop) .absent (by simp)
  rw [List.take_append_drop, List.length_drop, List.append_nil] at h
  convert h using 1
  omega

/-- The point behind the digits, with a zero after it. -/
theorem real_before (hds : Digits ds) (hzero : ds.head? ≠ some '0') (z : Nat) :
    Real (ds ++ List.replicate z '0' ++ ['.', '0']) (digitsValue ds * 10 ^ (z + 1)) (-1) := by
  have hwhole : Whole (ds ++ List.replicate z '0') := by
    refine Or.inr ⟨hds.append isDigit_of_mem_zeros, ?_⟩
    rwa [List.head?_append_of_ne_nil _ hds.nonempty]
  have hvalue : digitsValue (ds ++ List.replicate z '0' ++ ['0']) = digitsValue ds * 10 ^ (z + 1) := by
    rw [List.append_assoc, digitsValue_append, digitsValue_zeros_append, List.length_append,
      List.length_replicate]
    rfl
  have h := Real.parts hwhole (.present digits_zero) .absent (by simp)
  rw [hvalue] at h
  exact h

theorem exponent_text (x : Int) : Exponent ('e' :: exponentText x) x := by
  have hdigits := digits_digitsOf x.natAbs
  have hvalue := digitsValue_digitsOf x.natAbs
  obtain ⟨es, hes, hesd, hesv⟩ : ∃ es, exponentText x = (if x < 0 then '-' else '+') :: es ∧ Digits es ∧
      digitsValue es = x.natAbs := by
    refine ⟨_, rfl, ?_⟩
    split
    · exact ⟨⟨by simp, fun c hc => (List.mem_cons.1 hc).elim (fun h => h ▸ rfl) (hdigits.all c)⟩, hvalue⟩
    · exact ⟨hdigits, hvalue⟩
  rw [hes]
  split
  · convert Exponent.minus (Or.inl rfl) hesd using 1
    omega
  · convert Exponent.plus (Or.inl rfl) hesd using 1
    omega

/-- One digit in front of the point, and an exponent. -/
theorem real_exponent {c : Char} (hds : Digits (c :: ds)) (hzero : c ≠ '0') (x : Int) :
    Real ((match c :: ds with | [] => ['0'] | [d] => [d] | d :: ds => d :: '.' :: ds) ++ 'e' :: exponentText x)
      (digitsValue (c :: ds)) (x - ds.length) := by
  have hwhole : Whole [c] := by
    refine Or.inr ⟨⟨by simp, fun d hd => ?_⟩, fun h => hzero (Option.some.inj h)⟩
    rw [List.mem_singleton.1 hd]
    exact hds.all c List.mem_cons_self
  cases ds with
  | nil => exact Real.parts hwhole .absent (exponent_text x) (by simp)
  | cons d ds =>
    have hdigits : Digits (d :: ds) := ⟨by simp, fun c hc => hds.all c (List.mem_cons_of_mem _ hc)⟩
    exact Real.parts hwhole (.present hdigits) (exponent_text x) (by simp)

/-- **Significant digits with a point after some of them** are written as a number for the same decimal. -/
theorem layout_real (style : Spelling) (hds : Digits ds) (hzero : ds.head? ≠ some '0') (point : Int) :
    ∃ n x, Real (layout style ds point) n x ∧ decimal n x = decimal (digitsValue ds) (point - ds.length) := by
  unfold layout
  split
  · split
    · refine ⟨_, _, real_behind hds (-point).toNat, ?_⟩
      congr 1
      omega
    · obtain ⟨p, rfl⟩ : ∃ p : Nat, point = p := ⟨point.toNat, by omega⟩
      rw [Int.toNat_natCast]
      rcases Nat.lt_or_ge p ds.length with hlt | hge
      · have hdrop : (ds.drop p).isEmpty = false := by simpa using hlt
        refine ⟨_, _, ?_, rfl⟩
        simp only [hdrop, Nat.sub_eq_zero_of_le hlt.le, List.replicate_zero, List.append_nil]
        exact real_between hds hzero (by omega) hlt
      · refine ⟨digitsValue ds * 10 ^ (p - ds.length + 1), -1, ?_, ?_⟩
        · simp only [List.take_of_length_le hge, List.drop_of_length_le hge]
          exact real_before hds hzero (p - ds.length)
        · rw [decimal_shift]
          congr 1
          push_cast
          omega
  · cases ds with
    | nil => exact absurd rfl hds.nonempty
    | cons c ds =>
      refine ⟨_, _, real_exponent hds (fun h => hzero (congrArg some h)) (point - 1), ?_⟩
      congr 1
      rw [List.length_cons]
      push_cast
      omega

/-! ## Floating-point numbers -/

/-- Digits are those without the zeros at their end, and these zeros. -/
theorem exists_stripZeros (ds : List Char) : ∃ z, ds = stripZeros ds ++ List.replicate z '0' := by
  have hzeros : (ds.reverse.takeWhile (· == '0')).reverse =
      List.replicate (ds.reverse.takeWhile (· == '0')).length '0' := by
    refine List.eq_replicate_iff.2 ⟨List.length_reverse, fun c hc => ?_⟩
    simpa using List.mem_takeWhile_imp (List.mem_reverse.1 hc)
  refine ⟨(ds.reverse.takeWhile (· == '0')).length, ?_⟩
  rw [← hzeros, stripZeros, ← List.reverse_append, List.takeWhile_append_dropWhile, List.reverse_reverse]

/-- The significant digits of a positive number. -/
theorem digits_stripZeros {n : Nat} (hn : 0 < n) : Digits (stripZeros (digitsOf n)) ∧
    (stripZeros (digitsOf n)).head? ≠ some '0' ∧ ∀ x : Int,
      decimal (digitsValue (stripZeros (digitsOf n)))
        ((digitsOf n).length + x - (stripZeros (digitsOf n)).length) = decimal n x := by
  obtain ⟨z, hz⟩ := exists_stripZeros (digitsOf n)
  have hhead := head_digitsOf hn
  have hdigits := digits_digitsOf n
  have hvalue := digitsValue_digitsOf n
  generalize stripZeros (digitsOf n) = ds at *
  rw [hz] at hhead hdigits hvalue ⊢
  have hne : ds ≠ [] := by
    rintro rfl
    cases z with
    | zero => exact hdigits.nonempty rfl
    | succ z => exact hhead rfl
  refine ⟨⟨hne, fun c hc => hdigits.all c (List.mem_append_left _ hc)⟩, ?_, fun x => ?_⟩
  · rwa [List.head?_append_of_ne_nil _ hne] at hhead
  · rw [digitsValue_append, digitsValue_zeros, List.length_replicate, Nat.add_zero] at hvalue
    rw [← hvalue, decimal_shift, List.length_append, List.length_replicate]
    congr 1
    push_cast
    omega

/-- Zero is read back. -/
theorem ofDecimal_zero (s : Bool) (x : Int) (h : 0 < finiteCount) : ofDecimal s 0 x = .finite s ⟨0, h⟩ := by
  have hround := roundRank_units 0 Nat.one_pos
  rw [units_low (Nat.zero_le _)] at hround
  exact ofUnits_of_roundRank s h hround

/-- **What is written of a finite number denotes it.** -/
theorem float_number (s : Bool) (k : Fin finiteCount) :
    ∃ cs, ((Binary64.finite s k).text numbers).toList = (if s then '-' :: cs else cs) ∧
      Number s cs (.float (.finite s k)) := by
  obtain ⟨k, hk⟩ := k
  refine ⟨_, String.toList_ofList, ?_⟩
  rcases Nat.eq_zero_or_pos k with rfl | hpos
  · have h : Real ['0', '.', '0'] 0 (-1) :=
      .parts (Or.inl rfl) (.present digits_zero) .absent (by simp)
    rw [← ofDecimal_zero s (-1) hk]
    exact .real h
  · rw [if_neg hpos.ne']
    have hread : ∀ {n x}, decimal n x = decimal (shortest k).1 (shortest k).2 → _ :=
      fun h => ofDecimal_shortest hpos hk s h
    have hn := (rounds_shortest hpos).pos
    generalize shortest k = p at *
    obtain ⟨n, x⟩ := p
    obtain ⟨hdigits, hhead, hsame⟩ := digits_stripZeros hn
    obtain ⟨m, y, hreal, hvalue⟩ := layout_real numbers hdigits hhead ((digitsOf n).length + x)
    rw [← hread (hvalue.trans (hsame x))]
    exact .real hreal

end Json

end Conductor
