import Conductor.Proofs.Binary64.Order

/-!
# Rounding quotients

A quotient is rounded beyond a rank exactly if it lies behind the middle between that rank and the next
one, or just on it when the rank is odd (`lt_roundRank_iff`). All else about rounding follows from this:
it keeps the order of quotients (`roundRank_mono`), leaves the numbers of the format as they are
(`roundRank_units`), and changes a quotient by a factor of at most `1 + 1 / 2 ^ 53`, or, among the smallest
numbers, by half the smallest positive one (`Close`).
-/

namespace Conductor

namespace Binary64

variable {k j a den a' den' : Nat}

/-! ## Where rounding turns -/

/-- Twice the middle between a rank and the next one. -/
def middle (k : Nat) : Nat := units k + units (k + 1)

theorem middle_lt_of_lt (h : j < k) : middle j < 2 * units k := by
  have h₁ := units_succ j
  have h₂ := units_strictMono.monotone (show j + 1 ≤ k from h)
  unfold middle
  omega

theorem lt_middle_of_le (h : k ≤ j) : 2 * units k < middle j := by
  have h₁ := units_succ j
  have h₂ := units_strictMono.monotone h
  unfold middle
  omega

/-- **A quotient is rounded beyond a rank** if it lies behind the middle, where a tie goes to the even
rank. -/
theorem lt_roundRank_iff (hden : 0 < den) :
    k < roundRank a den ↔
      middle k * den < 2 * a ∨ middle k * den = 2 * a ∧ k % 2 = 1 := by
  obtain ⟨hlo, hhi⟩ := rankBelow_spec (a / den)
  set r := rankBelow (a / den) with hr
  have hlo : units r * den ≤ a := (Nat.le_div_iff_mul_le hden).1 hlo
  have hhi : a < units (r + 1) * den := (Nat.div_lt_iff_lt_mul hden).1 hhi
  have hround : roundRank a den =
      if 2 * a < middle r * den then r else if 2 * a = middle r * den then r + r % 2 else r + 1 :=
    rfl
  rcases Nat.lt_trichotomy k r with hlt | rfl | hgt
  · have hm : middle k * den < 2 * a := by
      have := Nat.mul_lt_mul_of_pos_right (middle_lt_of_lt hlt) hden
      rw [Nat.mul_assoc] at this
      omega
    refine iff_of_true ?_ (Or.inl hm)
    rw [hround]
    split
    · exact hlt
    · split <;> omega
  · rw [hround]
    split
    · omega
    · split <;> omega
  · have hm : 2 * a < middle k * den := by
      have := Nat.mul_le_mul_right den (Nat.le_of_lt (lt_middle_of_le (show r + 1 ≤ k from hgt)))
      rw [Nat.mul_assoc] at this
      omega
    refine iff_of_false ?_ (by omega)
    rw [hround]
    split
    · omega
    · split <;> omega

/-- A greater quotient is not rounded to a smaller number. -/
theorem roundRank_mono (hden : 0 < den) (hden' : 0 < den') (h : a * den' ≤ a' * den) :
    roundRank a den ≤ roundRank a' den' := by
  by_contra hlt
  have hlt := Nat.lt_of_not_le hlt
  set k := roundRank a' den' with hk
  have hturn := (lt_roundRank_iff hden).1 hlt
  have hstay := mt (lt_roundRank_iff (a := a') (k := k) hden').2 (hk ▸ Nat.lt_irrefl k)
  -- Over the common denominator the middle lies before the first quotient, so also before the second.
  have hle : middle k * den' * den ≤ 2 * a' * den := by
    calc middle k * den' * den = middle k * den * den' := by ring
      _ ≤ 2 * a * den' := Nat.mul_le_mul_right den' (by omega)
      _ ≤ 2 * a' * den := by rw [Nat.mul_assoc, Nat.mul_assoc]; omega
  have hle' : middle k * den' ≤ 2 * a' := Nat.le_of_mul_le_mul_right hle hden
  have heq : middle k * den' = 2 * a' := by omega
  have hchain : middle k * den * den' = 2 * a * den' := by
    refine le_antisymm (Nat.mul_le_mul_right den' (by omega)) ?_
    calc 2 * a * den' ≤ 2 * a' * den := by rw [Nat.mul_assoc, Nat.mul_assoc]; omega
      _ = middle k * den * den' := by rw [← heq]; ring
  have heq' : middle k * den = 2 * a := Nat.eq_of_mul_eq_mul_right hden' hchain
  omega

/-- A number of the format is rounded to itself. -/
theorem roundRank_units (k : Nat) (hden : 0 < den) : roundRank (units k * den) den = k := by
  refine le_antisymm ?_ ?_
  · refine Nat.le_of_not_lt fun h => ?_
    have := Nat.mul_lt_mul_of_pos_right (lt_middle_of_le (le_refl k)) hden
    rw [Nat.mul_assoc] at this
    rcases (lt_roundRank_iff hden).1 h with h | h <;> omega
  · cases k with
    | zero => exact Nat.zero_le _
    | succ j =>
      refine (lt_roundRank_iff hden).2 (Or.inl ?_)
      have := Nat.mul_lt_mul_of_pos_right (middle_lt_of_lt (Nat.lt_succ_self j)) hden
      rwa [Nat.mul_assoc] at this

theorem roundRank_le_of_le (hden : 0 < den) (h : a ≤ units k * den) : roundRank a den ≤ k := by
  have := roundRank_mono hden hden (Nat.mul_le_mul_right den h)
  rwa [roundRank_units k hden] at this

theorem le_roundRank_of_le (hden : 0 < den) (h : units k * den ≤ a) : k ≤ roundRank a den := by
  have := roundRank_mono hden hden (Nat.mul_le_mul_right den h)
  rwa [roundRank_units k hden] at this

/-! ## Which numbers there are -/

/-- Whatever has at most 53 binary digits is a number of the format. -/
theorem exists_units {c : Nat} (e : Nat) (hc : c ≤ 2 ^ 53) : ∃ k, units k = c * 2 ^ e := by
  induction e generalizing c with
  | zero =>
    rcases Nat.lt_or_ge c (2 ^ 52) with h | h
    · exact ⟨c, by rw [units_small h, pow_zero, Nat.mul_one]⟩
    · rcases Nat.lt_or_eq_of_le hc with hlt | rfl
      · refine ⟨(0 + 1) * 2 ^ 52 + (c - 2 ^ 52), ?_⟩
        rw [units_block 0 (by omega)]
        omega
      · exact ⟨(1 + 1) * 2 ^ 52 + 0, by rw [units_block 1 (by decide)]; decide⟩
  | succ e ih =>
    rcases Nat.lt_or_ge c (2 ^ 52) with h | h
    · obtain ⟨k, hk⟩ := ih (c := 2 * c) (by omega)
      exact ⟨k, by rw [hk]; ring⟩
    · rcases Nat.lt_or_eq_of_le hc with hlt | rfl
      · refine ⟨(e + 1 + 1) * 2 ^ 52 + (c - 2 ^ 52), ?_⟩
        rw [units_block (e + 1) (by omega), Nat.add_sub_cancel' h]
      · refine ⟨(e + 2 + 1) * 2 ^ 52 + 0, ?_⟩
        rw [units_block (e + 2) (by decide)]
        ring

/-- The double of a number is one, as long as it need not be finite. -/
theorem exists_units_double (k : Nat) : ∃ j, units j = 2 * units k := by
  obtain hk | ⟨e, f, hf, rfl⟩ := rank_cases k
  · rw [units_small hk]
    obtain ⟨j, hj⟩ := exists_units 0 (c := 2 * k) (by omega)
    exact ⟨j, by rw [hj, pow_zero, Nat.mul_one]⟩
  · obtain ⟨j, hj⟩ := exists_units (e + 1) (c := 2 ^ 52 + f) (by omega)
    exact ⟨j, by rw [hj, units_block e hf]; ring⟩

theorem exists_unitsOfOne : ∃ e < 1075, unitsOfOne = 2 ^ e := by
  unfold unitsOfOne
  generalize h : 1074 = e
  exact ⟨e, by omega, Nat.pow_eq⟩

theorem unitsOfOne_pos : 0 < unitsOfOne := by decide +kernel

theorem exists_units_nat {n : Nat} (hn : n ≤ 2 ^ 53) : ∃ k, units k = n * unitsOfOne := by
  obtain ⟨e, -, he⟩ := exists_unitsOfOne
  rw [he]
  exact exists_units e hn

/-! ## How far rounding leads -/

/-- Numbers behind the smallest ones are dense. -/
theorem units_dense (h : 2 ^ 52 ≤ k) : units (k + 1) * 2 ^ 52 ≤ units k * (2 ^ 52 + 1) := by
  obtain hk | ⟨e, f, hf, rfl⟩ := rank_cases k
  · omega
  · rw [units_block e hf]
    have hstep : units ((e + 1) * 2 ^ 52 + f + 1) = (2 ^ 52 + f + 1) * 2 ^ e := by
      by_cases hlt : f + 1 < 2 ^ 52
      · rw [Nat.add_assoc, units_block e hlt]
        rfl
      · have heq : (e + 1) * 2 ^ 52 + f + 1 = (e + 1 + 1) * 2 ^ 52 + 0 := by
          rw [Nat.add_mul (e + 1) 1]
          omega
        rw [heq, units_block (e + 1) (by decide), show 2 ^ 52 + f + 1 = 2 * 2 ^ 52 by omega]
        ring
    rw [hstep, Nat.mul_right_comm, Nat.mul_right_comm _ _ (2 ^ 52 + 1)]
    exact Nat.mul_le_mul_right _ (by omega)

/-- Two numbers that differ by a factor of at most `1 + 1 / 2 ^ 53`. -/
structure Close (x y : ℚ) : Prop where
  le : x ≤ y * (1 + 1 / 2 ^ 53)
  ge : y ≤ x * (1 + 1 / 2 ^ 53)

/-- The quotient lies between the middles around the number that it is rounded to. -/
theorem roundRank_between (hden : 0 < den) :
    2 * a ≤ middle (roundRank a den) * den ∧
      ∀ j, roundRank a den = j + 1 → middle j * den ≤ 2 * a := by
  refine ⟨Nat.le_of_not_lt fun h => ?_, fun j hj => ?_⟩
  · exact Nat.lt_irrefl _ ((lt_roundRank_iff hden).2 (Or.inl h))
  · rcases (lt_roundRank_iff hden).1 (show j < roundRank a den by omega) with h | h <;> omega

/-- The smallest numbers are all whole numbers in a row. -/
theorem units_low (h : k ≤ 2 ^ 53) : units k = k := by
  rcases Nat.lt_or_ge k (2 ^ 52) with hk | hk
  · exact units_small hk
  · rcases Nat.lt_or_eq_of_le h with hlt | rfl
    · have heq : k = (0 + 1) * 2 ^ 52 + (k - 2 ^ 52) := by omega
      rw [heq, units_block 0 (by omega)]
      omega
    · exact (units_block 1 (f := 0) (by decide)).trans (by decide)

/-- **Rounding** changes a quotient by a small factor, or by half the smallest positive number. -/
theorem close_roundRank (hden : 0 < den) :
    Close (units (roundRank a den)) (a / den) ∨
      |(units (roundRank a den) : ℚ) - a / den| ≤ 1 / 2 := by
  obtain ⟨hhi, hlo⟩ := roundRank_between (a := a) hden
  generalize roundRank a den = r at hhi hlo ⊢
  have hd : (0 : ℚ) < den := by exact_mod_cast hden
  -- The quotient itself, of which the middles speak.
  obtain ⟨q, hq⟩ : ∃ q : ℚ, q = a / den := ⟨_, rfl⟩
  have hnum : (a : ℚ) = q * den := by rw [hq, div_mul_cancel₀ _ hd.ne']
  have hup : 2 * q ≤ (middle r : ℚ) := by
    have h : (2 * a : ℚ) ≤ middle r * den := by exact_mod_cast hhi
    rw [hnum, ← mul_assoc] at h
    exact le_of_mul_le_mul_right h hd
  have hdown : ∀ j, r = j + 1 → (middle j : ℚ) ≤ 2 * q := fun j hj => by
    have h : (middle j * den : ℚ) ≤ 2 * a := by exact_mod_cast hlo j hj
    rw [hnum, ← mul_assoc] at h
    exact le_of_mul_le_mul_right h hd
  have hq0 : 0 ≤ q := hq ▸ div_nonneg (Nat.cast_nonneg _) hd.le
  rw [← hq]
  simp only [middle, Nat.cast_add] at hup hdown
  rcases Nat.lt_or_ge (2 ^ 52) r with hbig | hsmall
  · -- The numbers around the quotient are dense.
    cases r with
    | zero => omega
    | succ j =>
      have hdense : (units (j + 1 + 1) * 2 ^ 52 : ℚ) ≤ units (j + 1) * (2 ^ 52 + 1) := by
        exact_mod_cast units_dense (k := j + 1) (by omega)
      have hdense' : (units (j + 1) * 2 ^ 52 : ℚ) ≤ units j * (2 ^ 52 + 1) := by
        exact_mod_cast units_dense (k := j) (by omega)
      have hbelow := hdown j rfl
      have hpos : (0 : ℚ) ≤ units j := Nat.cast_nonneg _
      refine Or.inl ⟨?_, ?_⟩ <;> linarith
  · -- The numbers around the quotient are whole numbers in a row.
    rw [units_low (k := r) (by omega)] at hup ⊢
    rw [units_low (k := r + 1) (by omega)] at hup
    refine Or.inr (abs_le.2 ⟨?_, ?_⟩)
    · push_cast at hup
      linarith
    · cases r with
      | zero =>
        push_cast
        linarith
      | succ j =>
        have hbelow := hdown j rfl
        rw [units_low (k := j) (by omega), units_low (k := j + 1) (by omega)] at hbelow
        push_cast at hbelow ⊢
        linarith

/-- Whole magnitudes are changed by a small factor only, since the smallest numbers are whole. -/
theorem close_roundRank_one (u : Nat) : Close (units (roundRank u 1)) u := by
  rcases Nat.lt_or_ge (2 ^ 53) u with hbig | hsmall
  · rcases close_roundRank (a := u) Nat.one_pos with h | h
    · simpa using h
    · have hu : (2 ^ 53 : ℚ) ≤ u := by exact_mod_cast hbig.le
      have h := abs_le.1 h
      simp only [Nat.cast_one, div_one] at h
      constructor <;> linarith [h.1, h.2]
  · have hround : roundRank u 1 = u := by
      have := roundRank_units u Nat.one_pos
      rwa [units_low hsmall, Nat.mul_one] at this
    rw [hround, units_low hsmall]
    constructor <;> linarith [(Nat.cast_nonneg u : (0 : ℚ) ≤ u)]

end Binary64

end Conductor
