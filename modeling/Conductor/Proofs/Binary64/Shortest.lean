import Conductor.Binary64.Decimal
import Conductor.Proofs.Binary64.Rounding

/-!
# The shortest digits read back

A decimal is rounded to a number if it lies between the middles around it, where a middle belongs to the
even one of its two neighbours (`Rounds`). The grids of decimals on which the shortest digits are looked
for get ten times as dense from one to the next, and the grid of seventeen digits is so dense that one of
its points lies between the middles (`exists_onGrid`).

**Theorem (`ofDecimal_shortest`).** A positive finite number is read back from its shortest digits, and
from any other digits and exponent that denote the same decimal.
-/

namespace Conductor

namespace Binary64

variable {k num den digits : Nat} {exponent : Int} {x : ℚ}

/-! ## The decimals that are rounded to a number -/

/-- A magnitude in units lies between the middles around a rank. The middles belong to it if it is even. -/
def Rounds (k : Nat) (x : ℚ) : Prop :=
  if k % 2 = 0 then (middle (k - 1) : ℚ) ≤ 2 * x ∧ 2 * x ≤ middle k
  else (middle (k - 1) : ℚ) < 2 * x ∧ 2 * x < middle k

theorem rounds_div_iff (hden : 0 < den) : Rounds k (num / den) ↔
    if k % 2 = 0 then middle (k - 1) * den ≤ 2 * num ∧ 2 * num ≤ middle k * den
    else middle (k - 1) * den < 2 * num ∧ 2 * num < middle k * den := by
  have hden' : (0 : ℚ) < den := Nat.cast_pos.2 hden
  have hle : ∀ m : Nat, (m : ℚ) ≤ 2 * (num / den) ↔ m * den ≤ 2 * num := fun m => by
    rw [← mul_div_assoc, le_div_iff₀ hden']
    exact_mod_cast Iff.rfl
  have hge : ∀ m : Nat, 2 * ((num : ℚ) / den) ≤ m ↔ 2 * num ≤ m * den := fun m => by
    rw [← mul_div_assoc, div_le_iff₀ hden']
    exact_mod_cast Iff.rfl
  rw [Rounds, hle, hge, ← not_le (a := 2 * ((num : ℚ) / den)), ← not_le (a := (middle k : ℚ)), hle, hge,
    not_le, not_le]

/-- **What lies between the middles is rounded to the number.** -/
theorem Rounds.roundRank (hk : 0 < k) (hden : 0 < den) (h : Rounds k (num / den)) :
    roundRank num den = k := by
  have h := (rounds_div_iff hden).1 h
  refine le_antisymm (Nat.le_of_not_lt fun hlt => ?_) ?_
  · have hturn := (lt_roundRank_iff hden).1 hlt
    split at h <;> omega
  · obtain ⟨j, rfl⟩ : ∃ j, k = j + 1 := ⟨k - 1, by omega⟩
    rw [Nat.add_sub_cancel] at h
    refine (lt_roundRank_iff hden).2 ?_
    split at h <;> omega

/-- A decimal in units. -/
def decimal (digits : Nat) (exponent : Int) : ℚ := digits * 10 ^ exponent * unitsOfOne

theorem decimal_shift (digits z : Nat) (exponent : Int) :
    decimal (digits * 10 ^ z) exponent = decimal digits (z + exponent) := by
  rw [decimal, decimal, zpow_add₀ (by norm_num), zpow_natCast]
  push_cast
  ring

/-- A decimal as a quotient of natural numbers. -/
theorem decimal_eq_div (digits : Nat) (exponent : Int) : decimal digits exponent =
    ((digits * 10 ^ exponent.toNat * unitsOfOne : Nat) : ℚ) / ((10 ^ (-exponent).toNat : Nat) : ℚ) := by
  unfold decimal
  generalize unitsOfOne = u
  rcases Int.eq_nat_or_neg exponent with ⟨n, rfl | rfl⟩
  · rw [Int.toNat_natCast, Int.toNat_neg_natCast, zpow_natCast, pow_zero]
    push_cast
    ring
  · rw [neg_neg, Int.toNat_natCast, Int.toNat_neg_natCast, zpow_neg, zpow_natCast, pow_zero]
    push_cast
    ring

theorem pow_ten_pos (n : Nat) : 0 < 10 ^ n := Nat.pow_pos (by decide)

/-- The test of the shortest digits is whether they lie between the middles. -/
theorem holds_iff (hk : 0 < k) :
    (interval k).holds digits exponent = true ↔ Rounds k (decimal digits exponent) := by
  have hlow : (interval k).low = middle (k - 1) := by
    rw [middle, Nat.sub_add_cancel hk]
    rfl
  have hpoint : 2 * digits * unitsOfOne * 10 ^ exponent.toNat =
      2 * (digits * 10 ^ exponent.toNat * unitsOfOne) := by ring
  rw [decimal_eq_div, rounds_div_iff (pow_ten_pos _), Interval.holds]
  simp only [Nat.pow_eq, hlow, hpoint]
  by_cases heven : k % 2 = 0
  · have hclosed : (interval k).closed = true := by simpa [interval] using heven
    rw [if_pos hclosed, if_pos heven, Bool.and_eq_true, decide_eq_true_eq, decide_eq_true_eq]
    rfl
  · have hclosed : (interval k).closed ≠ true := by simpa [interval] using heven
    rw [if_neg hclosed, if_neg heven, Bool.and_eq_true, decide_eq_true_eq, decide_eq_true_eq]
    rfl

/-! ## Reading -/

theorem lt_pow_digitCount (n : Nat) : n < 10 ^ digitCount n :=
  (Nat.length_toDigits_le_iff (by decide) Nat.length_toDigits_pos).1 le_rfl

theorem pow_digitCount_le (hn : 0 < num) : 10 ^ (digitCount num - 1) ≤ num := by
  by_cases hone : digitCount num - 1 = 0
  · rw [hone]
    exact hn
  · refine Nat.le_of_not_lt fun hlt => ?_
    have := (Nat.length_toDigits_le_iff (by decide) (Nat.pos_of_ne_zero hone)).2 hlt
    have hpos : 0 < digitCount num := Nat.length_toDigits_pos
    unfold digitCount digitsOf at *
    omega

/-- How large a decimal is, by the position of its point. -/
theorem decimal_bounds (hdigits : 0 < digits) (exponent : Int) :
    (10 : ℚ) ^ (exponent + digitCount digits - 1) * unitsOfOne ≤ decimal digits exponent ∧
      decimal digits exponent < (10 : ℚ) ^ (exponent + digitCount digits) * unitsOfOne := by
  have hpos : 0 < digitCount digits := Nat.length_toDigits_pos
  have hone : (0 : ℚ) < unitsOfOne := Nat.cast_pos.2 unitsOfOne_pos
  have hten : (0 : ℚ) < 10 ^ exponent := by positivity
  have hlo : ((10 : ℚ) ^ (digitCount digits - 1)) ≤ digits := by exact_mod_cast pow_digitCount_le hdigits
  have hhi : (digits : ℚ) < 10 ^ digitCount digits := by exact_mod_cast lt_pow_digitCount digits
  have hsplit : exponent + digitCount digits - 1 = ((digitCount digits - 1 : Nat) : Int) + exponent := by
    omega
  rw [hsplit, zpow_add₀ (by norm_num), zpow_natCast, Int.add_comm, zpow_add₀ (by norm_num), zpow_natCast]
  exact ⟨mul_le_mul_of_nonneg_right (mul_le_mul_of_nonneg_right hlo hten.le) hone.le,
    mul_lt_mul_of_pos_right (mul_lt_mul_of_pos_right hhi hten) hone⟩

theorem ofUnits_of_roundRank (s : Bool) (hfin : k < finiteCount) (h : roundRank num den = k) :
    ofUnits s num den = .finite s ⟨k, hfin⟩ := by
  subst h
  exact dif_pos hfin

/-- One, and what lies just behind the numbers of the format, are powers of two. -/
theorem exists_exponents :
    ∃ a b, unitsOfOne = 2 ^ a ∧ units finiteCount = 2 ^ b ∧ a = 1074 ∧ b = 2098 := by
  obtain ⟨a, ha⟩ : ∃ a, 1074 = a := ⟨_, rfl⟩
  obtain ⟨e, he⟩ : ∃ e, 2046 = e := ⟨_, rfl⟩
  refine ⟨a, 52 + e, ?_, ?_, ha.symm, he ▸ rfl⟩
  · unfold unitsOfOne
    rw [ha]
    exact Nat.pow_eq
  · have heq : finiteCount = (e + 1) * 2 ^ 52 + 0 := by
      rw [finiteCount, Nat.pow_eq, ← he, Nat.add_zero]
    rw [heq, units_block e (by decide), Nat.add_zero, Nat.pow_add]

theorem two_pow_le_ten_pow (n : Nat) : 2 ^ (3 * n) ≤ 10 ^ n := by
  rw [Nat.pow_mul]
  exact Nat.pow_le_pow_left (by decide) n

/-- What is rounded to a finite number is neither too large nor too small to be read. -/
theorem Rounds.reach (hfin : k < finiteCount) (hdigits : 0 < digits)
    (h : Rounds k (decimal digits exponent)) :
    ¬exponent + digitCount digits > 400 ∧ ¬exponent + digitCount digits < -400 := by
  obtain ⟨hlo, hhi⟩ := decimal_bounds hdigits exponent
  have hweak : (middle (k - 1) : ℚ) ≤ 2 * decimal digits exponent ∧
      2 * decimal digits exponent ≤ middle k := by
    unfold Rounds at h
    split at h
    · exact h
    · exact ⟨h.1.le, h.2.le⟩
  have hleast : 1 ≤ middle (k - 1) := by
    have := units_succ (k - 1)
    unfold middle
    omega
  have hmost : middle k ≤ 2 * units finiteCount := by
    have h₁ := units_strictMono.monotone hfin.le
    have h₂ := units_strictMono.monotone (show k + 1 ≤ finiteCount from hfin)
    unfold middle
    omega
  obtain ⟨a, b, hone, hbeyond, ha, hb⟩ := exists_exponents
  -- The powers are compared by their exponents.
  obtain ⟨d, hd⟩ : ∃ d, 400 = d := ⟨_, rfl⟩
  have hten := two_pow_le_ten_pow d
  generalize unitsOfOne = u at *
  generalize units finiteCount = v at *
  constructor
  · intro hreach
    have hbig : (10 : ℚ) ^ (d : Int) ≤ 10 ^ (exponent + digitCount digits - 1) :=
      zpow_le_zpow_right₀ (by norm_num) (by omega)
    have hle : (10 : ℚ) ^ d * u ≤ v := by
      have h₁ : (10 : ℚ) ^ d * u ≤ decimal digits exponent := by
        refine le_trans (mul_le_mul_of_nonneg_right ?_ (Nat.cast_nonneg u)) hlo
        exact_mod_cast hbig
      have h₂ : (middle k : ℚ) ≤ 2 * v := by exact_mod_cast hmost
      linarith only [h₁, h₂, hweak.2]
    have hnat : 10 ^ d * u ≤ v := by exact_mod_cast hle
    rw [hone, hbeyond] at hnat
    have hpow : 2 ^ (3 * d + a) ≤ 2 ^ b :=
      (Nat.pow_add 2 (3 * d) a).trans_le ((Nat.mul_le_mul_right _ hten).trans hnat)
    have := (Nat.pow_le_pow_iff_right (by decide)).1 hpow
    omega
  · intro hreach
    have hsmall : (10 : ℚ) ^ (exponent + digitCount digits) ≤ 10 ^ (-d : Int) :=
      zpow_le_zpow_right₀ (by norm_num) (by omega)
    have hle : (1 : ℚ) ≤ 2 * ((10 ^ d)⁻¹ * u) := by
      have h₁ : decimal digits exponent ≤ (10 ^ d)⁻¹ * u := by
        refine hhi.le.trans (mul_le_mul_of_nonneg_right ?_ (Nat.cast_nonneg u))
        rw [zpow_neg, zpow_natCast] at hsmall
        exact hsmall
      have h₂ : (1 : ℚ) ≤ middle (k - 1) := by exact_mod_cast hleast
      linarith only [h₁, h₂, hweak.1]
    have hmul : (10 : ℚ) ^ d ≤ 2 * u := by
      have hpos : (0 : ℚ) < 10 ^ d := by positivity
      rw [← mul_le_mul_iff_of_pos_left hpos, mul_one, mul_left_comm, mul_inv_cancel_left₀ hpos.ne'] at hle
      exact hle
    have hnat : 10 ^ d ≤ 2 * u := by exact_mod_cast hmul
    rw [hone, ← Nat.pow_succ'] at hnat
    have := (Nat.pow_le_pow_iff_right (by decide)).1 (hten.trans hnat)
    omega

theorem Rounds.pos (h : Rounds k (decimal digits exponent)) : 0 < digits := by
  refine Nat.pos_of_ne_zero ?_
  rintro rfl
  have hlt := units_succ (k - 1)
  have hpos : (0 : ℚ) < middle (k - 1) := by
    rw [middle]
    exact_mod_cast (by omega : 0 < units (k - 1) + units (k - 1 + 1))
  have hzero : decimal 0 exponent = 0 := by rw [decimal, Nat.cast_zero, zero_mul, zero_mul]
  rw [hzero, Rounds] at h
  split at h <;> linarith only [h.1, hpos]

/-- **A decimal between the middles around a number is read as that number.** -/
theorem Rounds.ofDecimal (hk : 0 < k) (hfin : k < finiteCount) (h : Rounds k (decimal digits exponent))
    (s : Bool) : ofDecimal s digits exponent = .finite s ⟨k, hfin⟩ := by
  have hdigits := h.pos
  obtain ⟨hbig, hsmall⟩ := h.reach hfin hdigits
  have hround := (decimal_eq_div digits exponent ▸ h).roundRank hk (pow_ten_pos _)
  unfold Binary64.ofDecimal
  simp only [Nat.pow_eq]
  rw [if_neg hdigits.ne', if_neg hbig, if_neg hsmall]
  split
  · next hexp =>
    rw [show (-exponent).toNat = 0 by omega, pow_zero] at hround
    exact ofUnits_of_roundRank s hfin hround
  · next hexp =>
    rw [show exponent.toNat = 0 by omega, pow_zero, Nat.mul_one] at hround
    exact ofUnits_of_roundRank s hfin hround

/-! ## Grids -/

/-- The middles around a number lie far enough from each other. -/
theorem two_mul_units_lt (hk : 0 < k) : 2 * units k < 2 ^ 53 * (units (k + 1) - units (k - 1)) := by
  by_cases hlow : k < 2 ^ 53
  · rw [units_low (by omega), units_low (by omega), units_low (by omega)]
    omega
  rcases rank_cases k with hsmall | ⟨e, f, hf, rfl⟩
  · omega
  obtain ⟨e, rfl⟩ : ∃ i, e = i + 1 := ⟨e - 1, by omega⟩
  have hpos : 0 < 2 ^ e := Nat.two_pow_pos e
  have hup : (2 ^ 52 + f + 1) * 2 ^ (e + 1) ≤ units ((e + 1 + 1) * 2 ^ 52 + f + 1) := by
    have := units_succ ((e + 1 + 1) * 2 ^ 52 + f)
    by_cases hlt : f + 1 < 2 ^ 52
    · rw [Nat.add_assoc ((e + 1 + 1) * 2 ^ 52) f 1, units_block (e + 1) hlt, Nat.add_assoc]
    · rw [show (e + 1 + 1) * 2 ^ 52 + f + 1 = (e + 2 + 1) * 2 ^ 52 + 0 by omega,
        units_block (e + 2) (by decide), show f = 2 ^ 52 - 1 by omega]
      exact le_of_eq (by ring)
  rw [units_block (e + 1) hf]
  -- The gap below the first number with an exponent is half as wide as the gap above it.
  rcases Nat.eq_zero_or_pos f with rfl | hf0
  · have hdown : units ((e + 1 + 1) * 2 ^ 52 + 0 - 1) = (2 ^ 53 - 1) * 2 ^ e := by
      rw [show (e + 1 + 1) * 2 ^ 52 + 0 - 1 = (e + 1) * 2 ^ 52 + (2 ^ 52 - 1) by omega,
        units_block e (by omega), show 2 ^ 52 + (2 ^ 52 - 1) = 2 ^ 53 - 1 by omega]
    rw [hdown]
    rw [pow_succ] at hup ⊢
    omega
  · have hdown : units ((e + 1 + 1) * 2 ^ 52 + f - 1) = (2 ^ 52 + f - 1) * 2 ^ (e + 1) := by
      rw [show (e + 1 + 1) * 2 ^ 52 + f - 1 = (e + 1 + 1) * 2 ^ 52 + (f - 1) by omega,
        units_block (e + 1) (by omega), show 2 ^ 52 + (f - 1) = 2 ^ 52 + f - 1 by omega]
    rw [hdown]
    have hgap : 2 * 2 ^ (e + 1) ≤ units ((e + 1 + 1) * 2 ^ 52 + f + 1) - (2 ^ 52 + f - 1) * 2 ^ (e + 1) := by
      refine Nat.le_sub_of_add_le (le_trans (le_of_eq ?_) hup)
      rw [← Nat.add_mul, show 2 + (2 ^ 52 + f - 1) = 2 ^ 52 + f + 1 by omega]
    have hmul := Nat.mul_le_mul_left (2 ^ 53) hgap
    have hlt : 2 * ((2 ^ 52 + f) * 2 ^ (e + 1)) < 2 ^ 53 * (2 * 2 ^ (e + 1)) := by
      have : (2 ^ 52 + f) * 2 ^ (e + 1) < 2 ^ 53 * 2 ^ (e + 1) :=
        Nat.mul_lt_mul_of_pos_right (by omega) (Nat.two_pow_pos _)
      linarith only [this]
    exact hlt.trans_le hmul

/-- One of the two points of a dense grid around a number lies between the middles. -/
theorem rounds_of_dense (hk : 0 < k) {n : Nat}
    (hgrid : 2 * ((10 : ℚ) ^ exponent * unitsOfOne) < units (k + 1) - units (k - 1))
    (hn : decimal n exponent ≤ units k) (hn' : (units k : ℚ) < decimal (n + 1) exponent) :
    Rounds k (decimal n exponent) ∨ Rounds k (decimal (n + 1) exponent) := by
  have hstep : decimal (n + 1) exponent = decimal n exponent + (10 : ℚ) ^ exponent * unitsOfOne := by
    rw [decimal, decimal]
    push_cast
    ring
  have hlow : (middle (k - 1) : ℚ) = units (k - 1) + units k := by
    rw [middle, Nat.sub_add_cancel hk]
    push_cast
    rfl
  have hhigh : (middle k : ℚ) = units k + units (k + 1) := by
    rw [middle]
    push_cast
    rfl
  have hbelow : (units (k - 1) : ℚ) < units k := by
    exact_mod_cast units_strictMono (show k - 1 < k by omega)
  have habove : (units k : ℚ) < units (k + 1) := by exact_mod_cast units_succ k
  by_contra hnone
  rw [not_or] at hnone
  obtain ⟨h₁, h₂⟩ := hnone
  unfold Rounds at h₁ h₂
  rw [hlow, hhigh] at h₁ h₂
  by_cases heven : k % 2 = 0
  · rw [if_pos heven] at h₁ h₂
    have hleft : ¬(units (k - 1) + units k : ℚ) ≤ 2 * decimal n exponent := fun h =>
      h₁ ⟨h, by linarith only [hn, habove]⟩
    have hright : ¬2 * decimal (n + 1) exponent ≤ (units k + units (k + 1) : ℚ) := fun h =>
      h₂ ⟨by linarith only [hn', hbelow], h⟩
    linarith only [hleft, hright, hgrid, hstep]
  · rw [if_neg heven] at h₁ h₂
    have hleft : ¬(units (k - 1) + units k : ℚ) < 2 * decimal n exponent := fun h =>
      h₁ ⟨h, by linarith only [hn, habove]⟩
    have hright : ¬2 * decimal (n + 1) exponent < (units k + units (k + 1) : ℚ) := fun h =>
      h₂ ⟨by linarith only [hn', hbelow], h⟩
    linarith only [hleft, hright, hgrid, hstep]

/-- The position of the point says how large a magnitude is at least. -/
theorem pow_pointPosition_le {u : Nat} (hu : 0 < u) :
    (10 : ℚ) ^ (pointPosition u - 1) * unitsOfOne ≤ u := by
  have hone := unitsOfOne_pos
  unfold pointPosition
  split
  · next hge =>
    have hquot : 0 < u / unitsOfOne := Nat.div_pos hge hone
    have hcount : 0 < digitCount (u / unitsOfOne) := Nat.length_toDigits_pos
    have hle := (Nat.le_div_iff_mul_le hone).1 (pow_digitCount_le hquot)
    rw [show (digitCount (u / unitsOfOne) : Int) - 1 = ((digitCount (u / unitsOfOne) - 1 : Nat) : Int) by
      omega, zpow_natCast]
    exact_mod_cast hle
  · have hlt := (Nat.div_lt_iff_lt_mul hu).1 (lt_pow_digitCount ((unitsOfOne - 1) / u))
    set d := digitCount ((unitsOfOne - 1) / u)
    have hle : unitsOfOne ≤ 10 ^ d * u := by omega
    rw [show (1 : Int) - d - 1 = -(d : Int) by omega, zpow_neg, zpow_natCast,
      inv_mul_le_iff₀ (by positivity)]
    exact_mod_cast hle

/-- The grid of seventeen digits is dense enough for every number. -/
theorem dense_seventeen (hk : 0 < k) : 2 * ((10 : ℚ) ^ (pointPosition (units k) - 17) * unitsOfOne) <
    units (k + 1) - units (k - 1) := by
  have hu : 0 < units k := (Nat.zero_le _).trans_lt (units_strictMono (show k - 1 < k by omega))
  have hle := pow_pointPosition_le hu
  have hgap : (2 * units k : ℚ) < 2 ^ 53 * (units (k + 1) - units (k - 1)) := by
    have hmono := units_strictMono.monotone (show k - 1 ≤ k + 1 by omega)
    rw [← Nat.cast_sub hmono]
    exact_mod_cast two_mul_units_lt hk
  have hscale : (10 : ℚ) ^ (pointPosition (units k) - 17) =
      10 ^ (pointPosition (units k) - 1) / 10 ^ 16 := by
    rw [show pointPosition (units k) - 17 = pointPosition (units k) - 1 - ((16 : Nat) : Int) by omega,
      zpow_sub₀ (by norm_num), zpow_natCast]
  have hpos : (0 : ℚ) < units (k + 1) - units (k - 1) := by
    have : (0 : ℚ) < units k := by exact_mod_cast hu
    linarith only [hgap, this]
  rw [hscale, div_mul_eq_mul_div, ← mul_div_assoc, div_lt_iff₀ (by positivity)]
  have hten : (2 : ℚ) ^ 53 * (units (k + 1) - units (k - 1)) ≤
      (units (k + 1) - units (k - 1)) * 10 ^ 16 := by
    rw [mul_comm]
    exact mul_le_mul_of_nonneg_left (by norm_num) hpos.le
  linarith only [hle, hgap, hten]

/-! ## The shortest digits -/

theorem roundHalfEven_cases (num den : Nat) :
    roundHalfEven num den = num / den ∨ roundHalfEven num den = num / den + 1 := by
  unfold roundHalfEven
  dsimp only
  split_ifs <;> omega

theorem onGrid?_rounds (hk : 0 < k) {count : Nat} (h : onGrid? k count = some (digits, exponent)) :
    Rounds k (decimal digits exponent) := by
  refine (holds_iff hk).1 ?_
  unfold onGrid? at h
  dsimp only at h
  split at h
  · next hboth =>
    rw [Bool.and_eq_true] at hboth
    obtain ⟨rfl, rfl⟩ := Prod.mk.inj (Option.some.inj h)
    rcases roundHalfEven_cases _ _ with heq | heq
    · rw [heq]
      exact hboth.1
    · rw [heq]
      exact hboth.2
  · split at h
    · next hbelow =>
      obtain ⟨rfl, rfl⟩ := Prod.mk.inj (Option.some.inj h)
      exact hbelow
    · split at h
      · next habove =>
        obtain ⟨rfl, rfl⟩ := Prod.mk.inj (Option.some.inj h)
        exact habove
      · cases h

/-- The two points of a grid between which a number lies, in units. -/
theorem gridPoints (u : Nat) (exponent : Int) :
    decimal (u * 10 ^ (-exponent).toNat / (unitsOfOne * 10 ^ exponent.toNat)) exponent ≤ u ∧
      (u : ℚ) < decimal (u * 10 ^ (-exponent).toNat / (unitsOfOne * 10 ^ exponent.toNat) + 1) exponent := by
  have hone := unitsOfOne_pos
  rw [decimal_eq_div, decimal_eq_div]
  generalize unitsOfOne = one at *
  have hden : 0 < one * 10 ^ exponent.toNat := Nat.mul_pos hone (pow_ten_pos _)
  have hpow : (0 : ℚ) < ((10 ^ (-exponent).toNat : Nat) : ℚ) := Nat.cast_pos.2 (pow_ten_pos _)
  have hpoint : ∀ n, n * 10 ^ exponent.toNat * one = n * (one * 10 ^ exponent.toNat) := fun n => by ring
  rw [hpoint, hpoint, div_le_iff₀ hpow, lt_div_iff₀ hpow]
  exact ⟨by exact_mod_cast Nat.div_mul_le_self _ _, by exact_mod_cast (Nat.div_lt_iff_lt_mul hden).1 (Nat.lt_succ_self _)⟩

/-- **Seventeen digits always suffice.** -/
theorem exists_onGrid (hk : 0 < k) : (onGrid? k 17).isSome = true := by
  obtain ⟨hn, hn'⟩ := gridPoints (units k) (pointPosition (units k) - 17)
  have hor := rounds_of_dense hk (dense_seventeen hk) hn hn'
  rw [← holds_iff hk, ← holds_iff hk] at hor
  unfold onGrid?
  dsimp only [Nat.pow_eq, Nat.cast_ofNat]
  generalize units k * _ / _ = n at hor ⊢
  cases hbelow : (interval k).holds n (pointPosition (units k) - 17) with
  | true =>
    cases (interval k).holds (n + 1) (pointPosition (units k) - 17) <;> rfl
  | false =>
    rw [hor.resolve_left (by rw [hbelow]; decide)]
    rfl

/-- The shortest digits of a number lie between the middles around it. -/
theorem rounds_shortest (hk : 0 < k) : Rounds k (decimal (shortest k).1 (shortest k).2) := by
  have hsome : ((List.range 17).findSome? fun n => onGrid? k (n + 1)).isSome = true :=
    List.findSome?_isSome_iff.2 ⟨16, by simp, exists_onGrid hk⟩
  obtain ⟨⟨digits, exponent⟩, hfound⟩ := Option.isSome_iff_exists.1 hsome
  obtain ⟨n, -, hn⟩ := List.exists_of_findSome?_eq_some hfound
  rw [shortest, hfound]
  exact onGrid?_rounds hk hn

/-- **A number is read back from its shortest digits**, and from all that denotes the same decimal. -/
theorem ofDecimal_shortest (hk : 0 < k) (hfin : k < finiteCount) (s : Bool)
    (h : decimal digits exponent = decimal (shortest k).1 (shortest k).2) :
    ofDecimal s digits exponent = .finite s ⟨k, hfin⟩ :=
  Rounds.ofDecimal hk hfin (h ▸ rounds_shortest hk) s

end Binary64

end Conductor
