import Mathlib
import Conductor.Binary64.Arithmetic

/-!
# Adding never leads backwards

Ranks are numbered in the order of the magnitudes (`units_strictMono`), and rounding keeps that order:
what is at least as large as a number is rounded to that number or to a larger one (`le_roundRank`,
`roundRank_le`).

**Theorem (`precedes_add`).** A sum with a positive number is not less than the other term, also where
it is rounded or infinite; only what is not a number comes behind everything else.
-/

namespace Conductor

namespace Binary64

/-! ## Ranks in the order of magnitudes -/

/-- The magnitude by exponent and fraction. -/
theorem units_block (e : Nat) {f : Nat} (hf : f < 2 ^ 52) :
    units ((e + 1) * 2 ^ 52 + f) = (2 ^ 52 + f) * 2 ^ e := by
  have hmod : ((e + 1) * 2 ^ 52 + f) % 2 ^ 52 = f := by
    rw [Nat.add_comm, Nat.add_mul_mod_self_right, Nat.mod_eq_of_lt hf]
  have hdiv : ((e + 1) * 2 ^ 52 + f) / 2 ^ 52 = e + 1 := by
    rw [Nat.add_comm, Nat.add_mul_div_right _ _ (by decide), Nat.div_eq_of_lt hf, Nat.zero_add]
  have hge : ¬(e + 1) * 2 ^ 52 + f < 2 ^ 52 := by
    have := Nat.le_mul_of_pos_left (2 ^ 52) (Nat.succ_pos e)
    omega
  unfold units
  simp only [Nat.pow_eq]
  rw [if_neg hge, hmod, hdiv, Nat.add_sub_cancel]

theorem units_small {k : Nat} (hk : k < 2 ^ 52) : units k = k := if_pos hk

/-- Every rank is small, or it has an exponent and a fraction. -/
theorem rank_cases (k : Nat) : k < 2 ^ 52 ∨ ∃ e f, f < 2 ^ 52 ∧ k = (e + 1) * 2 ^ 52 + f := by
  by_cases hk : k < 2 ^ 52
  · exact Or.inl hk
  · refine Or.inr ⟨k / 2 ^ 52 - 1, k % 2 ^ 52, Nat.mod_lt _ (by decide), ?_⟩
    have hpos : 1 ≤ k / 2 ^ 52 := (Nat.le_div_iff_mul_le (by decide)).2 (by omega)
    have hdm := Nat.div_add_mod' k (2 ^ 52)
    rw [Nat.sub_add_cancel hpos]
    exact hdm.symm

theorem units_succ (k : Nat) : units k < units (k + 1) := by
  rcases rank_cases k with hk | ⟨e, f, hf, rfl⟩
  · rw [units_small hk]
    by_cases hlt : k + 1 < 2 ^ 52
    · rw [units_small hlt]
      exact Nat.lt_succ_self k
    · have heq : k + 1 = (0 + 1) * 2 ^ 52 + 0 := by omega
      rw [heq, units_block 0 (by decide)]
      omega
  · have hpos : 0 < 2 ^ e := Nat.two_pow_pos e
    rw [units_block e hf]
    by_cases hlt : f + 1 < 2 ^ 52
    · rw [Nat.add_assoc, units_block e hlt]
      exact Nat.mul_lt_mul_of_pos_right (by omega) hpos
    · have heq : (e + 1) * 2 ^ 52 + f + 1 = (e + 1 + 1) * 2 ^ 52 + 0 := by
        rw [Nat.add_mul (e + 1) 1]
        omega
      have hdouble : (2 ^ 52 + 0) * 2 ^ (e + 1) = 2 * 2 ^ 52 * 2 ^ e := by ring
      rw [heq, units_block (e + 1) (by decide), hdouble]
      exact Nat.mul_lt_mul_of_pos_right (by omega) hpos

theorem units_strictMono : StrictMono units := strictMono_nat_of_lt_succ units_succ

/-! ## Rounding keeps the order -/

/-- The rank below a magnitude is the last one that does not exceed it. -/
theorem rankBelow_spec (u : Nat) : units (rankBelow u) ≤ u ∧ u < units (rankBelow u + 1) := by
  unfold rankBelow
  simp only [Nat.pow_eq]
  by_cases hu : u < 2 ^ 52
  · rw [if_pos hu]
    have hlt := units_succ u
    rw [units_small hu] at hlt ⊢
    exact ⟨le_rfl, hlt⟩
  · rw [if_neg hu]
    have hne : u ≠ 0 := by
      rintro rfl
      exact hu (by decide)
    have hlog : 52 ≤ u.log2 := (Nat.le_log2 hne).2 (by omega)
    set e := u.log2 - 52 with he
    have hlo : 2 ^ 52 * 2 ^ e ≤ u := by
      rw [← Nat.pow_add, show 52 + e = u.log2 by omega]
      exact Nat.log2_self_le hne
    have hhi : u < 2 * 2 ^ 52 * 2 ^ e := by
      rw [show 2 * 2 ^ 52 * 2 ^ e = 2 ^ (u.log2 + 1) by
        rw [← Nat.pow_succ', ← Nat.pow_add]; congr 1; omega]
      exact Nat.lt_log2_self
    have hpos : 0 < 2 ^ e := Nat.two_pow_pos e
    have hq₁ : 2 ^ 52 ≤ u / 2 ^ e := (Nat.le_div_iff_mul_le hpos).2 hlo
    have hq₂ : u / 2 ^ e < 2 * 2 ^ 52 := (Nat.div_lt_iff_lt_mul hpos).2 hhi
    have hf : u / 2 ^ e - 2 ^ 52 < 2 ^ 52 := by omega
    have hunits : units ((e + 1) * 2 ^ 52 + (u / 2 ^ e - 2 ^ 52)) = u / 2 ^ e * 2 ^ e := by
      rw [units_block e hf, Nat.add_sub_cancel' hq₁]
    refine ⟨by rw [hunits]; exact Nat.div_mul_le_self u _, ?_⟩
    have hnext : (u / 2 ^ e + 1) * 2 ^ e ≤ units ((e + 1) * 2 ^ 52 + (u / 2 ^ e - 2 ^ 52) + 1) := by
      by_cases hlt : u / 2 ^ e - 2 ^ 52 + 1 < 2 ^ 52
      · rw [Nat.add_assoc, units_block e hlt]
        exact Nat.mul_le_mul_right _ (by omega)
      · have heq : (e + 1) * 2 ^ 52 + (u / 2 ^ e - 2 ^ 52) + 1 = (e + 1 + 1) * 2 ^ 52 + 0 := by
          rw [Nat.add_mul (e + 1) 1]
          omega
        have hdouble : (2 ^ 52 + 0) * 2 ^ (e + 1) = 2 * 2 ^ 52 * 2 ^ e := by ring
        rw [heq, units_block (e + 1) (by decide), hdouble]
        exact Nat.mul_le_mul_right _ (by omega)
    refine Nat.lt_of_lt_of_le ?_ hnext
    rw [Nat.add_mul, Nat.one_mul]
    have := Nat.div_add_mod' u (2 ^ e)
    have := Nat.mod_lt u hpos
    omega

theorem le_rankBelow {k u : Nat} (h : units k ≤ u) : k ≤ rankBelow u := by
  by_contra hlt
  have h₁ := (rankBelow_spec u).2
  have h₂ := units_strictMono.monotone (show rankBelow u + 1 ≤ k by omega)
  omega

theorem rankBelow_lt {k u : Nat} (h : u < units k) : rankBelow u < k :=
  units_strictMono.lt_iff_lt.1 (Nat.lt_of_le_of_lt (rankBelow_spec u).1 h)

theorem le_roundRank {k u : Nat} (h : units k ≤ u) : k ≤ roundRank u 1 := by
  have hk := le_rankBelow h
  unfold roundRank
  dsimp only
  rw [Nat.div_one]
  split
  · exact hk
  · split <;> omega

theorem roundRank_le {k u : Nat} (h : u ≤ units k) : roundRank u 1 ≤ k := by
  obtain ⟨hlo, hhi⟩ := rankBelow_spec u
  unfold roundRank
  dsimp only
  rw [Nat.div_one]
  rcases Nat.lt_or_eq_of_le h with hlt | rfl
  · have := rankBelow_lt hlt
    split
    · omega
    · split <;> omega
  · -- A number of the format is rounded to itself.
    have hle := units_strictMono.le_iff_le.1 hlo
    have hge := le_rankBelow (k := k) le_rfl
    have heq : rankBelow (units k) = k := by omega
    rw [heq] at hhi ⊢
    rw [if_pos (by omega)]

/-! ## Sums -/

theorem place_finite (s : Bool) (k : Fin finiteCount) :
    (finite s k).place = some (signed s (units k)) := rfl

theorem place_infinite (s : Bool) : (infinite s).place = some (signed s (units finiteCount)) := rfl

/-- Beyond the finite numbers stand the infinities. -/
theorem place_ofUnits (s : Bool) (u : Nat) :
    (ofUnits s u 1).place = some (signed s (units (Min.min (roundRank u 1) finiteCount))) := by
  unfold ofUnits
  dsimp only
  split
  · next h => rw [Nat.min_eq_left h.le, place_finite]
  · next h => rw [Nat.min_eq_right (Nat.le_of_not_lt h), place_infinite]

theorem lt_eq_false_of_le {a b : Binary64} {x y : Int} (ha : a.place = some x)
    (hb : b.place = some y) (h : y ≤ x) : a.lt b = false := by
  unfold lt
  rw [ha, hb]
  exact decide_eq_false (Int.not_lt.2 h)

theorem lt_nan (a : Binary64) : a.lt .nan = false := by
  unfold lt
  split
  · next h => cases h
  · rfl

/-- A number is positive if it has a positive place. -/
theorem pos_of_zero_lt {x : Binary64} {i : Int} (h : zero.lt x = true) (hi : x.place = some i) :
    0 < i := by
  unfold lt at h
  rw [show zero.place = some 0 from rfl, hi] at h
  exact of_decide_eq_true h

theorem sign_of_pos {s : Bool} {u : Nat} (h : 0 < signed s u) : s = false ∧ 0 < u := by
  cases s with
  | true =>
    simp only [signed, if_true] at h
    omega
  | false =>
    simp only [signed, Bool.false_eq_true, if_false] at h
    exact ⟨rfl, by omega⟩

/-- Rounding a magnitude that has grown does not lead below it. -/
theorem ofUnits_not_lt {k : Fin finiteCount} {u : Nat} (h : units k ≤ u) :
    (ofUnits false u 1).lt (finite false k) = false := by
  refine lt_eq_false_of_le (place_ofUnits false u) (place_finite false k) ?_
  have hle : (k : Nat) ≤ Min.min (roundRank u 1) finiteCount :=
    Nat.le_min.2 ⟨le_roundRank h, k.2.le⟩
  have := units_strictMono.monotone hle
  simp only [signed, Bool.false_eq_true, if_false]
  omega

/-- Rounding a negative number whose magnitude has shrunk does not lead below it. -/
theorem ofUnits_negative_not_lt {k : Fin finiteCount} {u : Nat} (h : u ≤ units k) :
    (ofUnits true u 1).lt (finite true k) = false := by
  refine lt_eq_false_of_le (place_ofUnits true u) (place_finite true k) ?_
  have hle : Min.min (roundRank u 1) finiteCount ≤ k := (Nat.min_le_left _ _).trans (roundRank_le h)
  have := units_strictMono.monotone hle
  simp only [signed, if_true]
  omega

/-- A number that is not negative is not less than a negative one. -/
theorem ofUnits_not_lt_negative (u : Nat) (k : Fin finiteCount) :
    (ofUnits false u 1).lt (finite true k) = false := by
  refine lt_eq_false_of_le (place_ofUnits false u) (place_finite true k) ?_
  simp only [signed, Bool.false_eq_true, if_false, if_true]
  omega

/-- A finite number is not less than itself with a positive number added. -/
theorem ofSum_not_lt (s : Bool) (k : Fin finiteCount) {l : Nat} (hl : 0 < l) :
    (ofSum false (signed s (units k) + l)).lt (finite s k) = false := by
  unfold ofSum
  cases s with
  | false =>
    have hsum : signed false (units k) + l = ((units k + l : Nat) : Int) := by
      simp only [signed, Bool.false_eq_true, if_false, Nat.cast_add]
    rw [hsum, if_neg (by omega), Int.natAbs_natCast, decide_eq_false (by omega)]
    exact ofUnits_not_lt (Nat.le_add_right _ _)
  | true =>
    have hsum : signed true (units k) + l = l - (units k : Int) := by
      simp only [signed, if_true]
      omega
    rw [hsum]
    split
    · refine lt_eq_false_of_le (x := 0) rfl (place_finite true k) ?_
      simp only [signed, if_true]
      omega
    · by_cases hneg : (l : Int) - units k < 0
      · rw [decide_eq_true hneg]
        exact ofUnits_negative_not_lt (by omega)
      · rw [decide_eq_false hneg]
        exact ofUnits_not_lt_negative _ k

/-- A sum with a positive number is not less than the other term. -/
theorem not_add_lt {c x : Binary64} (hx : zero.lt x = true) : (c.add x).lt c = false := by
  have hnan : ∀ a : Binary64, nan.lt a = false := fun _ => rfl
  have hinf : ∀ a : Binary64, (infinite false).lt a = false := by
    intro a
    have htop : ∀ k : Fin finiteCount, units k ≤ units finiteCount := fun k =>
      units_strictMono.monotone k.2.le
    cases a with
    | nan => exact lt_nan _
    | infinite s =>
      refine lt_eq_false_of_le (place_infinite false) (place_infinite s) ?_
      cases s <;> simp only [signed, Bool.false_eq_true, if_false, if_true] <;> omega
    | finite s k =>
      refine lt_eq_false_of_le (place_infinite false) (place_finite s k) ?_
      have := htop k
      cases s <;> simp only [signed, Bool.false_eq_true, if_false, if_true] <;> omega
  cases c with
  | nan => exact lt_nan _
  | infinite s =>
    cases x with
    | nan => exact hnan _
    | infinite t =>
      obtain ⟨rfl, -⟩ := sign_of_pos (pos_of_zero_lt hx (place_infinite t))
      cases s with
      | false => exact hinf _
      | true => exact hnan _
    | finite t l => exact lt_eq_false_of_le (place_infinite s) (place_infinite s) le_rfl
  | finite s k =>
    cases x with
    | nan => exact hnan _
    | infinite t =>
      obtain ⟨rfl, -⟩ := sign_of_pos (pos_of_zero_lt hx (place_infinite t))
      exact hinf _
    | finite t l =>
      obtain ⟨rfl, hl⟩ := sign_of_pos (pos_of_zero_lt hx (place_finite t l))
      show (ofSum (s && false) (signed s (units k) + signed false (units l))).lt (finite s k) = false
      rw [Bool.and_false]
      exact ofSum_not_lt s k hl

/-! ## What comes behind a number -/

/-- The second number is not before the first one, or it is none. -/
def Precedes (a b : Binary64) : Prop := b = .nan ∨ a.le b = true

theorem place_eq_none {a : Binary64} (h : a.place = none) : a = .nan := by
  cases a with
  | nan => rfl
  | infinite s => cases h
  | finite s k => cases h

theorem precedes_iff {a b : Binary64} :
    a.Precedes b ↔ b = .nan ∨ ∃ x y, a.place = some x ∧ b.place = some y ∧ x ≤ y := by
  refine or_congr_right ⟨fun h => ?_, fun h => ?_⟩
  · unfold le at h
    split at h
    · next x y ha hb => exact ⟨x, y, ha, hb, of_decide_eq_true h⟩
    · cases h
  · obtain ⟨x, y, ha, hb, hxy⟩ := h
    unfold le
    rw [ha, hb]
    exact decide_eq_true hxy

theorem Precedes.refl (a : Binary64) : a.Precedes a := by
  cases h : a.place with
  | none => exact Or.inl (place_eq_none h)
  | some x => exact precedes_iff.2 (Or.inr ⟨x, x, h, h, le_rfl⟩)

theorem Precedes.trans {a b c : Binary64} (h : a.Precedes b) (h' : b.Precedes c) :
    a.Precedes c := by
  rcases precedes_iff.1 h' with rfl | ⟨y, z, hb, hc, hyz⟩
  · exact Or.inl rfl
  · rcases precedes_iff.1 h with rfl | ⟨x, y', ha, hb', hxy⟩
    · cases hb
    · cases hb.symm.trans hb'
      exact precedes_iff.2 (Or.inr ⟨x, z, ha, hc, hxy.trans hyz⟩)

theorem Precedes.not_lt {a b : Binary64} (h : a.Precedes b) : b.lt a = false := by
  rcases precedes_iff.1 h with rfl | ⟨x, y, ha, hb, hxy⟩
  · rfl
  · exact lt_eq_false_of_le hb ha hxy

theorem precedes_of_lt {a b : Binary64} (h : a.lt b = true) : a.Precedes b := by
  unfold lt at h
  split at h
  · next x y ha hb => exact precedes_iff.2 (Or.inr ⟨x, y, ha, hb, (of_decide_eq_true h).le⟩)
  · cases h

/-- **A sum with a positive number** comes behind the other term. -/
theorem precedes_add (c : Binary64) {x : Binary64} (hx : zero.lt x = true) :
    c.Precedes (c.add x) := by
  have h := not_add_lt (c := c) hx
  cases hs : (c.add x).place with
  | none => exact Or.inl (place_eq_none hs)
  | some y =>
    cases hc : c.place with
    | none =>
      rw [place_eq_none hc] at hs
      cases hs
    | some z =>
      unfold lt at h
      rw [hs, hc] at h
      have := of_decide_eq_false h
      exact precedes_iff.2 (Or.inr ⟨z, y, hc, hs, by omega⟩)

end Binary64

end Conductor
