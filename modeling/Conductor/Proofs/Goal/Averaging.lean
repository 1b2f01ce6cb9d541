import Conductor.Goal.Evaluation
import Conductor.Proofs.Binary64.Rounding

/-!
# Averages of scores

Scores lie between zero and one. Their sum is rounded at each step and their average once more, so the
average of equal scores need not be that score: three scores of `0.7` have a smaller average
(`three_reach_average_misses`).

Rounding keeps the order, though, so averages grow with their scores (`average_mono`), and the average of
scores lies between those of as many copies of the least and of the greatest of them. Each rounding changes
a number by a small factor, and an average that is small by no more than half the smallest positive number
(`average_close`). `average_respects` puts this together.
-/

namespace Conductor

namespace Binary64

variable {x y z : Binary64} {xs ys : List Binary64} {us vs : List Nat} {k n u : Nat}

/-! ## Scores -/

/-- A number between zero and one. -/
def IsScore (x : Binary64) : Prop := zero.le x = true ∧ x.le one = true

instance (x : Binary64) : Decidable x.IsScore := inferInstanceAs (Decidable (_ ∧ _))

/-- The magnitude of a finite number. -/
def magnitude : Binary64 → Nat
  | .finite _ k => units k
  | .nan | .infinite _ => 0

/-- The rational number that a finite number without a minus sign stands for. -/
def value (x : Binary64) : ℚ := x.magnitude / unitsOfOne

theorem le_iff {i j : Int} (hx : x.place = some i) (hy : y.place = some j) :
    x.le y = true ↔ i ≤ j := by
  unfold le
  rw [hx, hy]
  exact decide_eq_true_iff

theorem place_zero : zero.place = some 0 := rfl

theorem units_one : units (1023 * 2 ^ 52) = unitsOfOne := by decide +kernel

theorem magnitude_one : one.magnitude = unitsOfOne := units_one

theorem place_one : one.place = some (unitsOfOne : Int) :=
  congrArg (fun u : Nat => some (u : Int)) magnitude_one

/-- Scores are finite, and a score with a minus sign is zero. -/
theorem IsScore.eq_finite (h : x.IsScore) :
    ∃ s k, x = .finite s k ∧ units k ≤ unitsOfOne ∧ (s = true → units k = 0) := by
  obtain ⟨h₀, h₁⟩ := h
  cases x with
  | nan => cases h₀
  | infinite s =>
    have hlarge : unitsOfOne < units finiteCount := by decide +kernel
    rw [le_iff place_zero (place_infinite s)] at h₀
    rw [le_iff (place_infinite s) place_one] at h₁
    cases s <;> simp only [signed, Bool.false_eq_true, if_false, if_true] at h₀ h₁ <;> omega
  | finite s k =>
    refine ⟨s, k, rfl, ?_⟩
    rw [le_iff place_zero (place_finite s k)] at h₀
    rw [le_iff (place_finite s k) place_one] at h₁
    cases s <;> simp only [signed, Bool.false_eq_true, if_false, if_true] at h₀ h₁ <;>
      refine ⟨by omega, fun hs => ?_⟩
    · cases hs
    · omega

theorem IsScore.place_eq (h : x.IsScore) : x.place = some (x.magnitude : Int) := by
  obtain ⟨s, k, rfl, -, hs⟩ := h.eq_finite
  rw [place_finite, magnitude]
  cases s with
  | false => rfl
  | true => rw [hs rfl]; rfl

theorem IsScore.magnitude_le (h : x.IsScore) : x.magnitude ≤ unitsOfOne := by
  obtain ⟨s, k, rfl, hk, -⟩ := h.eq_finite
  exact hk

theorem IsScore.le_iff (hx : x.IsScore) (hy : y.IsScore) :
    x.le y = true ↔ x.magnitude ≤ y.magnitude := by
  rw [Binary64.le_iff hx.place_eq hy.place_eq]
  exact Nat.cast_le

theorem IsScore.le_trans (hx : x.IsScore) (hy : y.IsScore) (hz : z.IsScore)
    (hxy : x.le y = true) (hyz : y.le z = true) : x.le z = true :=
  (hx.le_iff hz).2 (((hx.le_iff hy).1 hxy).trans ((hy.le_iff hz).1 hyz))

/-- Positive numbers of the format up to one are scores. -/
theorem isScore_finite {k : Fin finiteCount} (h : units k ≤ unitsOfOne) :
    (finite false k).IsScore :=
  ⟨(Binary64.le_iff place_zero (place_finite false k)).2 (Int.natCast_nonneg _),
    (Binary64.le_iff (place_finite false k) place_one).2 (Nat.cast_le.2 h)⟩

/-! ## Sums -/

/-- The rank of a sum that is rounded at each step. -/
def tally (us : List Nat) : Nat := us.foldl (fun k u => roundRank (units k + u) 1) 0

theorem tally_concat (us : List Nat) (u : Nat) :
    tally (us ++ [u]) = roundRank (units (tally us) + u) 1 := List.foldl_append

/-- Adding a score. -/
theorem add_score {k : Fin finiteCount} (hx : x.IsScore)
    (h : roundRank (units k + x.magnitude) 1 < finiteCount) :
    (finite false k).add x = finite false ⟨roundRank (units k + x.magnitude) 1, h⟩ := by
  obtain ⟨s, l, rfl, -, hs⟩ := hx.eq_finite
  have hsum : signed false (units k) + signed s (units l) = ((units k + units l : Nat) : Int) := by
    cases s with
    | false => rfl
    | true => rw [hs rfl]; rfl
  show ofSum (false && s) (signed false (units k) + signed s (units l)) = _
  rw [hsum, Bool.false_and, ofSum]
  dsimp only [magnitude] at h ⊢
  split
  · next hzero =>
    have hzero : units k + units l = 0 := by exact_mod_cast hzero
    have hrank : roundRank (units k + units l) 1 = 0 := by
      rw [hzero]
      exact roundRank_units 0 Nat.one_pos
    simp only [hrank]
    rfl
  · rw [ofUnits]
    simp only [Int.natAbs_natCast]
    rw [dif_pos h, decide_eq_false (by omega)]

/-- Where sums of scores stop growing: adding one leads to a tie, which goes to the sum itself. -/
theorem tally_stops :
    ∃ k, units k = 2 ^ 53 * unitsOfOne ∧ middle k = 2 * ((2 ^ 53 + 1) * unitsOfOne) ∧ k % 2 = 0 :=
  ⟨1076 * 2 ^ 52, by decide +kernel⟩

/-- Sums of scores do not grow beyond `2 ^ 53`. -/
theorem units_tally_le (h : ∀ u ∈ us, u ≤ unitsOfOne) :
    units (tally us) ≤ Min.min us.length (2 ^ 53) * unitsOfOne := by
  induction us using List.reverseRecOn with
  | nil => exact Nat.zero_le _
  | append_singleton us u ih =>
    have ih := ih fun v hv => h v (List.mem_append_left _ hv)
    have hu := h u (by simp)
    rw [tally_concat, List.length_append, List.length_singleton]
    rcases Nat.lt_or_ge us.length (2 ^ 53) with hlt | hge
    · obtain ⟨k, hk⟩ := exists_units_nat (n := us.length + 1) hlt
      rw [Nat.min_eq_left (Nat.le_of_lt hlt)] at ih
      rw [Nat.min_eq_left hlt, ← hk]
      refine units_strictMono.monotone (roundRank_le_of_le Nat.one_pos ?_)
      rw [hk, Nat.mul_one, Nat.add_mul, Nat.one_mul]
      exact Nat.add_le_add ih hu
    · obtain ⟨k, hk, hmiddle, heven⟩ := tally_stops
      rw [Nat.min_eq_right hge, ← hk] at ih
      rw [Nat.min_eq_right (Nat.le_succ_of_le hge), ← hk]
      refine units_strictMono.monotone (Nat.le_of_not_lt fun hlt => ?_)
      have hsum : units (tally us) + u ≤ (2 ^ 53 + 1) * unitsOfOne := by
        rw [Nat.add_mul, Nat.one_mul, ← hk]
        exact Nat.add_le_add ih hu
      rcases (lt_roundRank_iff Nat.one_pos).1 hlt with h | h <;> omega

theorem units_finiteCount : 2 ^ 53 * unitsOfOne < units finiteCount := by decide +kernel

theorem lt_finiteCount (h : units k ≤ 2 ^ 53 * unitsOfOne) : k < finiteCount :=
  units_strictMono.lt_iff_lt.1 (Nat.lt_of_le_of_lt h units_finiteCount)

theorem tally_lt (h : ∀ u ∈ us, u ≤ unitsOfOne) : tally us < finiteCount :=
  lt_finiteCount ((units_tally_le h).trans (Nat.mul_le_mul_right _ (Nat.min_le_right _ _)))

theorem magnitudes_le (h : ∀ x ∈ xs, x.IsScore) : ∀ u ∈ xs.map magnitude, u ≤ unitsOfOne := by
  intro u hu
  obtain ⟨x, hx, rfl⟩ := List.mem_map.1 hu
  exact (h x hx).magnitude_le

/-- **The sum of scores** is finite, and its rank is that of their magnitudes. -/
theorem sum_scores (h : ∀ x ∈ xs, x.IsScore) :
    ∃ hlt : tally (xs.map magnitude) < finiteCount,
      sum xs = finite false ⟨tally (xs.map magnitude), hlt⟩ := by
  induction xs using List.reverseRecOn with
  | nil => exact ⟨tally_lt (magnitudes_le h), rfl⟩
  | append_singleton xs x ih =>
    obtain ⟨hlt, ih⟩ := ih fun y hy => h y (List.mem_append_left _ hy)
    have hall := tally_lt (magnitudes_le h)
    refine ⟨hall, ?_⟩
    rw [List.map_append, List.map_singleton, tally_concat] at hall
    rw [sum, List.foldl_append, ← sum, ih]
    refine (add_score (h x (by simp)) hall).trans ?_
    simp only [List.map_append, List.map_singleton, tally_concat]

end Binary64

/-! ## Averages -/

namespace Evaluation

open Binary64

variable {x y : Binary64} {xs ys : List Binary64} {us vs : List Nat} {n u : Nat}

/-- The rank of a count. -/
def countRank (n : Nat) : Nat := roundRank (n * unitsOfOne) 1

/-- The rank of the average of magnitudes. A count beyond the finite numbers makes it zero. -/
def meanRank (us : List Nat) : Nat :=
  if countRank us.length < finiteCount then
    roundRank (units (tally us) * unitsOfOne) (units (countRank us.length))
  else 0

theorem units_countRank_pos (h : 0 < n) : 0 < units (countRank n) := by
  have hle : 1023 * 2 ^ 52 ≤ countRank n := by
    refine le_roundRank_of_le Nat.one_pos ?_
    rw [units_one, Nat.mul_one]
    exact Nat.le_mul_of_pos_left _ h
  have hmono := units_strictMono.monotone hle
  rw [units_one] at hmono
  exact Nat.lt_of_lt_of_le unitsOfOne_pos hmono

/-- A rounded sum of scores is not greater than their rounded count. -/
theorem units_tally_le_count (h : ∀ u ∈ us, u ≤ unitsOfOne) :
    units (tally us) ≤ units (countRank us.length) := by
  obtain ⟨k, hk⟩ := exists_units_nat (Nat.min_le_right us.length (2 ^ 53))
  have htally := units_tally_le h
  rw [← hk] at htally
  refine htally.trans (units_strictMono.monotone (le_roundRank_of_le Nat.one_pos ?_))
  rw [hk, Nat.mul_one]
  exact Nat.mul_le_mul_right _ (Nat.min_le_left _ _)

theorem meanRank_le (h : ∀ u ∈ us, u ≤ unitsOfOne) (hne : us ≠ []) :
    meanRank us ≤ 1023 * 2 ^ 52 := by
  unfold meanRank
  split
  · refine roundRank_le_of_le (units_countRank_pos (List.length_pos_iff.2 hne)) ?_
    rw [units_one, Nat.mul_comm]
    exact Nat.mul_le_mul_left _ (units_tally_le_count h)
  · exact Nat.zero_le _

theorem meanRank_lt (h : ∀ u ∈ us, u ≤ unitsOfOne) (hne : us ≠ []) : meanRank us < finiteCount :=
  Nat.lt_of_le_of_lt (meanRank_le h hne) (by decide)

/-- Dividing a number that is not negative by a count. -/
theorem div_count (k : Fin finiteCount) (hn : 0 < n) :
    (finite false k).div (Binary64.ofNat n) =
      if countRank n < finiteCount then
        ofUnits false (units k * unitsOfOne) (units (countRank n))
      else zero := by
  by_cases h : countRank n < finiteCount
  · have hcount : Binary64.ofNat n = finite false ⟨countRank n, h⟩ := dif_pos h
    have hne : countRank n ≠ 0 := fun hz => by
      have hpos := units_countRank_pos hn
      rw [hz] at hpos
      exact Nat.lt_irrefl _ hpos
    rw [hcount, if_pos h]
    exact if_neg hne
  · have hcount : Binary64.ofNat n = infinite false := dif_neg h
    rw [hcount, if_neg h]
    rfl

/-- **The average of scores** is finite, and its rank is that of the average of their magnitudes. -/
theorem average_scores (h : ∀ x ∈ xs, x.IsScore) (hne : xs ≠ []) :
    ∃ hlt : meanRank (xs.map magnitude) < finiteCount,
      average xs = finite false ⟨meanRank (xs.map magnitude), hlt⟩ := by
  have hlt := meanRank_lt (magnitudes_le h) (by simpa using hne)
  obtain ⟨htally, hsum⟩ := sum_scores h
  refine ⟨hlt, ?_⟩
  rw [average, hsum, div_count _ (List.length_pos_iff.2 hne)]
  by_cases hcount : countRank xs.length < finiteCount
  · have hrank : meanRank (xs.map magnitude) = roundRank (units (tally (xs.map magnitude)) * unitsOfOne)
        (units (countRank xs.length)) := by
      rw [meanRank, List.length_map, if_pos hcount]
    simp only [hrank] at hlt ⊢
    rw [if_pos hcount]
    exact dif_pos hlt
  · have hrank : meanRank (xs.map magnitude) = 0 := by
      rw [meanRank, List.length_map, if_neg hcount]
    simp only [hrank]
    exact if_neg hcount

/-! ## Greater scores -/

/-- Greater magnitudes have no smaller sum. -/
theorem tally_mono (h : List.Forall₂ (· ≤ ·) us vs) : tally us ≤ tally vs := by
  have hfold : ∀ {k l : Nat}, k ≤ l →
      us.foldl (fun k u => roundRank (units k + u) 1) k ≤
        vs.foldl (fun k u => roundRank (units k + u) 1) l := by
    induction h with
    | nil => exact id
    | cons huv _ ih =>
      intro k l hkl
      have := units_strictMono.monotone hkl
      exact ih (roundRank_mono Nat.one_pos Nat.one_pos (by omega))
  exact hfold le_rfl

/-- Greater magnitudes have no smaller average. -/
theorem meanRank_mono (h : List.Forall₂ (· ≤ ·) us vs) : meanRank us ≤ meanRank vs := by
  unfold meanRank
  rw [h.length_eq]
  rcases Nat.eq_zero_or_pos vs.length with hz | hpos
  · obtain rfl := List.length_eq_zero_iff.1 hz
    cases h
    exact le_rfl
  · have hpos := units_countRank_pos hpos
    split
    · refine roundRank_mono hpos hpos (Nat.mul_le_mul_right _ (Nat.mul_le_mul_right _ ?_))
      exact units_strictMono.monotone (tally_mono h)
    · exact le_rfl

/-- **Greater scores have no smaller average.** -/
theorem average_mono (hx : ∀ x ∈ xs, x.IsScore) (hy : ∀ y ∈ ys, y.IsScore) (hne : xs ≠ [])
    (h : List.Forall₂ (fun x y : Binary64 => x.le y = true) xs ys) :
    (average xs).le (average ys) = true := by
  have hne' : ys ≠ [] := by
    rintro rfl
    exact hne (by cases h; rfl)
  obtain ⟨hltx, hmeanx⟩ := average_scores hx hne
  obtain ⟨hlty, hmeany⟩ := average_scores hy hne'
  rw [hmeanx, hmeany, le_iff (place_finite _ _) (place_finite _ _)]
  refine Nat.cast_le.2 (units_strictMono.monotone (meanRank_mono ?_))
  rw [List.forall₂_map_left_iff, List.forall₂_map_right_iff]
  rw [List.forall₂_iff_get] at h ⊢
  exact ⟨h.1, fun i hi hj =>
    ((hx _ (List.get_mem _ _)).le_iff (hy _ (List.get_mem _ _))).1 (h.2 i hi hj)⟩

theorem isScore_replicate (h : x.IsScore) : ∀ y ∈ List.replicate n x, y.IsScore := fun _ hy =>
  List.eq_of_mem_replicate hy ▸ h

/-- Scores that are not less than `x` have no smaller average than as many copies of `x`. -/
theorem average_replicate_le (hne : xs ≠ []) (h : ∀ y ∈ xs, y.IsScore) (hx : x.IsScore)
    (hle : ∀ y ∈ xs, x.le y = true) :
    (average (List.replicate xs.length x)).le (average xs) = true := by
  refine average_mono (isScore_replicate hx) h (by simpa using hne) ?_
  rw [List.forall₂_iff_get]
  exact ⟨List.length_replicate, fun i _ hj => by simpa using hle _ (List.getElem_mem hj)⟩

/-- Scores that are not greater than `x` have no greater average than as many copies of `x`. -/
theorem average_le_replicate (hne : xs ≠ []) (h : ∀ y ∈ xs, y.IsScore) (hx : x.IsScore)
    (hle : ∀ y ∈ xs, y.le x = true) :
    (average xs).le (average (List.replicate xs.length x)) = true := by
  refine average_mono h (isScore_replicate hx) hne ?_
  rw [List.forall₂_iff_get]
  exact ⟨List.length_replicate.symm, fun i hi _ => by simpa using hle _ (List.getElem_mem hi)⟩

/-- An average of scores is a score. -/
theorem isScore_average (h : ∀ x ∈ xs, x.IsScore) (hne : xs ≠ []) : (average xs).IsScore := by
  obtain ⟨hlt, hmean⟩ := average_scores h hne
  rw [hmean]
  refine isScore_finite ?_
  rw [← units_one]
  exact units_strictMono.monotone (meanRank_le (magnitudes_le h) (by simpa using hne))

/-! ## Equal scores -/

theorem countRank_units (h : n ≤ 2 ^ 53) : units (countRank n) = n * unitsOfOne := by
  obtain ⟨k, hk⟩ := exists_units_nat h
  have hround := roundRank_units k Nat.one_pos
  rw [Nat.mul_one, hk] at hround
  rw [countRank, hround, hk]

/-- Where the sum is not rounded the average of equal numbers is that number. -/
theorem meanRank_exact {k j : Nat} (hn : us.length ≤ 2 ^ 53) (hpos : 0 < us.length)
    (htally : tally us = j) (hj : units j = us.length * units k) : meanRank us = k := by
  have hcount := countRank_units hn
  have hlt : countRank us.length < finiteCount :=
    lt_finiteCount (by rw [hcount]; exact Nat.mul_le_mul_right _ hn)
  rw [meanRank, if_pos hlt, htally, hj, hcount]
  rw [show us.length * units k * unitsOfOne = units k * (us.length * unitsOfOne) by ring]
  exact roundRank_units k (Nat.mul_pos hpos unitsOfOne_pos)

/-- One or two equal scores have that score as their average. -/
theorem average_few (hx : x.IsScore) (hn : n = 1 ∨ n = 2) :
    (average (List.replicate n x)).place = x.place := by
  obtain ⟨s, k, rfl, hk, hs⟩ := hx.eq_finite
  have hsum : tally [units k] = k := by
    have hround := roundRank_units k Nat.one_pos
    rw [Nat.mul_one] at hround
    show roundRank (units 0 + units k) 1 = k
    rw [units_low (Nat.zero_le _), Nat.zero_add, hround]
  have hmean : meanRank (List.replicate n (units k)) = k := by
    rcases hn with rfl | rfl
    · exact meanRank_exact (by simp) Nat.one_pos hsum (Nat.one_mul _).symm
    · obtain ⟨j, hj⟩ := exists_units_double k
      refine meanRank_exact (by simp) Nat.two_pos ?_ hj
      have hround := roundRank_units j Nat.one_pos
      rw [Nat.mul_one, hj, Nat.two_mul] at hround
      show tally ([units k] ++ [units k]) = j
      rw [tally_concat, hsum, hround]
  have hne : List.replicate n (finite s k) ≠ [] := by
    rcases hn with rfl | rfl <;> simp
  obtain ⟨hlt, heq⟩ := average_scores (isScore_replicate hx) hne
  rw [heq, place_finite, hx.place_eq]
  simp only [List.map_replicate, magnitude, hmean]
  rfl

/-! ## How far an average can lie outside -/

/-- Rounding a sum at each step changes it by a small factor for each number. -/
theorem tally_close {l g : Nat} (h : ∀ u ∈ us, l ≤ u ∧ u ≤ g) :
    (units (tally us) : ℚ) ≤ us.length * g * (1 + 1 / 2 ^ 53) ^ us.length ∧
      (us.length * l : ℚ) ≤ units (tally us) * (1 + 1 / 2 ^ 53) ^ us.length := by
  induction us using List.reverseRecOn with
  | nil => simp [tally, units_low]
  | append_singleton us u ih =>
    obtain ⟨hle, hge⟩ := ih fun v hv => h v (List.mem_append_left _ hv)
    obtain ⟨hl, hg⟩ := h u (by simp)
    have hl : (l : ℚ) ≤ u := Nat.cast_le.2 hl
    have hg : (u : ℚ) ≤ g := Nat.cast_le.2 hg
    rw [tally_concat, List.length_append, List.length_singleton]
    obtain ⟨hup, hdown⟩ := close_roundRank_one (units (tally us) + u)
    generalize units (roundRank (units (tally us) + u) 1) = w at hup hdown ⊢
    generalize units (tally us) = v at hle hge hup hdown
    generalize us.length = i at hle hge ⊢
    obtain ⟨ε, hε⟩ : ∃ ε : ℚ, ε = 1 + 1 / 2 ^ 53 := ⟨_, rfl⟩
    rw [← hε] at hle hge hup hdown ⊢
    have hone : 1 ≤ ε := by rw [hε]; norm_num
    have hpow : 1 ≤ ε ^ i := one_le_pow₀ hone
    have hu0 : (0 : ℚ) ≤ u := Nat.cast_nonneg _
    have hg0 : (0 : ℚ) ≤ g := Nat.cast_nonneg _
    have hw0 : (0 : ℚ) ≤ w := Nat.cast_nonneg _
    push_cast at hup hdown ⊢
    constructor
    · calc (w : ℚ) ≤ (v + u) * ε := hup
        _ ≤ (i * g * ε ^ i + g * ε ^ i) * ε := by
          gcongr
          exact hg.trans (le_mul_of_one_le_right hg0 hpow)
        _ = (i + 1) * g * ε ^ (i + 1) := by ring
    · calc ((i : ℚ) + 1) * l = i * l + l := by ring
        _ ≤ v * ε ^ i + u * ε ^ i := by
          gcongr
          exact hl.trans (le_mul_of_one_le_right hu0 hpow)
        _ = (v + u) * ε ^ i := by ring
        _ ≤ w * ε * ε ^ i := by gcongr
        _ = w * ε ^ (i + 1) := by ring

/-- A count that is not finite is very large. -/
theorem count_large (h : ¬countRank n < finiteCount) : 2 ^ 53 * 1075 ≤ n := by
  by_contra hlt
  refine h (Nat.lt_of_le_of_lt (m := 1087 * 2 ^ 52) ?_ (by decide))
  refine roundRank_le_of_le Nat.one_pos ?_
  have hunits : units (1087 * 2 ^ 52) = 2 ^ 64 * unitsOfOne := by decide +kernel
  rw [hunits, Nat.mul_one]
  exact Nat.mul_le_mul_right _ (by omega)

/-- Growth by a factor whose power of `N` doubles. -/
theorem two_pow_le {ε : ℚ} {N m e n : Nat} (hone : 1 ≤ ε) (htwo : 2 ≤ ε ^ N) (he : e < m)
    (hn : N * m ≤ n) : 2 ^ e ≤ 1 / 2 * ε ^ n :=
  calc (2 : ℚ) ^ e = 1 / 2 * 2 ^ (e + 1) := by ring
    _ ≤ 1 / 2 * 2 ^ m := by gcongr; exacts [by norm_num, he]
    _ ≤ 1 / 2 * (ε ^ N) ^ m := by gcongr
    _ = 1 / 2 * ε ^ (N * m) := by rw [pow_mul]
    _ ≤ 1 / 2 * ε ^ n := by gcongr

/-- For a very large count the factors grow beyond all magnitudes of scores. -/
theorem le_pow_of_large (h : 2 ^ 53 * 1075 ≤ n) :
    (unitsOfOne : ℚ) ≤ 1 / 2 * (1 + 1 / 2 ^ 53) ^ n := by
  obtain ⟨e, he, hU⟩ := exists_unitsOfOne
  have htwo : (2 : ℚ) ≤ (1 + 1 / 2 ^ 53) ^ 2 ^ 53 := by
    have h := one_add_mul_le_pow (a := (1 / 2 ^ 53 : ℚ)) (by norm_num) (2 ^ 53)
    generalize (1 + 1 / 2 ^ 53 : ℚ) ^ 2 ^ 53 = x at h ⊢
    norm_num at h
    exact h
  rw [hU, Nat.cast_pow, Nat.cast_ofNat]
  exact two_pow_le (by norm_num) htwo he h

/-- What roundings of a sum, a count and their quotient do to the quotient. -/
theorem quotient_close {ε s c d U a q l g : ℚ} {i : Nat} (hone : 1 ≤ ε) (hc : 0 < c) (hd : 0 < d)
    (hU : 0 < U) (hs : 0 ≤ s) (ha : 0 ≤ a) (hg : 0 ≤ g) (hup : s ≤ c * g * ε ^ i)
    (hdown : c * l ≤ s * ε ^ i) (hcle : d ≤ c * U * ε) (hcge : c * U ≤ d * ε) (hq : q = s * U / d)
    (hround : a ≤ q * ε ∧ q ≤ a * ε ∨ |a - q| ≤ 1 / 2) :
    a ≤ g * ε ^ (i + 2) + 1 / 2 ∧ l ≤ (a + 1 / 2) * ε ^ (i + 2) := by
  have hqd : q * d = s * U := by rw [hq, div_mul_cancel₀ _ hd.ne']
  have hq0 : 0 ≤ q := hq ▸ by positivity
  have hqle : q ≤ g * ε ^ (i + 1) := by
    refine le_of_mul_le_mul_right ?_ hd
    calc q * d = s * U := hqd
      _ ≤ c * g * ε ^ i * U := by gcongr
      _ = c * U * (g * ε ^ i) := by ring
      _ ≤ d * ε * (g * ε ^ i) := by gcongr
      _ = g * ε ^ (i + 1) * d := by ring
  have hqge : l ≤ q * ε ^ (i + 1) := by
    refine le_of_mul_le_mul_right ?_ (mul_pos hc hU)
    calc l * (c * U) = c * l * U := by ring
      _ ≤ s * ε ^ i * U := by gcongr
      _ = q * d * ε ^ i := by rw [hqd]; ring
      _ ≤ q * (c * U * ε) * ε ^ i := by gcongr
      _ = q * ε ^ (i + 1) * (c * U) := by ring
  have hale : a ≤ q * ε + 1 / 2 := by
    rcases hround with h | h
    · linarith [h.1]
    · linarith [(abs_le.1 h).2, le_mul_of_one_le_right hq0 hone]
  have hage : q ≤ (a + 1 / 2) * ε := by
    rcases hround with h | h
    · linarith [h.2]
    · linarith [(abs_le.1 h).1, le_mul_of_one_le_right (by positivity : (0 : ℚ) ≤ a + 1 / 2) hone]
  constructor
  · calc a ≤ q * ε + 1 / 2 := hale
      _ ≤ g * ε ^ (i + 1) * ε + 1 / 2 := by gcongr
      _ = g * ε ^ (i + 2) + 1 / 2 := by ring
  · calc l ≤ q * ε ^ (i + 1) := hqge
      _ ≤ (a + 1 / 2) * ε * ε ^ (i + 1) := by gcongr
      _ = (a + 1 / 2) * ε ^ (i + 2) := by ring

/-- An average lies between the least and the greatest of the magnitudes up to small factors and half the
smallest positive number. -/
theorem meanRank_close {l g : Nat} (h : ∀ u ∈ us, l ≤ u ∧ u ≤ g) (hl : l ≤ unitsOfOne)
    (hne : us ≠ []) :
    (units (meanRank us) : ℚ) ≤ g * (1 + 1 / 2 ^ 53) ^ (us.length + 2) + 1 / 2 ∧
      (l : ℚ) ≤ (units (meanRank us) + 1 / 2) * (1 + 1 / 2 ^ 53) ^ (us.length + 2) := by
  obtain ⟨hup, hdown⟩ := tally_close h
  have hpos := List.length_pos_iff.2 hne
  have hcount := units_countRank_pos hpos
  obtain ⟨hcle, hcge⟩ := close_roundRank_one (us.length * unitsOfOne)
  rw [← countRank, Nat.cast_mul] at hcle hcge
  have hround := close_roundRank (a := units (tally us) * unitsOfOne) hcount
  have hU : (0 : ℚ) < unitsOfOne := Nat.cast_pos.2 unitsOfOne_pos
  unfold meanRank
  split
  · refine quotient_close (U := unitsOfOne) (by norm_num) (Nat.cast_pos.2 hpos) (Nat.cast_pos.2 hcount)
      hU (Nat.cast_nonneg _) (Nat.cast_nonneg _) (Nat.cast_nonneg _) hup hdown hcle hcge
      (by rw [← Nat.cast_mul]) (hround.imp (fun h => ⟨h.le, h.ge⟩) id)
  · next hlt =>
    have hlarge := le_pow_of_large ((count_large hlt).trans (Nat.le_add_right _ 2))
    replace hl : (l : ℚ) ≤ unitsOfOne := Nat.cast_le.2 hl
    have hg : (0 : ℚ) ≤ g := Nat.cast_nonneg _
    rw [show units 0 = 0 from rfl, Nat.cast_zero]
    generalize unitsOfOne = U at hl hlarge
    clear hround hcle hcge hU
    constructor
    · positivity
    · linarith

/-- An average leaves the range of its scores by `n + 2` roundings at most, each by a small factor, and by
half the smallest positive number. -/
theorem average_close {l g : Binary64} (h : ∀ x ∈ xs, x.IsScore) (hl : l ∈ xs) (hg : g ∈ xs)
    (hleast : ∀ x ∈ xs, l.le x = true) (hgreatest : ∀ x ∈ xs, x.le g = true) :
    (average xs).value ≤ g.value * (1 + 1 / 2 ^ 53) ^ (xs.length + 2) + 1 / 2 / unitsOfOne ∧
      l.value ≤ ((average xs).value + 1 / 2 / unitsOfOne) * (1 + 1 / 2 ^ 53) ^ (xs.length + 2) := by
  have hne : xs ≠ [] := List.ne_nil_of_mem hl
  obtain ⟨hlt, hmean⟩ := average_scores h hne
  have hrange : ∀ u ∈ xs.map magnitude, l.magnitude ≤ u ∧ u ≤ g.magnitude := by
    intro u hu
    obtain ⟨x, hx, rfl⟩ := List.mem_map.1 hu
    exact ⟨((h l hl).le_iff (h x hx)).1 (hleast x hx), ((h x hx).le_iff (h g hg)).1 (hgreatest x hx)⟩
  obtain ⟨hup, hdown⟩ := meanRank_close hrange (h l hl).magnitude_le (by simpa using hne)
  have hvalue : (average xs).magnitude = units (meanRank (xs.map magnitude)) := by
    rw [hmean]
    rfl
  rw [List.length_map, ← hvalue] at hup hdown
  have hU : (0 : ℚ) < unitsOfOne := Nat.cast_pos.2 unitsOfOne_pos
  unfold value
  generalize (unitsOfOne : ℚ) = U at hU
  constructor
  · rw [div_mul_eq_mul_div, ← add_div]
    exact div_le_div_of_nonneg_right hup hU.le
  · rw [← add_div, div_mul_eq_mul_div]
    exact div_le_div_of_nonneg_right hdown hU.le

/-! ## What an average says about its scores -/

/-- A threshold is reached by all averages of `n` scores that reach it if `n` copies of it reach it. -/
theorem reached_iff {threshold : Binary64} (ht : threshold.IsScore) (hn : 0 < n) :
    (∀ ys : List Binary64, ys.length = n → (∀ y ∈ ys, y.IsScore ∧ threshold.le y = true) →
        threshold.le (average ys) = true) ↔
      threshold.le (average (List.replicate n threshold)) = true := by
  constructor
  · intro h
    refine h _ List.length_replicate fun y hy => ?_
    rw [List.eq_of_mem_replicate hy]
    exact ⟨ht, (ht.le_iff ht).2 le_rfl⟩
  · rintro h ys rfl hys
    have hne : ys ≠ [] := List.length_pos_iff.1 hn
    have hscores : ∀ y ∈ ys, y.IsScore := fun y hy => (hys y hy).1
    refine ht.le_trans (isScore_average (isScore_replicate ht) (by simpa using hne))
      (isScore_average hscores hne) h ?_
    exact average_replicate_le hne hscores ht fun y hy => (hys y hy).2

/-- A threshold is missed by all averages of `n` scores up to `b` if `n` copies of `b` miss it. -/
theorem missed_iff {threshold b : Binary64} (ht : threshold.IsScore) (hb : b.IsScore) (hn : 0 < n) :
    (∀ ys : List Binary64, ys.length = n → (∀ y ∈ ys, y.IsScore ∧ y.le b = true) →
        threshold.le (average ys) = false) ↔
      threshold.le (average (List.replicate n b)) = false := by
  constructor
  · intro h
    refine h _ List.length_replicate fun y hy => ?_
    rw [List.eq_of_mem_replicate hy]
    exact ⟨hb, (hb.le_iff hb).2 le_rfl⟩
  · rintro h ys rfl hys
    have hne : ys ≠ [] := List.length_pos_iff.1 hn
    have hscores : ∀ y ∈ ys, y.IsScore := fun y hy => (hys y hy).1
    refine Bool.eq_false_iff.2 fun hreached => Bool.eq_false_iff.1 h ?_
    refine ht.le_trans (isScore_average hscores hne)
      (isScore_average (isScore_replicate hb) (by simpa using hne)) hreached ?_
    exact average_le_replicate hne hscores hb fun y hy => (hys y hy).2

/-- **Averages respect their scores up to rounding.** Let `n` scores lie between a least score `l` and a
greatest score `g`. Then their average

* lies between the averages of `n` copies of `l` and of `n` copies of `g`;
* leaves the range from `l` to `g` by `n + 2` roundings at most, each by a factor of `1 + 1 / 2 ^ 53`, and
  by half the smallest positive number;
* stays in that range if there are one or two scores.

A threshold is reached by every average of `n` scores that reach it exactly if it is reached by the average
of `n` copies of the threshold; and it is missed by every average of `n` scores up to `b` exactly if it is
missed by the average of `n` copies of `b`. -/
theorem average_respects {l g : Binary64} (h : ∀ x ∈ xs, x.IsScore) (hl : l ∈ xs) (hg : g ∈ xs)
    (hleast : ∀ x ∈ xs, l.le x = true) (hgreatest : ∀ x ∈ xs, x.le g = true) :
    ((average (List.replicate xs.length l)).le (average xs) = true ∧
      (average xs).le (average (List.replicate xs.length g)) = true) ∧
    ((average xs).value ≤ g.value * (1 + 1 / 2 ^ 53) ^ (xs.length + 2) + 1 / 2 / unitsOfOne ∧
      l.value ≤ ((average xs).value + 1 / 2 / unitsOfOne) * (1 + 1 / 2 ^ 53) ^ (xs.length + 2)) ∧
    (xs.length = 1 ∨ xs.length = 2 → l.le (average xs) = true ∧ (average xs).le g = true) ∧
    ∀ threshold : Binary64, threshold.IsScore →
      ((∀ ys : List Binary64, ys.length = xs.length →
          (∀ y ∈ ys, y.IsScore ∧ threshold.le y = true) → threshold.le (average ys) = true) ↔
        threshold.le (average (List.replicate xs.length threshold)) = true) ∧
      ∀ b : Binary64, b.IsScore →
        ((∀ ys : List Binary64, ys.length = xs.length →
            (∀ y ∈ ys, y.IsScore ∧ y.le b = true) → threshold.le (average ys) = false) ↔
          threshold.le (average (List.replicate xs.length b)) = false) := by
  have hne : xs ≠ [] := List.ne_nil_of_mem hl
  have hpos := List.length_pos_iff.2 hne
  have hbelow := average_replicate_le hne h (h l hl) hleast
  have habove := average_le_replicate hne h (h g hg) hgreatest
  refine ⟨⟨hbelow, habove⟩, average_close h hl hg hleast hgreatest, fun hfew => ?_,
    fun threshold ht => ⟨reached_iff ht hpos, fun b hb => missed_iff ht hb hpos⟩⟩
  -- Copies of one or two scores have that score as their average.
  have hplace := (isScore_average h hne).place_eq
  rw [le_iff ((average_few (h l hl) hfew).trans (h l hl).place_eq) hplace] at hbelow
  rw [le_iff hplace ((average_few (h g hg) hfew).trans (h g hg).place_eq)] at habove
  exact ⟨(le_iff (h l hl).place_eq hplace).2 hbelow, (le_iff hplace (h g hg).place_eq).2 habove⟩

/-- The number nearest to `0.7`. -/
def sevenTenths : Binary64 := ofDecimal false 7 (-1)

theorem average_respects_sevenths : (∀ x ∈ [sevenTenths, sevenTenths, sevenTenths], x.IsScore) ∧
    (average [sevenTenths, sevenTenths, sevenTenths]).value ≤
      sevenTenths.value * (1 + 1 / 2 ^ 53) ^ 5 + 1 / 2 / unitsOfOne := by
  have h : ∀ x ∈ [sevenTenths, sevenTenths, sevenTenths], x.IsScore := by decide +kernel
  exact ⟨h, (average_respects h List.mem_cons_self List.mem_cons_self (by decide +kernel)
    (by decide +kernel)).2.1.1⟩

/-- Three scores that reach a threshold can have an average that misses it. -/
theorem three_reach_average_misses :
    sevenTenths.IsScore ∧ sevenTenths.le sevenTenths = true ∧
      sevenTenths.le (average [sevenTenths, sevenTenths, sevenTenths]) = false := by
  decide +kernel

end Evaluation

end Conductor
