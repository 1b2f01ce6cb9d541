import Conductor.Proofs.Account.Delay
import Conductor.Proofs.Account.Launched
import Conductor.Proofs.Goal.Averaging
import Conductor.Proofs.Store.Writing

/-!
# What an evaluation says

An evaluation asks its scorer about each criterion once, in order (`Opinions`), brings what it is told
into the range of scores, and records the scores, their average and the criteria that were missed
(`Verdict`). What it says follows from the numbers that the scorer answers with (`evaluation_of_numbers`).

Everything that has a place on the line of numbers is brought into the range from zero to one
(`isScore_clamp_iff`). `nan` has none. It stays what it is, makes the average `nan` as well, and misses no
threshold, since it is not less than anything.
-/

namespace Conductor

namespace Binary64

variable {x y : Binary64} {xs : List Binary64}

/-! ## Numbers without a place -/

theorem exists_place (h : x ≠ .nan) : ∃ i, x.place = some i := by
  cases hp : x.place with
  | none => exact absurd (place_eq_none hp) h
  | some i => exact ⟨i, rfl⟩

theorem not_isScore_nan : ¬IsScore .nan := fun h => Bool.false_ne_true h.1

/-- Of two numbers with places one is less, or the other is at most that one. -/
theorem lt_eq_not_le (hx : x ≠ .nan) (hy : y ≠ .nan) : x.lt y = !y.le x := by
  obtain ⟨i, hi⟩ := exists_place hx
  obtain ⟨k, hk⟩ := exists_place hy
  unfold lt le
  rw [hi, hk]
  simp only [← decide_not, not_le]

theorem add_nan (x : Binary64) : x.add .nan = .nan := by cases x <;> rfl

theorem sum_nan (h : .nan ∈ xs) : sum xs = .nan := by
  induction xs using List.reverseRecOn with
  | nil => cases h
  | append_singleton xs x ih =>
    rw [sum, List.foldl_append]
    rcases List.mem_append.1 h with h | h
    · rw [← sum, ih h]
      rfl
    · cases List.mem_singleton.1 h
      exact add_nan _

end Binary64

namespace Evaluation

open Binary64

variable {x y : Binary64} {xs : List Binary64} {s : Store}

/-! ## Numbers as scores -/

theorem clamp_nan : clamp .nan = .nan := by decide +kernel

/-- Whatever has a place becomes a score. -/
theorem isScore_clamp (h : x ≠ .nan) : (clamp x).IsScore := by
  have hzero : zero.IsScore := by decide +kernel
  have hone : one.IsScore := by decide +kernel
  have hne : ∀ {y : Binary64}, y.IsScore → y ≠ .nan := fun hy hnan => not_isScore_nan (hnan ▸ hy)
  -- The greater of the number and zero is not below zero, and the smaller of that and one not above one.
  have hlow : zero.le (x.max zero) = true ∧ x.max zero ≠ .nan := by
    unfold Binary64.max
    split
    · exact ⟨hzero.1, hne hzero⟩
    · next hlt => exact ⟨by simpa [lt_eq_not_le h (hne hzero)] using hlt, h⟩
  unfold clamp Binary64.min
  split
  · exact hone
  · next hlt => exact ⟨hlow.1, by simpa [lt_eq_not_le (hne hone) hlow.2] using hlt⟩

theorem isScore_clamp_iff : (clamp x).IsScore ↔ x ≠ .nan := by
  refine ⟨?_, isScore_clamp⟩
  rintro h rfl
  exact not_isScore_nan (clamp_nan ▸ h)

/-- A score is not changed. -/
theorem clamp_eq_self (h : x.IsScore) : clamp x = x := by
  have hx : x ≠ .nan := fun hnan => not_isScore_nan (hnan ▸ h)
  have hlow : x.max zero = x := if_neg (by rw [lt_eq_not_le hx (by decide), h.1]; decide)
  rw [clamp, hlow]
  exact if_neg (by rw [lt_eq_not_le (by decide) hx, h.2]; decide)

theorem average_nan (h : .nan ∈ xs) : average xs = .nan := by
  rw [average, sum_nan h]
  rfl

/-- The average is a score if all numbers have places, and only then. -/
theorem isScore_average_clamp_iff (hne : xs ≠ []) :
    (average (xs.map clamp)).IsScore ↔ .nan ∉ xs := by
  constructor
  · intro h hnan
    rw [average_nan (clamp_nan ▸ List.mem_map_of_mem hnan)] at h
    exact not_isScore_nan h
  · intro h
    refine isScore_average (fun y hy => ?_) (by simpa using hne)
    obtain ⟨x, hx, rfl⟩ := List.mem_map.1 hy
    exact isScore_clamp fun hnan => h (hnan ▸ hx)

/-- Whether a criterion has a threshold that is not reached. -/
def unreached (s : Store) (criterion : Value) (score : Binary64) : Bool :=
  match criterion with
  | .criterion r =>
    match (s.get r).threshold with
    | some t => !t.le score
    | none => false
  | _ => false

/-- The thresholds of criteria have places. -/
def Placed (s : Store) (criteria : List (String × Value)) : Prop :=
  ∀ entry ∈ criteria, ∀ r, entry.2 = .criterion r → (s.get r).threshold ≠ some .nan

/-- A threshold is missed if it is not reached, unless by `nan`. -/
theorem misses_eq {criterion : Value} (h : ∀ r, criterion = .criterion r →
    (s.get r).threshold ≠ some .nan) :
    misses s criterion x = (unreached s criterion x && decide (x ≠ .nan)) := by
  cases criterion with
  | criterion r =>
    have hr := h r rfl
    unfold misses unreached
    dsimp only
    cases ht : (s.get r).threshold with
    | none => rfl
    | some t =>
      have htnan : t ≠ .nan := fun hnan => hr (hnan ▸ ht)
      by_cases hx : x = .nan
      · subst hx
        simp [lt]
        rfl
      · simp [lt_eq_not_le hx htnan, hx]
  | _ => rfl

/-! ## Asking about criteria -/

section Asking

variable {body : Procedure → Routine Value} {R : Run body} {plan : Procedure → Outline Value}
  {N b n : Nat} {ds : List Deed} {j : Judge} {g : Ref .goal} {result : Value}
  {criteria : List (String × Value)}

/-- What a scorer is asked about a criterion. -/
def question (result : Value) (entry : String × Value) : List Value :=
  [.text entry.1, entry.2, result]

/-- The scorer, if there is one, has been asked about the first of some criteria, in order. -/
def Asked (j : Judge) (result : Value) (criteria : List (String × Value)) (ds : List Deed) : Prop :=
  match j.scorer with
  | none => ds = []
  | some c => ∃ asked, asked <+: criteria ∧
    List.Forall₂ (fun entry d => ∃ m inner e, d = Deed.ask m .scorer c (question result entry) inner e)
      asked ds

/-- Numbers for criteria, one after another, and the calls of the scorer that they come from. -/
inductive Opinions (R : Run body) (j : Judge) (result : Value) :
    List (String × Value) → List Deed → List Binary64 → Prop where
  | nil : Opinions R j result [] [] []
  | presence {entry : String × Value} {rest : List (String × Value)} {ds : List Deed}
    {xs : List Binary64} (hj : j.scorer = none) (m : Nat) (h : Opinions R j result rest ds xs) :
    Opinions R j result (entry :: rest) ds ((R.store m).presence result :: xs)
  | answer {c : Ref .callable} {entry : String × Value} {rest : List (String × Value)}
    {ds inner : List Deed} {xs : List Binary64} {m t : Nat} {raw : Value} {x : Binary64}
    (hj : j.scorer = some c) (hx : (R.store t).readBinary64 raw = .ok x)
    (h : Opinions R j result rest ds xs) :
    Opinions R j result (entry :: rest)
      (.ask m .scorer c (question result entry) inner (some (t, .ok raw)) :: ds) (x :: xs)

/-- What the scorer answers are numbers. -/
def Numeric (R : Run body) (ds : List Deed) : Prop :=
  ∀ m c args inner t o, .ask m .scorer c args inner (some (t, o)) ∈ ds →
    ∃ raw x, o = .ok raw ∧ (R.store t).readBinary64 raw = .ok x

theorem Numeric.append {ds' : List Deed} (h : Numeric R (ds ++ ds')) :
    Numeric R ds ∧ Numeric R ds' :=
  ⟨fun m c args inner t o hd => h m c args inner t o (List.mem_append_left _ hd),
    fun m c args inner t o hd => h m c args inner t o (List.mem_append_right _ hd)⟩

theorem Opinions.length_eq {xs : List Binary64} (h : Opinions R j result criteria ds xs) :
    xs.length = criteria.length := by
  induction h with
  | nil => rfl
  | presence _ _ _ ih | answer _ _ _ ih => exact congrArg Nat.succ ih

/-- With a scorer there is one call for each criterion. -/
theorem Opinions.asked {xs : List Binary64} {c : Ref .callable}
    (h : Opinions R j result criteria ds xs) (hj : j.scorer = some c) :
    List.Forall₂ (fun entry d => ∃ m inner e, d = Deed.ask m .scorer c (question result entry) inner e)
      criteria ds := by
  induction h with
  | nil => exact .nil
  | presence hn => rw [hj] at hn; cases hn
  | answer hc _ _ ih =>
    cases hj.symm.trans hc
    exact .cons ⟨_, _, _, rfl⟩ ih

theorem Opinions.present {xs : List Binary64} (h : Opinions R j result criteria ds xs)
    (hj : j.scorer = none) : ds = [] := by
  induction h with
  | nil => rfl
  | presence _ _ _ ih => exact ih
  | answer hc => rw [hj] at hc; cases hc

theorem Opinions.append {before : List (String × Value)} {ds' : List Deed} {xs xs' : List Binary64}
    (h : Opinions R j result before ds xs) (h' : Opinions R j result criteria ds' xs') :
    Opinions R j result (before ++ criteria) (ds ++ ds') (xs ++ xs') := by
  induction h with
  | nil => exact h'
  | presence hj m _ ih => exact .presence hj m ih
  | answer hj hx _ ih => exact .answer hj hx ih

/-- The scores that numbers lead to, each under its name and with its criterion. -/
def scored (criteria : List (String × Value)) (xs : List Binary64) :
    List (String × Value × Binary64) :=
  (criteria.zip xs).map fun y => (y.1.1, y.1.2, clamp y.2)

/-- The score of one criterion is what its number leads to. -/
theorem score_account {entry : String × Value} {e : Ending Binary64}
    (h : Account R j.call plan N b n (.now (Outlined.scoreOf j entry.1 entry.2 result)) ds e)
    (hnum : Numeric R ds) :
    Asked j result [entry] ds ∧ (e = none ∨ ∃ t x, e = some (t, .ok (clamp x)) ∧
      Opinions R j result [entry] ds [x]) := by
  unfold Outlined.scoreOf at h
  unfold Asked
  cases hj : j.scorer with
  | none =>
    rw [hj] at h
    obtain ⟨rfl, he⟩ := h.straight (Routine.eval_read _ _)
    exact ⟨rfl, he.imp id fun ⟨he, _⟩ => ⟨_, _, he, .presence hj n .nil⟩⟩
  | some c =>
    rw [hj] at h
    have hone : ∀ inner (e' : Ending Value), ∃ asked, asked <+: [entry] ∧ List.Forall₂
        (fun entry d => ∃ m inner e, d = Deed.ask m .scorer c (question result entry) inner e) asked
        [Deed.ask n .scorer c (question result entry) inner e'] := fun inner e' =>
      ⟨[entry], List.prefix_rfl, .cons ⟨n, inner, e', rfl⟩ .nil⟩
    rcases h.bind with ⟨ds₁, t, raw, ds₂, h₁, h₂, rfl⟩ | ⟨t, f, h₁, -⟩ | ⟨h₁, rfl⟩
    · obtain ⟨inner, rfl, -⟩ := h₁.called
      obtain ⟨_, x, heq, hx⟩ := hnum n c _ inner t _ List.mem_cons_self
      cases heq
      have hq : ((R.store t).readBinary64 raw).map clamp = .ok (clamp x) := by rw [hx]; rfl
      obtain ⟨rfl, he⟩ := h₂.straight (Routine.eval_query_ok hq)
      exact ⟨hone inner _, he.imp id fun ⟨he, _⟩ => ⟨_, x, he, .answer hj hx .nil⟩⟩
    · obtain ⟨inner, rfl, -⟩ := h₁.called
      obtain ⟨_, _, heq, -⟩ := hnum n c _ inner t _ List.mem_cons_self
      cases heq
    · obtain ⟨inner, rfl, -⟩ := h₁.called
      exact ⟨hone inner _, Or.inl rfl⟩

/-- Criteria that have been asked about before others. -/
theorem Opinions.asked_append {before : List (String × Value)} {ds' : List Deed}
    {xs : List Binary64} (h : Opinions R j result before ds xs)
    (h' : Asked j result criteria ds') : Asked j result (before ++ criteria) (ds ++ ds') := by
  unfold Asked at h' ⊢
  cases hj : j.scorer with
  | none =>
    rw [hj] at h'
    rw [h.present hj, h']
    rfl
  | some c =>
    rw [hj] at h'
    obtain ⟨asked, hpre, hall⟩ := h'
    exact ⟨before ++ asked, (List.prefix_append_right_inj before).2 hpre,
      List.rel_append (h.asked hj) hall⟩

/-- The scores of criteria are what their numbers lead to. -/
theorem scores_account {e : Ending (List (String × Value × Binary64))}
    (h : Account R j.call plan N b n (.now (Outlined.scores j result criteria)) ds e)
    (hnum : Numeric R ds) :
    Asked j result criteria ds ∧ (e = none ∨ ∃ t xs, e = some (t, .ok (scored criteria xs)) ∧
      Opinions R j result criteria ds xs) := by
  induction criteria generalizing n ds e with
  | nil =>
    obtain ⟨rfl, rfl⟩ := h.done_iff
    refine ⟨?_, Or.inr ⟨n, [], rfl, .nil⟩⟩
    unfold Asked
    split
    · rfl
    · exact ⟨[], List.nil_prefix, .nil⟩
  | cons entry rest ih =>
    have hpre : ∀ {ds}, Asked j result [entry] ds → Asked j result (entry :: rest) ds := by
      unfold Asked
      intro ds h
      split at h
      · exact h
      · obtain ⟨asked, hasked, hall⟩ := h
        exact ⟨asked, hasked.trans (List.prefix_append [entry] rest), hall⟩
    rcases h.bind with ⟨ds₁, t, y, ds₂, h₁, h₂, rfl⟩ | ⟨t, f, h₁, rfl⟩ | ⟨h₁, rfl⟩
    · obtain ⟨-, he | ⟨_, x, he, hx⟩⟩ := score_account h₁ hnum.append.1
      · cases he
      cases he
      rcases h₂.bind with ⟨ds₃, t', more, ds₄, h₃, h₄, rfl⟩ | ⟨t', f, h₃, rfl⟩ | ⟨h₃, rfl⟩
      · obtain ⟨hasked, he | ⟨_, xs, he, hxs⟩⟩ := ih h₃ hnum.append.2.append.1
        · cases he
        cases he
        obtain ⟨rfl, rfl⟩ := h₄.done_iff
        rw [List.append_nil]
        exact ⟨hx.asked_append hasked, Or.inr ⟨_, x :: xs, rfl, hx.append hxs⟩⟩
      · obtain ⟨-, he | ⟨_, _, he, -⟩⟩ := ih h₃ hnum.append.2 <;> cases he
      · exact ⟨hx.asked_append (ih h₃ hnum.append.2).1, Or.inl rfl⟩
    · obtain ⟨-, he | ⟨_, _, he, -⟩⟩ := score_account h₁ hnum <;> cases he
    · exact ⟨hpre (score_account h₁ hnum).1, Or.inl rfl⟩

theorem score_brisk {entry : String × Value} {e : Ending Binary64}
    (h : Account R j.call plan N b n (.now (Outlined.scoreOf j entry.1 entry.2 result)) ds e) :
    Deed.Brisk N n ds 3 e := by
  unfold Outlined.scoreOf at h
  split at h
  · exact (h.brisk_straight (Routine.eval_read _ _)).mono (fun _ => id) (by omega)
  · refine Nat.zero_add 3 ▸ h.brisk_bind (fun h => h.brisk_called) fun {t raw ds e} h => ?_
    cases hq : ((R.store t).readBinary64 raw).map clamp with
    | ok x => exact (h.brisk_straight (Routine.eval_query_ok hq)).mono (fun _ => id) (by omega)
    | error c => exact h.brisk_straight (Routine.eval_query_error hq)

theorem scores_brisk {e : Ending (List (String × Value × Binary64))}
    (h : Account R j.call plan N b n (.now (Outlined.scores j result criteria)) ds e) :
    Deed.Brisk N n ds (3 * criteria.length) e := by
  induction criteria generalizing n ds e with
  | nil => exact h.brisk_done
  | cons entry rest ih =>
    refine (h.brisk_bind score_brisk fun h => h.brisk_bind ih fun h => h.brisk_done).mono
      (fun _ => id) ?_
    rw [List.length_cons]
    omega

/-! ## The evaluation -/

/-- What an evaluation does when all scores are there. -/
def close (j : Judge) (g : Ref .goal) (scores : List (String × Value × Binary64)) :
    Routine (Ref .evaluation) := do
  let mean := average (scores.map fun (_, _, score) => score)
  let passed := j.settings.threshold.le mean
  let missing ← .read fun s => missed s scores
  let e ← record passed mean (scores.map fun (name, _, score) => (name, score)) missing
  let name ← .read fun s => (s.get g).name
  let shownMean := mean.fixed 3
  let shownPassed := (Datum.bool passed).repr
  .log .debug logger s!"Evaluated {name}: score={shownMean} passed={shownPassed}"
    [("task", .text name)]
  pure e

/-- What an evaluation says about criteria that were given some numbers. -/
structure Verdict (s : Store) (j : Judge) (criteria : List (String × Value)) (xs : List Binary64)
    (r : Ref .evaluation) : Prop where
  score : (s.get r).score = average (xs.map clamp)
  passed : (s.get r).passed = j.settings.threshold.le (average (xs.map clamp))
  scores : s.get (s.get r).criteria =
    (criteria.zip xs).map fun y => (y.1.1, .float (clamp y.2))
  unmet : s.get (s.get r).unmet = ((criteria.zip xs).filter fun y =>
    misses s y.1.2 (clamp y.2)).map fun y => .text y.1.1

theorem scored_scores {xs : List Binary64} (h : xs.length = criteria.length) :
    (scored criteria xs).map (fun (_, _, score) => score) = xs.map clamp := by
  calc (scored criteria xs).map (fun (_, _, score) => score)
      = ((criteria.zip xs).map Prod.snd).map clamp := by
        rw [scored, List.map_map, List.map_map]
        rfl
    _ = xs.map clamp := by rw [List.map_snd_zip h.le]

theorem missed_scored (s : Store) (criteria : List (String × Value)) (xs : List Binary64) :
    missed s (scored criteria xs) = ((criteria.zip xs).filter fun y =>
      misses s y.1.2 (clamp y.2)).map fun y => y.1.1 := by
  rw [missed, scored, List.filter_map, List.map_map]
  rfl

/-- Misses of a criterion are seen in the criteria of a store only. -/
theorem misses_congr {s s' : Store} (h : s'.criteria = s.criteria) : misses s' = misses s := by
  funext c x
  cases c with
  | criterion r =>
    have hr : s'.get r = s.get r := congrArg (fun cs : Array Criterion => cs.getD r.index default) h
    unfold misses
    dsimp only
    rw [hr]
  | _ => rfl

/-- What is recorded is there afterwards, and criteria are what they were. -/
theorem eval_record (passed : Bool) (score : Binary64) (scores : List (String × Binary64))
    (unmet : List String) (s : Store) :
    ∃ s' r, (record passed score scores unmet).eval s = some (2, .ok r, s') ∧
      s'.criteria = s.criteria ∧ (s'.get r).passed = passed ∧ (s'.get r).score = score ∧
      s'.get (s'.get r).criteria = scores.map (fun y => (y.1, .float y.2)) ∧
      s'.get (s'.get r).unmet = unmet.map Value.text := by
  refine ⟨_, _, rfl, rfl, ?_, ?_, ?_, ?_⟩
  · exact congrArg Evaluation.passed Store.getD_push_size
  · exact congrArg Evaluation.score Store.getD_push_size
  · exact (congrArg (fun e : Evaluation => Store.get _ e.criteria) Store.getD_push_size).trans
      Store.getD_push_size
  · exact (congrArg (fun e : Evaluation => Store.get _ e.unmet) Store.getD_push_size).trans
      Store.getD_push_size

theorem close_verdict (s : Store) {xs : List Binary64} (h : xs.length = criteria.length) :
    ∃ s' r, (close j g (scored criteria xs)).eval s = some (6, .ok r, s') ∧
      Verdict s' j criteria xs r := by
  let mean := average ((scored criteria xs).map fun (_, _, score) => score)
  obtain ⟨t, r, heval, hcriteria, hpassed, hscore, hscores, hunmet⟩ := eval_record
    (j.settings.threshold.le mean) mean ((scored criteria xs).map fun (name, _, score) => (name, score))
    (missed s (scored criteria xs)) s
  have hmean : mean = average (xs.map clamp) := congrArg average (scored_scores h)
  refine ⟨_, r, (Routine.eval_bind (Routine.eval_read _ s)).trans (congrArg (Option.map _)
    ((Routine.eval_bind heval).trans (congrArg (Option.map _) rfl))), ?_⟩
  rw [hmean] at hscore hpassed
  refine ⟨hscore, hpassed, hscores.trans ?_, hunmet.trans ?_⟩
  · rw [scored, List.map_map, List.map_map]
    rfl
  · rw [missed_scored, List.map_map, ← misses_congr hcriteria]
    rfl

/-- How an evaluation with criteria goes when the scorer answers with numbers. -/
theorem evaluate_account {e : Ending (Ref .evaluation)}
    (h : Account R j.call plan N b n (.now (Outlined.evaluate j g result)) ds e)
    (hon : j.settings.enabled = true) (hcriteria : (R.store n).get ((R.store n).get g).criteria = criteria)
    (hne : criteria ≠ []) (hnum : Numeric R ds) :
    Asked j result criteria ds ∧ (e = none ∨ ∃ t r xs, e = some (t, .ok r) ∧
      Opinions R j result criteria ds xs ∧ Verdict (R.store t) j criteria xs r) := by
  have hnone : Asked j result criteria [] := by
    unfold Asked
    split
    · rfl
    · exact ⟨[], List.nil_prefix, .nil⟩
  rcases h.straight_bind (Routine.eval_read _ _) with ⟨rfl, rfl⟩ | ⟨-, h⟩
  · exact ⟨hnone, Or.inl rfl⟩
  rw [hcriteria, hon, List.isEmpty_eq_false_iff.2 hne] at h
  replace h : Account R j.call plan N b (n + 1) (.now (Outlined.scores j result criteria >>= fun scores =>
    .plain (close j g scores))) ds e := h
  rcases h.bind with ⟨ds₁, t, scores, ds₂, h₁, h₂, rfl⟩ | ⟨t, f, h₁, rfl⟩ | ⟨h₁, rfl⟩
  · obtain ⟨hasked, he | ⟨_, xs, he, hxs⟩⟩ := scores_account h₁ hnum.append.1 <;> cases he
    obtain ⟨s', r, heval, hverdict⟩ := close_verdict (j := j) (g := g) (R.store t) hxs.length_eq
    obtain ⟨rfl, he⟩ := h₂.straight heval
    rw [List.append_nil]
    exact ⟨hasked, he.imp id fun ⟨he, hs⟩ => ⟨_, r, xs, he, hxs, hs ▸ hverdict⟩⟩
  · obtain ⟨-, he | ⟨_, _, he, -⟩⟩ := scores_account h₁ hnum <;> cases he
  · exact ⟨(scores_account h₁ hnum).1, Or.inl rfl⟩

/-- An evaluation needs a few moments of its own for each criterion. -/
theorem evaluate_brisk {e : Ending (Ref .evaluation)}
    (h : Account R j.call plan N b n (.now (Outlined.evaluate j g result)) ds e)
    (hon : j.settings.enabled = true) (hcriteria : (R.store n).get ((R.store n).get g).criteria = criteria)
    (hne : criteria ≠ []) : Deed.Brisk N n ds (3 * criteria.length + 7) e := by
  refine (h.brisk_straight_bind (l := 3 * criteria.length + 6) (Routine.eval_read _ _)
    fun {ds e} h => ?_).mono (fun _ => id) (by omega)
  rw [hcriteria, hon, List.isEmpty_eq_false_iff.2 hne] at h
  replace h : Account R j.call plan N b (n + 1) (.now (Outlined.scores j result criteria >>= fun scores =>
    .plain (close j g scores))) ds e := h
  exact h.brisk_bind scores_brisk fun {t scores ds e} h => by
    obtain ⟨s', r, heval⟩ : ∃ s' r, (close j g scores).eval (R.store t) = some (6, .ok r, s') :=
      ⟨_, _, rfl⟩
    exact h.brisk_straight heval

/-- The criteria that were missed are those with a threshold that is not reached, unless by `nan`. -/
theorem Verdict.unmet_eq {s : Store} {xs : List Binary64} {r : Ref .evaluation}
    (h : Verdict s j criteria xs r) (hplaced : Placed s criteria) :
    s.get (s.get r).unmet = ((criteria.zip xs).filter fun y =>
      unreached s y.1.2 (clamp y.2) && decide (y.2 ≠ .nan)).map fun y => .text y.1.1 := by
  rw [h.unmet]
  congr 1
  refine List.filter_congr fun y hy => ?_
  rw [misses_eq (hplaced y.1 (List.of_mem_zip hy).1)]
  congr 1
  refine decide_eq_decide.2 (not_congr ⟨fun hnan => ?_, fun hnan => hnan ▸ clamp_nan⟩)
  by_contra hy
  exact not_isScore_nan (hnan ▸ isScore_clamp hy)

/-- **What an evaluation says.** The scorer is asked about each criterion once, in order, as far as the
evaluation has come; and unless it is at work the evaluation comes to its end within a few moments. If all
answers are numbers, the evaluation returns, with one score for each criterion, which is the number brought
into the range from zero to one, with their average, and passed exactly if that reaches the threshold.

A number that is a score stays what it is. All scores lie between zero and one, and so does their average,
exactly if none of the numbers is `nan`. If one is, the average is `nan` and the result has not passed. The
criteria that were missed are, in order, those with a threshold that their score does not reach, except
that `nan` misses none. -/
theorem evaluation_of_numbers {e : Ending (Ref .evaluation)}
    (h : Account R j.call plan N b n (.now (Outlined.evaluate j g result)) ds e)
    (hon : j.settings.enabled = true) (hcriteria : (R.store n).get ((R.store n).get g).criteria = criteria)
    (hne : criteria ≠ []) (hnum : Numeric R ds) :
    Asked j result criteria ds ∧ Deed.Brisk N n ds (3 * criteria.length + 7) e ∧
    ∀ t o, e = some (t, o) → ∃ r xs, o = .ok r ∧ Opinions R j result criteria ds xs ∧
      Verdict (R.store t) j criteria xs r ∧ (∀ x ∈ xs, x.IsScore → clamp x = x) ∧
      ((∀ x ∈ xs, (clamp x).IsScore) ↔ .nan ∉ xs) ∧
      (((R.store t).get r).score.IsScore ↔ .nan ∉ xs) ∧
      (.nan ∈ xs → clamp .nan = .nan ∧ ((R.store t).get r).score = .nan ∧
        ((R.store t).get r).passed = false) ∧
      (Placed (R.store t) criteria → (R.store t).get ((R.store t).get r).unmet =
        ((criteria.zip xs).filter fun y =>
          unreached (R.store t) y.1.2 (clamp y.2) && decide (y.2 ≠ .nan)).map fun y => .text y.1.1) := by
  obtain ⟨hasked, he⟩ := evaluate_account h hon hcriteria hne hnum
  refine ⟨hasked, evaluate_brisk h hon hcriteria hne, fun t o ho => ?_⟩
  obtain he | ⟨_, r, xs, he, hxs, hv⟩ := he
  · cases he.symm.trans ho
  cases he.symm.trans ho
  have hxsne : xs ≠ [] := fun h => hne (List.length_eq_zero_iff.1 (hxs.length_eq ▸ congrArg List.length h))
  refine ⟨r, xs, rfl, hxs, hv, fun x _ => clamp_eq_self, ?_, ?_, fun hnan => ?_, hv.unmet_eq⟩
  · exact ⟨fun hall hnan => isScore_clamp_iff.1 (hall _ hnan) rfl,
      fun hnan x hx => isScore_clamp fun heq => hnan (heq ▸ hx)⟩
  · rw [hv.score]
    exact isScore_average_clamp_iff hxsne
  · have haverage : average (xs.map clamp) = .nan := average_nan (clamp_nan ▸ List.mem_map_of_mem hnan)
    rw [hv.passed, hv.score, haverage]
    exact ⟨clamp_nan, rfl, by unfold le; cases j.settings.threshold.place <;> rfl⟩

end Asking

/-! ## A criterion without a number -/

/-- Scorers that answer at once, with numbers. -/
theorem numeric_of_prompt {N b n : Nat} {body : Procedure → Routine Value} {R : Run body}
    {run : Handlers} {plan : Procedure → Outline Value} {α : Type} {x : Outline α} {ds : List Deed}
    {e : Ending α} (h : Account R run plan N b n (.now x) ds e)
    (hrun : ∀ c args, ∃ v x, run c args = .done v ∧ ∀ s : Store, s.readBinary64 v = .ok x) :
    Numeric R ds := by
  intro m c args inner t o hd
  obtain ⟨v, x, hv, hx⟩ := hrun c args
  cases (h.occurs (.here hd)).2 with
  | ask _ h =>
    rw [hv] at h
    obtain ⟨-, he⟩ := h.done_iff
    cases he
    exact ⟨v, x, rfl, hx _⟩

/-- A scorer that has no number for accuracy, and more than enough for the rest. -/
def unsureSetup : Setup :=
  ⟨default, ⟨fun _ args => .done (.float (if args.head? = some (.text "accuracy") then .nan else
    .infinite false)), default, some ⟨0⟩, [], [], none⟩⟩

/-- A goal with two criteria, each with a threshold of one. -/
def unsureStore : Store :=
  { Store.empty with
    criteria := #[⟨"", some Binary64.one⟩]
    dicts := #[[], [("accuracy", .criterion ⟨0⟩), ("style", .criterion ⟨0⟩)]]
    goals := #[⟨"report", "", "", ⟨0⟩, none, none, ⟨1⟩, none⟩] }

def unsureJudging : Outline (Ref .evaluation) :=
  Outlined.evaluate unsureSetup.desk.evaluator ⟨0⟩ .null

def unsureRun : Run unsureSetup.body :=
  .launched _ unsureStore ((unsureJudging >>= fun e => pure (.evaluation e)).erase unsureSetup.desk.call)

theorem unsureRun_account : ∃ ds,
    unsureSetup.Does unsureRun 11 0 1 unsureJudging ds (some (10, .ok ⟨0⟩)) ∧ Numeric unsureRun ds ∧
    ((unsureRun.store 10).get (⟨0⟩ : Ref .criterion)).threshold = some Binary64.one ∧
    (unsureRun.store 10).get ((unsureRun.store 10).get (⟨0⟩ : Ref .evaluation)).criteria =
      [("accuracy", .float .nan), ("style", .float Binary64.one)] ∧
    (unsureRun.store 10).get ((unsureRun.store 10).get (⟨0⟩ : Ref .evaluation)).unmet = [] ∧
    ((unsureRun.store 10).get (⟨0⟩ : Ref .evaluation)).score = .nan := by
  obtain ⟨ds, t, o, h⟩ := Run.launched_account unsureSetup.desk.call (Setup.erase_plan unsureSetup)
    (x := unsureJudging >>= fun e => pure (.evaluation e)) (N := 11) (s := unsureStore) rfl (by decide)
    (by decide +kernel)
  let lead := unsureJudging.leadsBy unsureSetup.desk.call unsureSetup.plan
    (Outline.leads unsureSetup.desk.call unsureSetup.plan 2) 1 (unsureRun.store 1)
  have hend : lead.map (fun y => (y.1, y.2.1.toOption)) = some (10, some ⟨0⟩) := by decide +kernel
  have hthreshold : lead.map (fun y => (y.2.2.get (⟨0⟩ : Ref .criterion)).threshold) =
      some (some Binary64.one) := by decide +kernel
  have hscores : lead.map (fun y => y.2.2.get (y.2.2.get (⟨0⟩ : Ref .evaluation)).criteria) =
      some [("accuracy", .float .nan), ("style", .float Binary64.one)] := by decide +kernel
  have hunmet : lead.map (fun y => y.2.2.get (y.2.2.get (⟨0⟩ : Ref .evaluation)).unmet) = some [] := by
    decide +kernel
  have hscore : lead.map (fun y => (y.2.2.get (⟨0⟩ : Ref .evaluation)).score) = some .nan := by
    decide +kernel
  obtain ⟨⟨t', o', u⟩, hy, hdata⟩ := Option.map_eq_some_iff.1 hend
  rw [hy] at hthreshold hscores hunmet hscore
  simp only [Option.map_some, Option.some.injEq] at hthreshold hscores hunmet hscore
  cases o' with
  | error f => cases hdata
  | ok r =>
    cases hdata
    rcases h.bind with ⟨ds₁, m, y, ds₂, h₁, -, -⟩ | ⟨m, f, h₁, -⟩ | ⟨-, he⟩
    · obtain ⟨-, rfl, he, rfl⟩ := h₁.leadsBy (fun h hx => h.leads hx) hy
      cases he
      exact ⟨ds₁, h₁, numeric_of_prompt h₁ fun c args => ⟨_, _, rfl, fun s => rfl⟩, hthreshold,
        hscores, hunmet, hscore⟩
    · obtain ⟨-, -, he, -⟩ := h₁.leadsBy (fun h hx => h.leads hx) hy
      cases he
    · cases he

theorem evaluation_of_numbers_unsure : ∃ ds xs,
    unsureSetup.Does unsureRun 11 0 1 unsureJudging ds (some (10, .ok ⟨0⟩)) ∧
    unsureSetup.desk.evaluator.settings.enabled = true ∧
    (unsureRun.store 1).get ((unsureRun.store 1).get (⟨0⟩ : Ref .goal)).criteria =
      [("accuracy", .criterion ⟨0⟩), ("style", .criterion ⟨0⟩)] ∧ Numeric unsureRun ds ∧
    Opinions unsureRun unsureSetup.desk.evaluator .null
      [("accuracy", .criterion ⟨0⟩), ("style", .criterion ⟨0⟩)] ds xs ∧ .nan ∈ xs ∧
    ((unsureRun.store 10).get (⟨0⟩ : Ref .evaluation)).passed = false := by
  obtain ⟨ds, h, hnum, -, -, -, hscore⟩ := unsureRun_account
  obtain ⟨-, -, hall⟩ := evaluation_of_numbers (j := unsureSetup.desk.evaluator) h rfl rfl
    (List.cons_ne_nil _ _) hnum
  obtain ⟨r, xs, heq, hxs, -, -, -, hiff, hnan, -⟩ := hall _ _ rfl
  cases heq
  have hmem : Binary64.nan ∈ xs := by
    by_contra hne
    exact not_isScore_nan (hscore ▸ hiff.2 hne)
  exact ⟨ds, xs, h, rfl, rfl, hnum, hxs, hmem, (hnan hmem).2.2⟩

/-- A score can lie outside the range from zero to one, and so can the average; and a criterion with a
threshold that is not reached can be left out. -/
theorem unsure_score_stays : ∃ ds,
    unsureSetup.Does unsureRun 11 0 1 unsureJudging ds (some (10, .ok ⟨0⟩)) ∧ Numeric unsureRun ds ∧
    ("accuracy", .float .nan) ∈
      (unsureRun.store 10).get ((unsureRun.store 10).get (⟨0⟩ : Ref .evaluation)).criteria ∧
    ¬IsScore .nan ∧ ¬((unsureRun.store 10).get (⟨0⟩ : Ref .evaluation)).score.IsScore ∧
    unreached (unsureRun.store 10) (.criterion ⟨0⟩) .nan = true ∧
    (unsureRun.store 10).get ((unsureRun.store 10).get (⟨0⟩ : Ref .evaluation)).unmet = [] := by
  obtain ⟨ds, h, hnum, hthreshold, hscores, hunmet, hscore⟩ := unsureRun_account
  refine ⟨ds, h, hnum, hscores ▸ List.mem_cons_self, not_isScore_nan, hscore ▸ not_isScore_nan, ?_, hunmet⟩
  unfold unreached
  dsimp only
  rw [hthreshold]
  rfl

end Evaluation

end Conductor
