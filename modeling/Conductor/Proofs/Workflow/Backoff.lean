import Conductor.Proofs.Workflow.Propagation
import Conductor.Proofs.Workflow.Tries

/-!
# Delay and factor of a retry step

The delay and the backoff factor of a retry step say how long it pauses. They are meant to change
nothing else, and two steps that differ in them only do go the same way: what a try shows to the loop
(`Visit.Try.view`) decides whether another one follows (`Visit.Continues`) and what the step ends with
(`Visit.conclude`), and neither of these mentions the waits.

The exception is a wait that is no floating-point number. It fails the step in place of the target's
failure, though tries are left, and it may be the power, the product or the text of the announcement that
fails (`overflow_replaces_failure`).

**Theorem (`backoff_waits_only`).** Two steps that differ in delay and factor only, and whose targets and
answers do the same, run the target equally often, ask and note the same, and end alike; unless one of
them fails because of such a wait.
-/

namespace Conductor

open Visit (Scene)
open Visit.Outlined (dispatch)

/-! ## What is seen of the deeds of a retry step -/

namespace Deed

/-- How a part has ended. -/
def ending? : Deed → Option (Ending Value)
  | .part _ _ _ _ e => some e
  | _ => none

/-- The failure and the number that are asked about, and how this has been answered. -/
def question? : Deed → Option (Failure × Int × Ending Value)
  | .ask _ _ _ [.failure f, .int i] _ e => some (f, i, e)
  | _ => none

/-- The failure that is noted, and its name. -/
def note? : Deed → Option (String × Failure)
  | .remark _ (.notes _ name f) => some (name, f)
  | _ => none

/-- How the parts among deeds have ended, in order. -/
def endings (ds : List Deed) : List (Ending Value) := ds.filterMap ending?

/-- What has been asked about failures and numbers, in order. -/
def questions (ds : List Deed) : List (Failure × Int × Ending Value) := ds.filterMap question?

/-- The failures that have been noted, in order. -/
def notes (ds : List Deed) : List (String × Failure) := ds.filterMap note?

end Deed

/-- An outcome, but for the number of its failure. -/
def outcomeOf {α : Type} (o : Except Failure α) : Except Cause α := o.mapError Failure.cause

/-- What an answer says: whether to go on, or why it has failed. -/
def Run.answer {body : Procedure → Routine Value} (R : Run body) :
    Ending Value → Option (Except String Bool)
  | none => none
  | some (s, .ok v) => some (.ok ((R.store s).isTruthy v))
  | some (_, .error f) => some (.error f.message)

namespace Visit

/-! ## What a try shows -/

/-- What a try shows to the loop: the outcome of the target, and the answer if there is a question. -/
abbrev View := Option (Except Cause Value) × Option (Option (Except String Bool))

/-- Another try follows the one of a given number, if there are so many retries. -/
def Continues (retries i : Nat) (v : View) : Prop :=
  (∃ c, v.1 = some (.error c)) ∧ i < retries ∧ (v.2 = none ∨ v.2 = some (some (.ok true)))

/-- What the step ends with, by the last try. -/
def conclude (step : String) : View → Except Cause Value
  | (_, some (some (.error reason))) => .error (.retryPredicateFailed step reason)
  | (o, _) => o.getD (.ok .null)

/-- What is asked behind a try. -/
def askedBy (i : Nat) : View → List (Cause × Int)
  | (some (.error c), some _) => [(c, i)]
  | _ => []

/-- What is noted of a try. -/
def notedBy (target : String) (i : Nat) : View → List (String × Cause)
  | (some (.error c), _) => [(s!"{target}_attempt_{i}", c)]
  | _ => []

namespace Try

variable {body : Procedure → Routine Value} {R : Run body} {σ : Scene} {step : String} {r : RetryStep}
  {b i m t : Nat} {x : Try} {o : Except Failure Value} {f : Failure}

def view (R : Run body) (x : Try) : View :=
  (x.ending.map fun e => outcomeOf e.2, x.asked.map fun a => R.answer a.2.2)

theorem Fails.view (h : x.Fails R σ r b i t f) : (x.view R).1 = some (.error f.cause) := by
  rw [Try.view, h.ended]
  rfl

theorem Answered.view {e : Ending Value} (h : x.Answered r e) : (x.view R).2 = some (R.answer e) := by
  obtain ⟨q, inner, -, hx⟩ := h
  rw [Try.view, hx]
  rfl

theorem Agreed.view {u : Nat} (h : x.Agreed R r t u) :
    (x.view R).2 = none ∨ (x.view R).2 = some (some (.ok true)) := by
  cases h with
  | unasked _ hx =>
    rw [Try.view, hx]
    exact Or.inl rfl
  | answered ha hv =>
    rw [ha.view, Run.answer, hv]
    exact Or.inr rfl

theorem Again.continues (h : x.Again R σ r b i m) : Continues r.maxRetries.toNat i (x.view R) := by
  obtain ⟨t, f, u, d, hf, hi, hu, -⟩ := h
  exact ⟨⟨f.cause, hf.view⟩, hi, hu.view⟩

theorem Settles.not_continues (h : x.Settles R σ step r b i t o) : ¬Continues r.maxRetries.toNat i (x.view R) := by
  rintro ⟨⟨c, hc⟩, hi, hv⟩
  cases h with
  | value h =>
    rw [Try.view, h] at hc
    cases hc
  | spent _ _ hi' => omega
  | refused _ _ ha hfalse =>
    rw [ha.view, Run.answer, hfalse] at hv
    rcases hv with hv | hv <;> cases hv
  | raised _ _ ha =>
    rw [ha.view, Run.answer] at hv
    rcases hv with hv | hv <;> cases hv

theorem Settles.conclude (h : x.Settles R σ step r b i t o) :
    outcomeOf o = Visit.conclude step (x.view R) := by
  cases h with
  | value h hx =>
    rw [Try.view, h, hx]
    rfl
  | spent h hx =>
    rw [Try.view, h.ended, hx]
    rfl
  | refused h _ ha hfalse =>
    have h₁ := h.view
    have h₂ := ha.view (R := R)
    rw [Run.answer, hfalse] at h₂
    rw [← Prod.eta (x.view R), h₁, h₂]
    rfl
  | raised h _ ha =>
    have h₂ := ha.view (R := R)
    rw [Run.answer] at h₂
    rw [← Prod.eta (x.view R), h₂]
    rfl

/-- A try that is over: whether there has been a question is up to its number and the user code of the
step, and it has been answered. -/
inductive Closed (r : RetryStep) (i : Nat) (x : Try) : Prop
  | value {t : Nat} {v : Value} (h : x.ending = some (t, .ok v)) (hx : x.asked = none)
  | unasked {t : Nat} {f : Failure} (h : x.ending = some (t, .error f)) (hx : x.asked = none)
    (hr : i < r.maxRetries.toNat → r.shouldRetry = none)
  | asked {t : Nat} {f : Failure} {q : Ref .callable} {inner : List Deed} {e : Nat × Except Failure Value}
    (h : x.ending = some (t, .error f)) (hx : x.asked = some (q, inner, some e))
    (hi : i < r.maxRetries.toNat) (hr : r.shouldRetry = some q)

theorem Answered.closed {e : Nat × Except Failure Value} (h : x.ending = some (t, .error f))
    (hi : i < r.maxRetries.toNat) (ha : x.Answered r (some e)) : Closed r i x := by
  obtain ⟨q, inner, hr, hx⟩ := ha
  exact .asked h hx hi hr

theorem Agreed.closed {u : Nat} (h : x.ending = some (t, .error f)) (hi : i < r.maxRetries.toNat)
    (hu : x.Agreed R r t u) : Closed r i x := by
  cases hu with
  | unasked hr hx => exact .unasked h hx fun _ => hr
  | answered ha => exact ha.closed h hi

theorem Again.closed (h : x.Again R σ r b i m) : Closed r i x := by
  obtain ⟨t, f, u, d, hf, hi, hu, -⟩ := h
  exact hu.closed hf.ended hi

theorem Settles.closed (h : x.Settles R σ step r b i t o) : Closed r i x := by
  cases h with
  | value h hx => exact .value h hx
  | spent h hx hi => exact .unasked h.ended hx fun hlt => absurd hi hlt.ne
  | refused h hi ha => exact ha.closed h.ended hi
  | raised h hi ha => exact ha.closed h.ended hi

theorem Stuck.closed (h : x.Stuck R σ r b i o) : Closed r i x := by
  obtain ⟨t, u, f, g, hf, hi, hu, -⟩ := h
  exact hu.closed hf.ended hi

/-- Rounds that are over and have the same outcome and the same answer show the same. -/
theorem Closed.view_eq {body' : Procedure → Routine Value} {R' : Run body'} {r' : RetryStep} {y : Try}
    (hx : Closed r i x) (hy : Closed r' i y) (hmax : r'.maxRetries = r.maxRetries)
    (hretry : r'.shouldRetry = r.shouldRetry)
    (hrun : ∀ {t o t' o'}, x.ending = some (t, o) → y.ending = some (t', o') →
      outcomeOf o = outcomeOf o')
    (hanswer : ∀ {t f q inner e t' f' q' inner' e'}, x.ending = some (t, .error f) →
      x.asked = some (q, inner, e) → y.ending = some (t', .error f') →
      y.asked = some (q', inner', e') → R.answer e = R'.answer e') :
    x.view R = y.view R' := by
  cases hx with
  | value h ha =>
    cases hy with
    | value h' ha' => simp only [view, h, ha, h', ha', Option.map, hrun h h']
    | unasked h' | asked h' => cases hrun h h'
  | unasked h ha hr =>
    cases hy with
    | value h' => cases hrun h h'
    | unasked h' ha' => simp only [view, h, ha, h', ha', Option.map, hrun h h']
    | asked h' ha' hi hr' =>
      rw [hmax] at hi
      rw [hretry, hr hi] at hr'
      cases hr'
  | asked h ha hi hr =>
    cases hy with
    | value h' => cases hrun h h'
    | unasked h' ha' hr' =>
      rw [hmax, hretry] at hr'
      rw [hr' hi] at hr
      cases hr
    | asked h' ha' =>
      simp only [view, h, ha, h', ha', Option.map, hrun h h', hanswer h ha h' ha']

end Try

namespace Rounds

variable {body : Procedure → Routine Value} {R : Run body} {N : Nat} {σ : Scene} {step : String}
  {r : RetryStep} {b first i n t : Nat} {ds : List Deed} {o : Except Failure Value} {x : Try}
  {l : List Try}

/-- In a step that is over all tries are. -/
theorem closed (h : Rounds R N σ step r b first n ds (some (t, o)) l) (hx : l[i]? = some x) :
    x.Closed r (first + i) := by
  cases hy : l[i + 1]? with
  | some y => exact (h.again i x y hx hy).closed
  | none =>
    obtain ⟨j, y, hj, hy', hends⟩ := h.ends t o rfl
    have hi := (List.getElem?_eq_some_iff.1 hx).1
    have hle := List.getElem?_eq_none_iff.1 hy
    obtain rfl : i = j := by omega
    rw [hx] at hy'
    cases hy'
    exact hends.elim Try.Settles.closed Try.Stuck.closed

/-! ## What is seen of tries -/

/-- What is seen of the deeds of tries is seen try by try. -/
theorem seen {β : Type} {see : Deed → Option β} {G : Nat → View → List β}
    (h : ∀ i x, (Try.deeds σ r b i x).filterMap see = G i (x.view R)) (l : List Try) (first : Nat) :
    ((l.zipIdx first).flatMap fun x => x.1.deeds σ r b x.2).filterMap see =
      ((l.map (Try.view R)).zipIdx first).flatMap fun v => G v.2 v.1 := by
  induction l generalizing first with
  | nil => rfl
  | cons x l ih =>
    rw [List.map_cons, List.zipIdx_cons, List.zipIdx_cons, List.flatMap_cons, List.flatMap_cons,
      List.filterMap_append, h, ih]

theorem endings_deeds (i : Nat) (x : Try) : Deed.endings (x.deeds σ r b i) = [x.ending] := by
  obtain ⟨start, inner, e, a⟩ := x
  rcases e with _ | ⟨t, f | v⟩
  · rfl
  · cases a <;> rfl
  · rfl

theorem endings_eq (l : List Try) (first : Nat) :
    Deed.endings ((l.zipIdx first).flatMap fun x => x.1.deeds σ r b x.2) = l.map Try.ending := by
  induction l generalizing first with
  | nil => rfl
  | cons x l ih =>
    rw [List.zipIdx_cons, List.flatMap_cons, Deed.endings, List.filterMap_append]
    exact congrArg₂ _ (endings_deeds first x) (ih (first + 1))

theorem questions_deeds (i : Nat) (x : Try) :
    ((x.deeds σ r b i).filterMap fun d => (Deed.question? d).map fun q => (q.1.cause, q.2.1)) =
      askedBy i (x.view R) := by
  obtain ⟨start, inner, e, a⟩ := x
  rcases e with _ | ⟨t, f | v⟩
  · rfl
  · cases a <;> rfl
  · rfl

theorem notes_deeds (i : Nat) (x : Try) :
    ((x.deeds σ r b i).filterMap fun d => (Deed.note? d).map fun p => (p.1, p.2.cause)) =
      notedBy r.target i (x.view R) := by
  obtain ⟨start, inner, e, a⟩ := x
  rcases e with _ | ⟨t, f | v⟩
  · rfl
  · cases a <;> rfl
  · rfl

/-- A question is asked about the failure and the number of its try. -/
theorem mem_questions {t : Nat} {f : Failure} {q : Ref .callable} {inner : List Deed}
    {e : Ending Value} (hx : l[i]? = some x) (hf : x.ending = some (t, .error f))
    (ha : x.asked = some (q, inner, e)) :
    (f, (i : Int), e) ∈ Deed.questions (l.zipIdx.flatMap fun x => x.1.deeds σ r b x.2) := by
  have hmem : (x, i) ∈ l.zipIdx := List.mem_zipIdx_iff_getElem?.2 hx
  refine List.mem_filterMap.2 ⟨.ask (t + 2) .retrying q [.failure f, .int i] inner e,
    List.mem_flatMap.2 ⟨(x, i), hmem, ?_⟩, rfl⟩
  simp [Try.deeds, hf, Try.question, ha]

end Rounds

/-- Two lists of deeds of retry steps show the same: the outcomes of the target, what is asked, and what
is noted, but for the numbers of failures. -/
structure Same (ds ds' : List Deed) : Prop where
  runs : (Deed.endings ds).map (Option.map fun e => outcomeOf e.2) =
    (Deed.endings ds').map (Option.map fun e => outcomeOf e.2)
  asked : (Deed.questions ds).map (fun q => (q.1.cause, q.2.1)) =
    (Deed.questions ds').map fun q => (q.1.cause, q.2.1)
  noted : (Deed.notes ds).map (fun p => (p.1, p.2.cause)) =
    (Deed.notes ds').map fun p => (p.1, p.2.cause)

/-- The targets of two retry steps have the same outcomes, run by run. -/
def SameOutcomes (ds ds' : List Deed) : Prop :=
  ∀ (i : Nat) ⦃t t' : Nat⦄ ⦃o o' : Except Failure Value⦄, (Deed.endings ds)[i]? = some (some (t, o)) →
    (Deed.endings ds')[i]? = some (some (t', o')) → outcomeOf o = outcomeOf o'

/-- What is asked in two retry steps about the same number is answered alike. -/
def SameAnswers {body body' : Procedure → Routine Value} (R : Run body) (R' : Run body')
    (ds ds' : List Deed) : Prop :=
  ∀ (i : Int) ⦃f f' : Failure⦄ ⦃e e' : Ending Value⦄, (f, i, e) ∈ Deed.questions ds →
    (f', i, e') ∈ Deed.questions ds' → R.answer e = R'.answer e'

/-- A retry step has failed because the wait behind one of its tries is impossible, though it was not
the last one allowed. -/
def Overflows (σ : Scene) (r : RetryStep) (ds : List Deed) (o : Except Failure Value) : Prop :=
  ∃ i f, i < r.maxRetries.toNat ∧ (Deed.endings ds).length = i + 1 ∧ σ.WaitFails r i f.cause ∧
    o = .error f

namespace Rounds

variable {body body' : Procedure → Routine Value} {R : Run body} {R' : Run body'} {N N' : Nat}
  {σ σ' : Scene} {step : String} {r r' : RetryStep} {b b' n n' t t' : Nat} {ds ds' : List Deed}
  {o o' : Except Failure Value} {l l' : List Try}

/-- Rounds that show the same are seen to do the same. -/
theorem same_of_views (h : Rounds R N σ step r b 0 n ds (some (t, o)) l)
    (h' : Rounds R' N' σ' step r' b' 0 n' ds' (some (t', o')) l') (htarget : r'.target = r.target)
    (hl : l.map (Try.view R) = l'.map (Try.view R')) : Same ds ds' := by
  rw [h.deeds, h'.deeds]
  -- Each reading of deeds is a function of what the tries show.
  have hread : ∀ {β : Type} {see : Deed → Option β} (G : Nat → View → List β),
      (∀ i x, (Try.deeds σ r b i x).filterMap see = G i (x.view R)) →
      (∀ i x, (Try.deeds σ' r' b' i x).filterMap see = G i (x.view R')) →
      (l.zipIdx.flatMap fun x => x.1.deeds σ r b x.2).filterMap see =
        (l'.zipIdx.flatMap fun x => x.1.deeds σ' r' b' x.2).filterMap see := by
    intro β see G hG hG'
    rw [seen hG, seen hG', hl]
  refine ⟨?_, ?_, ?_⟩
  · rw [endings_eq, endings_eq, List.map_map, List.map_map]
    have hfst := congrArg (List.map Prod.fst) hl
    rwa [List.map_map, List.map_map] at hfst
  · rw [Deed.questions, Deed.questions, List.map_filterMap, List.map_filterMap]
    exact hread askedBy questions_deeds questions_deeds
  · rw [Deed.notes, Deed.notes, List.map_filterMap, List.map_filterMap]
    exact hread (notedBy r.target) notes_deeds (htarget ▸ notes_deeds)

theorem overflows {i : Nat} {x : Try} (h : Rounds R N σ step r b 0 n ds (some (t, o)) l)
    (hi : l.length = i + 1) (hx : x.Stuck R σ r b i o) : Overflows σ r ds o := by
  obtain ⟨s, u, f, g, -, hlt, -, hw, rfl⟩ := hx
  refine ⟨i, g, hlt, ?_, hw, rfl⟩
  rw [h.deeds, endings_eq, List.length_map, hi]

/-- A step that is not stuck does not make fewer tries than another one that shows the same. -/
theorem length_le_of_views (h : Rounds R N σ step r b 0 n ds (some (t, o)) l)
    (h' : Rounds R' N' σ' step r' b' 0 n' ds' (some (t', o')) l') (hmax : r'.maxRetries = r.maxRetries)
    (hview : ∀ (i : Nat) (x y : Try), l[i]? = some x → l'[i]? = some y → x.view R = y.view R')
    (hstuck : ¬Overflows σ r ds o) :
    l'.length ≤ l.length := by
  by_contra hlt
  obtain ⟨i, x, hi, hx, hends⟩ := h.ends t o rfl
  obtain ⟨y, hy⟩ : ∃ y, l'[i]? = some y := ⟨_, List.getElem?_eq_getElem (by omega)⟩
  obtain ⟨z, hz⟩ : ∃ z, l'[i + 1]? = some z := ⟨_, List.getElem?_eq_getElem (by omega)⟩
  have hagain := (h'.again i y z hy hz).continues
  rw [Nat.zero_add] at hends hagain
  rw [hmax, ← hview i x y hx hy] at hagain
  rcases hends with hsettles | hx'
  · exact hsettles.not_continues hagain
  · exact hstuck (h.overflows hi hx')

/-- **Steps with the same retries and the same user code** whose targets and answers do the same show
the same, unless one of them is stuck. -/
theorem views_eq (h : Rounds R N σ step r b 0 n ds (some (t, o)) l)
    (h' : Rounds R' N' σ' step r' b' 0 n' ds' (some (t', o')) l') (hmax : r'.maxRetries = r.maxRetries)
    (hretry : r'.shouldRetry = r.shouldRetry) (hruns : SameOutcomes ds ds')
    (hanswers : SameAnswers R R' ds ds') (hstuck : ¬Overflows σ r ds o)
    (hstuck' : ¬Overflows σ' r' ds' o') :
    l.map (Try.view R) = l'.map (Try.view R') := by
  have hview : ∀ (i : Nat) (x y : Try), l[i]? = some x → l'[i]? = some y →
      x.view R = y.view R' := by
    intro i x y hx hy
    have hcx := h.closed hx
    have hcy := h'.closed hy
    rw [Nat.zero_add] at hcx hcy
    have hex : (Deed.endings ds)[i]? = some x.ending := by
      rw [h.deeds, endings_eq, List.getElem?_map, hx, Option.map_some]
    have hey : (Deed.endings ds')[i]? = some y.ending := by
      rw [h'.deeds, endings_eq, List.getElem?_map, hy, Option.map_some]
    refine hcx.view_eq hcy hmax hretry (fun he he' => ?_) fun hf ha hf' ha' => ?_
    · rw [he] at hex
      rw [he'] at hey
      exact hruns i hex hey
    · have hqx := mem_questions (σ := σ) (r := r) (b := b) hx hf ha
      have hqy := mem_questions (σ := σ') (r := r') (b := b') hy hf' ha'
      rw [← h.deeds] at hqx
      rw [← h'.deeds] at hqy
      exact hanswers i hqx hqy
  have hlen : l.length = l'.length := by
    refine Nat.le_antisymm ?_ (h.length_le_of_views h' hmax hview hstuck)
    exact h'.length_le_of_views h hmax.symm (fun i x y hx hy => (hview i y x hy hx).symm) hstuck'
  refine List.ext_getElem? fun i => ?_
  rw [List.getElem?_map, List.getElem?_map]
  cases hx : l[i]? with
  | none =>
    have hle := List.getElem?_eq_none_iff.1 hx
    rw [List.getElem?_eq_none_iff.2 (hlen ▸ hle)]
    rfl
  | some x =>
    have hlt := (List.getElem?_eq_some_iff.1 hx).1
    obtain ⟨y, hy⟩ : ∃ y, l'[i]? = some y := ⟨_, List.getElem?_eq_getElem (hlen ▸ hlt)⟩
    rw [hy, Option.map_some, Option.map_some, hview i x y hx hy]

/-- What has ended among the deeds of a retry step is a run of its target. -/
theorem run_mem {e : Ending Value} (h : Rounds R N σ step r b 0 n ds (some (t, o)) l)
    (he : e ∈ Deed.endings ds) :
    ∃ m inner, .part m b (.visit r.target σ.workflow σ.context) inner e ∈ ds := by
  rw [h.deeds, endings_eq] at he
  obtain ⟨x, hx, rfl⟩ := List.mem_map.1 he
  obtain ⟨i, hi⟩ := List.mem_iff_getElem?.1 hx
  refine ⟨x.start, x.inner, ?_⟩
  rw [h.deeds]
  exact List.mem_flatMap.2 ⟨(x, i), List.mem_zipIdx_iff_getElem?.2 hi, List.mem_cons_self⟩

/-- What has been asked has been asked of the user code of the step. -/
theorem question_mem {f : Failure} {j : Int} {e : Ending Value}
    (h : Rounds R N σ step r b 0 n ds (some (t, o)) l) (he : (f, j, e) ∈ Deed.questions ds) :
    ∃ m q inner, r.shouldRetry = some q ∧ .ask m .retrying q [.failure f, .int j] inner e ∈ ds := by
  obtain ⟨d, hd, hq⟩ := List.mem_filterMap.1 he
  have hd' := hd
  rw [h.deeds] at hd'
  obtain ⟨⟨x, i⟩, hx, hdx⟩ := List.mem_flatMap.1 hd'
  have hclosed : x.Closed r (0 + i) := h.closed (List.mem_zipIdx_iff_getElem?.1 hx)
  -- Of the deeds of a try only the last one can be a question.
  cases hclosed with
  | value hend ha =>
    simp only [Try.deeds, hend, List.mem_singleton] at hdx
    subst hdx
    cases hq
  | unasked hend ha =>
    simp only [Try.deeds, hend, Try.question, ha, Option.toList_none, List.map_nil, List.mem_cons,
      List.not_mem_nil, or_false] at hdx
    rcases hdx with rfl | rfl <;> cases hq
  | asked hend ha _ hr =>
    simp only [Try.deeds, hend, Try.question, ha, Option.toList_some, List.map_cons, List.map_nil,
      List.mem_cons, List.not_mem_nil, or_false] at hdx
    rcases hdx with rfl | rfl | rfl
    · cases hq
    · cases hq
    · cases hq
      exact ⟨_, _, _, hr, hd⟩

/-- What a step shows last is what it ends with. -/
theorem concludes (h : Rounds R N σ step r b 0 n ds (some (t, o)) l) (hstuck : ¬Overflows σ r ds o) :
    ∃ v, (l.map (Try.view R)).getLast? = some v ∧ outcomeOf o = conclude step v := by
  obtain ⟨i, x, hi, hx, hends⟩ := h.ends t o rfl
  rw [Nat.zero_add] at hends
  refine ⟨x.view R, ?_, ?_⟩
  · rw [List.getLast?_map, List.getLast?_eq_getElem?, hi, Nat.add_sub_cancel, hx]
    rfl
  · exact (hends.resolve_right fun hx' => hstuck (h.overflows hi hx')).conclude

/-- A step that has used all its tries ends as its target has in the last one. -/
theorem exhausted (h : Rounds R N σ step r b 0 n ds (some (t, o)) l)
    (hl : l.length = r.maxRetries.toNat + 1) : ∃ s, (Deed.endings ds).getLast? = some (some (s, o)) := by
  obtain ⟨i, x, hi, hx, hends⟩ := h.ends t o rfl
  have hlast : (Deed.endings ds).getLast? = some x.ending := by
    rw [h.deeds, endings_eq, List.getLast?_map, List.getLast?_eq_getElem?, hi, Nat.add_sub_cancel, hx]
    rfl
  rw [hlast]
  rw [Nat.zero_add] at hends
  rcases hends with hsettles | ⟨s, u, f, g, -, hlt, -⟩
  · cases hsettles with
    | value he => exact ⟨t, congrArg some he⟩
    | spent hf => exact ⟨_, congrArg some hf.ended⟩
    | refused _ hlt => omega
    | raised _ hlt => omega
  · omega

end Rounds

end Visit

/-! ## Two settings -/

namespace Workflow

variable {σ σ' : Setup} {R : Run σ.body} {R' : Run σ'.body} {N N' b b' n n' t t' : Nat}
  {ds ds' : List Deed} {o o' : Except Failure Value} {w w' : Ref .workflow} {c c' : Ref .context}
  {step step' : Step} {r : RetryStep} {delay' backoff' : Option Number}
  {g g' : Except Failure Value → Routine Value}

/-- **Delay and factor change only the waiting**, unless a wait is impossible. Take two retry steps that
differ in delay and backoff factor only, in any two runs in which they come to their ends, such that their
targets have the same outcomes, run by run, and what is asked about the same number is answered alike.
They run the target equally often, with the same outcomes, ask the same, note the same and end with the
same outcome; and a step that has used all its tries ends as its target has in the last one. Otherwise
one of them has failed in place of its target because of a wait. -/
theorem backoff_waits_only (hid : step'.id = step.id) (hk : step.kind = .retry r)
    (hk' : step'.kind = .retry { r with delay := delay', backoff := backoff' }) (hn : n ≤ N)
    (hn' : n' ≤ N')
    (h : Account R σ.desk.call σ.plan N b n (.now (dispatch (σ.scene w c) step)) ds (some (t, o)))
    (h' : Account R' σ'.desk.call σ'.plan N' b' n' (.now (dispatch (σ'.scene w' c') step')) ds'
      (some (t', o')))
    (hr : (R.moment n).active = some (b, ((σ.scene w c).dispatch step).thenOn g))
    (hr' : (R'.moment n').active = some (b', ((σ'.scene w' c').dispatch step').thenOn g'))
    (hc : Deed.Calm ds) (hc' : Deed.Calm ds')
    (hruns : Visit.SameOutcomes ds ds') (hanswers : Visit.SameAnswers R R' ds ds') :
    (Visit.Same ds ds' ∧ outcomeOf o = outcomeOf o' ∧
        ((Deed.endings ds).length = r.maxRetries.toNat + 1 →
          (∃ s, (Deed.endings ds).getLast? = some (some (s, o))) ∧
            ∃ s, (Deed.endings ds').getLast? = some (some (s, o')))) ∨
      Visit.Overflows (σ.scene w c) r ds o ∨
        Visit.Overflows (σ'.scene w' c') { r with delay := delay', backoff := backoff' } ds' o' := by
  obtain ⟨l, hl⟩ := exists_tries hk hn h hr hc
  obtain ⟨l', hl'⟩ := exists_tries hk' hn' h' hr' hc'
  rw [hid] at hl'
  by_cases hstuck : Visit.Overflows (σ.scene w c) r ds o
  · exact Or.inr (Or.inl hstuck)
  by_cases hstuck' :
      Visit.Overflows (σ'.scene w' c') { r with delay := delay', backoff := backoff' } ds' o'
  · exact Or.inr (Or.inr hstuck')
  have hviews := hl.views_eq hl' rfl rfl hruns hanswers hstuck hstuck'
  refine Or.inl ⟨hl.same_of_views hl' rfl hviews, ?_, fun hlen => ?_⟩
  · obtain ⟨v, hv, ho⟩ := hl.concludes hstuck
    obtain ⟨v', hv', ho'⟩ := hl'.concludes hstuck'
    rw [hviews, hv'] at hv
    cases hv
    exact ho.trans ho'.symm
  · have hlen' : l'.length = r.maxRetries.toNat + 1 := by
      rw [hl.deeds, Visit.Rounds.endings_eq, List.length_map] at hlen
      rw [← hlen, ← List.length_map (Visit.Try.view R'), ← hviews, List.length_map]
    rw [hl.deeds, Visit.Rounds.endings_eq, List.length_map] at hlen
    exact ⟨hl.exhausted hlen, hl'.exhausted hlen'⟩

/-! ## A stubborn target -/

/-- Two to the power of 700. -/
def steepFactor : Binary64 := .finite false ⟨1723 * Nat.pow 2 52, by decide⟩

/-- **The wait replaces the failure**: with a factor of one the step makes four tries and fails like its
target. With a steep factor the third power is no floating-point number, and the step fails behind the
third try because of that, though there is no delay that the power could be multiplied with. -/
theorem overflow_replaces_failure :
    (((stubbornRun (.int 0) (.int 1)).moment 98).outcome? 0).map outcomeOf =
      some (.error (.raised .custom "down")) ∧
    (((stubbornRun (.int 0) (.int 1)).store 98).noted ⟨0⟩ "work_attempt_3").isSome = true ∧
    (((stubbornRun (.int 0) (.float steepFactor)).moment 76).outcome? 0).map outcomeOf =
      some (.error .powerTooLarge) ∧
    (((stubbornRun (.int 0) (.float steepFactor)).store 76).noted ⟨0⟩ "work_attempt_3").isSome =
      false := by
  decide +kernel

/-- The target of a stubborn step fails at all times, if a visit fails that begins at any of them. -/
theorem stubborn_outcomes {delay backoff : Number} {N t : Nat} {ds : List Deed}
    {o : Except Failure Value} (hN : 1 ≤ N)
    (h : Account (stubbornRun delay backoff) stubbornSetup.desk.call stubbornSetup.plan N 0 1
      (.now (dispatch (stubbornSetup.scene ⟨0⟩ ⟨0⟩) (stubbornStep delay backoff))) ds (some (t, o)))
    (hc : Deed.Calm ds)
    (hlead : ∀ m < N + 1, (((stubbornSetup.plan (.visit "work" ⟨0⟩ ⟨0⟩)).leads stubbornSetup.desk.call
      stubbornSetup.plan 3 m ((stubbornRun delay backoff).store m)).map fun z => outcomeOf z.2.1) =
        some (.error (.raised .custom "down")))
    {i s : Nat} {x : Except Failure Value} (hx : (Deed.endings ds)[i]? = some (some (s, x))) :
    outcomeOf x = .error (.raised .custom "down") := by
  obtain ⟨l, hl⟩ := exists_tries (r := stubbornTries delay backoff) rfl hN h
    (stubborn_turn delay backoff) hc
  obtain ⟨m, inner, hpart⟩ := hl.run_mem (List.mem_of_getElem? hx)
  obtain ⟨-, hacc, hend⟩ := h.mem _ hpart
  obtain ⟨s', hs, hst⟩ := hend t o rfl
  cases hs
  rcases hacc.part_cases with ⟨k, -, hk⟩ | ⟨-, he⟩
  · have hks : k ≤ s := hk.ending_ge rfl
    have htN : t ≤ N := h.ending_le hN rfl
    obtain ⟨⟨t', o', u⟩, hz, ho⟩ := Option.map_eq_some_iff.1 (hlead k (by omega))
    obtain ⟨-, -, rfl, -⟩ := hk.leads hz
    exact ho
  · cases he

/-- Whatever is asked in a stubborn step, the answer is yes. -/
theorem stubborn_answers {delay backoff : Number} {N t : Nat} {ds : List Deed}
    {o : Except Failure Value} (hN : 1 ≤ N)
    (h : Account (stubbornRun delay backoff) stubbornSetup.desk.call stubbornSetup.plan N 0 1
      (.now (dispatch (stubbornSetup.scene ⟨0⟩ ⟨0⟩) (stubbornStep delay backoff))) ds (some (t, o)))
    (hc : Deed.Calm ds) {f : Failure} {i : Int} {e : Ending Value}
    (he : (f, i, e) ∈ Deed.questions ds) : (stubbornRun delay backoff).answer e = some (.ok true) := by
  obtain ⟨l, hl⟩ := exists_tries (r := stubbornTries delay backoff) rfl hN h
    (stubborn_turn delay backoff) hc
  obtain ⟨m, q, inner, hq, hask⟩ := hl.question_mem he
  cases hq
  cases (h.mem _ hask).2.1 with
  | ask _ hcall =>
    obtain ⟨-, rfl⟩ := Account.done_iff (a := Value.bool true) hcall
    rfl

theorem not_overflows_stubborn (delay backoff : Number) {ds : List Deed} {o : Except Failure Value}
    (h : ∀ i < 3, (((stubbornSetup.scene ⟨0⟩ ⟨0⟩).wait (stubbornTries delay backoff) i).bind
      (Number.fixed 3)).isOk = true) :
    ¬Visit.Overflows (stubbornSetup.scene ⟨0⟩ ⟨0⟩) (stubbornTries delay backoff) ds o := by
  rintro ⟨i, f, hi, -, hfails, -⟩
  obtain ⟨d, shown, hd, hshown⟩ := waits_stubborn h i hi
  exact Visit.Scene.not_waitFails hd hshown hfails

/-- With waits of nothing at all and with waits of one, two and four seconds the step goes the same way. -/
theorem backoff_waits_only_stubborn : ∃ ds ds' t t' o o',
    Account (stubbornRun (.int 0) (.int 1)) stubbornSetup.desk.call stubbornSetup.plan 98 0 1
      (.now (dispatch (stubbornSetup.scene ⟨0⟩ ⟨0⟩) (stubbornStep (.int 0) (.int 1)))) ds
      (some (t, o)) ∧
    Account (stubbornRun (.int 1) (.int 2)) stubbornSetup.desk.call stubbornSetup.plan 110 0 1
      (.now (dispatch (stubbornSetup.scene ⟨0⟩ ⟨0⟩) (stubbornStep (.int 1) (.int 2)))) ds'
      (some (t', o')) ∧
    Visit.Same ds ds' ∧ outcomeOf o = .error (.raised .custom "down") ∧
      outcomeOf o' = .error (.raised .custom "down") := by
  have hend : (((stubbornRun (.int 0) (.int 1)).moment 98).outcome? 0).map outcomeOf =
      some (.error (.raised .custom "down")) := by
    decide +kernel
  have hend' : (((stubbornRun (.int 1) (.int 2)).moment 110).outcome? 0).map outcomeOf =
      some (.error (.raised .custom "down")) := by
    decide +kernel
  obtain ⟨o, ho, hcause⟩ := Option.map_eq_some_iff.1 hend
  obtain ⟨o', ho', hcause'⟩ := Option.map_eq_some_iff.1 hend'
  obtain ⟨ds, t, h, hc⟩ := launched_stubborn (.int 0) (.int 1) (by decide) ho
  obtain ⟨ds', t', h', hc'⟩ := launched_stubborn (.int 1) (.int 2) (by decide) ho'
  have hruns : Visit.SameOutcomes ds ds' := fun i s s' x x' hx hx' =>
    (stubborn_outcomes (by decide) h hc (by decide +kernel) hx).trans
      (stubborn_outcomes (by decide) h' hc' (by decide +kernel) hx').symm
  have hanswers : Visit.SameAnswers (stubbornRun (.int 0) (.int 1)) (stubbornRun (.int 1) (.int 2))
      ds ds' := fun i f f' e e' he he' =>
    (stubborn_answers (by decide) h hc he).trans (stubborn_answers (by decide) h' hc' he').symm
  refine ⟨ds, ds', t, t', o, o', h, h', ?_, hcause, hcause'⟩
  have hid : (stubbornStep (.int 1) (.int 2)).id = (stubbornStep (.int 0) (.int 1)).id := rfl
  have hkind : (stubbornStep (.int 1) (.int 2)).kind = .retry { stubbornTries (.int 0) (.int 1) with
      delay := some (.int 1), backoff := some (.int 2) } := rfl
  rcases backoff_waits_only (R := stubbornRun (.int 0) (.int 1))
    (r := stubbornTries (.int 0) (.int 1)) hid rfl hkind (by decide) (by decide) h h'
    (stubborn_turn _ _) (stubborn_turn _ _) hc hc' hruns hanswers with ⟨hsame, -⟩ | hover | hover
  · exact hsame
  · exact absurd hover (not_overflows_stubborn (.int 0) (.int 1) (by decide +kernel))
  · exact absurd hover (not_overflows_stubborn (.int 1) (.int 2) (by decide +kernel))

end Workflow

end Conductor
