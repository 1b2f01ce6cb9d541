import Conductor.Proofs.Goal.Chain
import Conductor.Proofs.Store.Writing

/-!
# How many attempts are made, and with what

A call that pursues a goal makes attempts until the result of one is good enough or no further attempt
is left. Each attempt has an execution with its number, which names the one before it, and gets the
input of the call, from the second attempt on with feedback on the attempt before; the feedback on
earlier attempts is replaced by it. In the end the result of the last attempt is given back, or a copy
of it with remarks on its quality.

Main result: `Pursuit.rounds`, which says all of this about every call that returns, whatever the
agents answer, however the results are scored and whatever happens meanwhile in other branches.
-/

namespace Conductor

/-- What an execution is known to be includes its identifier and its number. -/
theorem Store.Holds.id_attempt {s : Store} {r : Ref .execution} {e : Execution} {xs : List LogEntry}
    (h : s.Holds r e xs) : (s.get r).id = e.id ∧ (s.get r).attempt = e.attempt := by
  rw [← h.stem]
  exact ⟨rfl, rfl⟩

namespace Deed

variable {body : Procedure → Routine Value}

/-- What a deed is done with, if it is a call to pursue a goal. -/
def input? : Deed → Option Value
  | .part _ _ (.pursue _ x _ _) _ _ => some x
  | _ => none

/-- User code that is called in a line leaves the inputs of attempts as they are: the one that the
first attempt has, and those of the further attempts that are called in the line. -/
def Heeds (R : Run body) (x : Value) (ds : List Deed) : Prop :=
  ∀ y ∈ x :: (line ds).filterMap input?, ∀ es, Leave R (fun s => s.Shows y es) (line ds)

theorem Leave.and {R : Run body} {P Q : Store → Prop} {ds : List Deed} (h : Leave R P ds)
    (h' : Leave R Q ds) : Leave R (fun s => P s ∧ Q s) ds :=
  ⟨fun hd hs => ⟨h.asked hd hs.1, h'.asked hd hs.2⟩⟩

end Deed

namespace Pursuit

/-- An attempt whose result has been judged: what it is made with and which execution it has, when it
begins, when its result is judged, its result and the evaluation of it. -/
structure Try where
  input : Value
  execution : Ref .execution
  opened : Nat
  judged : Nat
  whole : Value
  evaluation : Ref .evaluation

variable {σ : Setup} {R : Run σ.body} {N b n t : Nat} {g : Ref .goal} {x v : Value} {a : Int}
  {p : Option String} {ds : List Deed} {o : Except Failure Value} {r : Ref .execution} {τ : Try}
  {es I : Entries Value} {most : Option Int} {M : Int} {ts : List Try}

namespace Try

/-- Whether the result is good enough. -/
def passed (R : Run σ.body) (τ : Try) : Bool := ((R.store τ.judged).get τ.evaluation).passed

/-- The identifier of the execution. -/
def id (R : Run σ.body) (τ : Try) : String := ((R.store τ.opened).get τ.execution).id

/-- An attempt is made with a number, a predecessor and an input: they are noted in its execution, the
input as a copy, and its work with this input leads to its result and the evaluation. -/
structure Made (σ : Setup) (R : Run σ.body) (N b : Nat) (g : Ref .goal) (τ : Try) (a : Int)
    (p : Option String) (es : Entries Value) : Prop where
  execution : ∃ e d, (R.store τ.opened).Holds τ.execution e [] ∧ e.attempt = a ∧ e.parent = p ∧
    e.input = .dict d ∧ (R.store τ.opened).Shows (.dict d) es
  input : (R.store τ.opened).Shows τ.input es
  work : ∃ ds, σ.Does R N b τ.opened (Outlined.prepare σ.desk τ.execution g τ.input) ds
    (some (τ.judged, .ok (τ.whole, τ.evaluation)))

/-- A dictionary has the feedback on an attempt that is given to the next one: its result, its
evaluation and a text. -/
def Feedback (R : Run σ.body) (τ : Try) (q : Ref .dict) (i : Nat) : Prop :=
  ∃ k m, τ.judged ≤ k ∧ k ≤ i ∧ (R.store k).evaluations = (R.store τ.judged).evaluations ∧
    Dumps (R.store i) m (R.store k) τ.evaluation ∧
    (R.store i).Shows (.dict q)
      [("result", τ.whole), ("evaluation", m), ("feedback", .text feedback)]

/-- What is given back of the last attempt by a certain moment: its result, or a copy of it with
remarks, in which case the result itself has been left as it was. -/
inductive Yields (R : Run σ.body) (τ : Try) : Value → Nat → Prop where
  | passed (h : τ.passed R = true) : Yields R τ τ.whole τ.judged
  | remarked {v : Value} {k i : Nat} (h : τ.passed R = false) (hk : τ.judged ≤ k) (hi : k ≤ i)
    (hsame : (R.store k).evaluations = (R.store τ.judged).evaluations)
    (hv : Annotates (R.store k) τ.whole τ.evaluation v (R.store i))
    (hleft : ∀ es, (R.store τ.judged).Shows τ.whole es →
      (R.store k).Shows τ.whole es ∧ (R.store i).Shows τ.whole es) : Yields R τ v i

end Try

/-- The attempts of a chain in a row, from one with a number, a predecessor and an input, with a
budget for all of them, and what is given back by a certain moment. -/
inductive Rounds (σ : Setup) (R : Run σ.body) (N b : Nat) (g : Ref .goal) (M : Int)
    (I : Entries Value) : Int → Option String → Entries Value → List Try → Value → Nat → Prop where
  | last {a : Int} {p : Option String} {es : Entries Value} {τ : Try} {v : Value} {i : Nat}
    (hmade : τ.Made σ R N b g a p es) (hend : τ.passed R = true ∨ M ≤ a) (hv : τ.Yields R v i) :
    Rounds σ R N b g M I a p es [τ] v i
  | again {a : Int} {p : Option String} {es : Entries Value} {τ τ' : Try} {ts : List Try} {v : Value}
    {i j : Nat} {q : Ref .dict} (hmade : τ.Made σ R N b g a p es) (hfailed : τ.passed R = false)
    (hleft : a < M) (hq : τ.Feedback R q j) (hj : j ≤ τ'.opened)
    (h : Rounds σ R N b g M I (a + 1) (some (τ.id R)) (Entries.insert I "_previousAttempt" (.dict q))
      (τ' :: ts) v i) : Rounds σ R N b g M I a p es (τ :: τ' :: ts) v i

/-! ## A chain of attempts consists of rounds -/

/-- What holds while the goal's limit and the input of the next attempt stay what they are. -/
theorem spared_agreed (g : Ref .goal) (most : Option Int) (x : Value) (es : Entries Value) :
    Spared ∅ {d | x = .dict d} fun s => s.Limits g most ∧ s.Shows x es :=
  ((spared_limits g most).and (spared_shows x es)).mono (by simp) (by simp)

/-- An attempt whose result is judged has been made with what it was to be made with. When it is
judged, the goal's limit and its input are as before, and its execution has its identifier and number. -/
theorem Opened.made {m t₁ : Nat} {ex : Execution} {own : List Deed} {w : Value}
    {e : Ref .evaluation} (hopen : Opened (R.store n) es a p r ex (R.store m))
    (hown : σ.Does R N b m (Outlined.prepare σ.desk r g x) own (some (t₁, .ok (w, e))))
    (hr : Deed.Leave R (fun s => s.Holds r ex []) own)
    (hleave : Deed.Leave R (fun s => s.Limits g most ∧ s.Shows x es) own)
    (hn : (R.store n).Limits g most ∧ (R.store n).Shows x es) :
    Try.Made σ R N b g ⟨x, r, m, t₁, w, e⟩ a p es ∧
      ((R.store t₁).Limits g most ∧ (R.store t₁).Shows x es) ∧
      ((R.store t₁).get r).id = Try.id R ⟨x, r, m, t₁, w, e⟩ ∧ ((R.store t₁).get r).attempt = a := by
  obtain ⟨-, hkept, hh⟩ := hopen.prepared hown hr (spared_agreed g most x es) (fun _ _ _ hq => hq.elim)
    (fun s hs d hd => by cases hd; exact hs.2.1) hleave hn
  have hm := hopen.spares (spared_agreed g most x es) (Set.disjoint_empty _) hn
  obtain ⟨d, hd, hshows⟩ := hopen.input
  refine ⟨⟨⟨ex, d, hopen.holds, hopen.attempt, hopen.parent, hd, hshows⟩, hm.2, own, hown⟩, hkept, ?_, ?_⟩
  · exact hh.id_attempt.1.trans hopen.holds.id_attempt.1.symm
  · exact hh.id_attempt.2.trans hopen.attempt

/-- A result that is accepted is good enough or uses up the budget, and is given back accordingly. -/
theorem Accepts.yields {m t₁ j : Nat} {w : Value} {e : Ref .evaluation} {passed : Bool}
    (hv : Accepts σ R g r w e j passed v t) (hj : t₁ ≤ j) (hsame : R.store j = R.store t₁)
    (hg : (R.store t₁).Limits g most) (ha : ((R.store t₁).get r).attempt = a) :
    (Try.passed R ⟨x, r, m, t₁, w, e⟩ = true ∨ most.getD σ.desk.settings.maxAttempts ≤ a) ∧
      ∃ i ≤ t, Try.Yields R ⟨x, r, m, t₁, w, e⟩ v i ∧ R.store t = R.store i := by
  cases hv with
  | passed h =>
    rw [hsame] at h
    exact ⟨Or.inl h, t₁, hj, .passed h, hsame⟩
  | @exhausted k _ _ h hbudget hk hlog hev ht hv hs =>
    rw [hsame] at h hbudget hlog hev
    rw [Desk.budget, hg.2, ha] at hbudget
    exact ⟨Or.inr hbudget, t, le_rfl, .remarked h (hj.trans hk) ht hev hv fun es hes =>
      ⟨hlog.shows hes, hs.shows (hlog.shows hes)⟩, rfl⟩

/-- A further attempt is made while the budget lasts, with feedback. -/
theorem Retries.feedback {m t₁ j i : Nat} {w y : Value} {e : Ref .evaluation}
    (h : Retries σ R g r x w e j y i) (hj : t₁ ≤ j) (hsame : R.store j = R.store t₁)
    (hn : (R.store t₁).Limits g most ∧ (R.store t₁).Shows x es)
    (ha : ((R.store t₁).get r).attempt = a) :
    Try.passed R ⟨x, r, m, t₁, w, e⟩ = false ∧ a < most.getD σ.desk.settings.maxAttempts ∧
      ∃ q, Try.Feedback R ⟨x, r, m, t₁, w, e⟩ q i ∧
        (R.store i).Shows y (Entries.insert es "_previousAttempt" (.dict q)) := by
  obtain ⟨hfailed, hleft, k, hk, hlog, hev, hi, ⟨d, q, m, -, hm, hq, hy⟩, -⟩ := h
  rw [hsame] at hfailed hleft hlog hev
  rw [Desk.budget, hn.1.2, ha] at hleft
  exact ⟨hfailed, hleft, q, ⟨k, m, hj.trans hk, hi, hev, hm, hq⟩, hy es (hlog.shows hn.2)⟩

/-- User code that leaves alone the inputs of all attempts leaves alone those of the further ones. -/
theorem heeds_inner {m j i : Nat} {l l' : Remark} {y : Value}
    {own inner close : List Deed} {e : Ending Value}
    (h : Deed.Heeds R x (.remark m l :: (own ++ ([.remark j l', .part i b (.pursue g y a p) inner e] ++
      close)))) : Deed.Heeds R y inner := by
  refine fun z hz es => leave_inner (leave_pieces (h z (List.mem_cons_of_mem _ ?_) es)).2.1
  simp only [Deed.line_remark, Deed.line_append, Deed.line_part, Deed.line_nil, List.append_nil,
    List.filterMap_append, List.filterMap_cons, Deed.input?, List.mem_append]
  exact Or.inr (Or.inl hz)

/-- **A chain whose call returns** consists of rounds. -/
theorem Attempts.gone_through (hclock : ∀ i, ∃ moment, (R.store i).now = .ok moment)
    (h : Attempts σ R N b g x a p n ds t o) (ho : o = .ok v) (hu : Deed.Untouched R ds)
    (hheeds : Deed.Heeds R x ds) (hlimits : Deed.Leave R (fun s => s.Limits g most) (Deed.line ds))
    (hI : ∀ u, Entries.insert es "_previousAttempt" u = Entries.insert I "_previousAttempt" u)
    (hn : (R.store n).Limits g most ∧ (R.store n).Shows x es) :
    ∃ τ ts i, Rounds σ R N b g (most.getD σ.desk.settings.maxAttempts) I a p es (τ :: ts) v i ∧
      n ≤ τ.opened ∧ i ≤ t ∧ Deed.openings ds = (τ :: ts).map Try.execution ∧
      ∀ u xs, Deed.Leave R (fun s => s.Shows u xs) (Deed.line ds) → (R.store i).Shows u xs →
        (R.store t).Shows u xs := by
  induction h generalizing es with
  | @last x es' _ _ _ m t₁ t₂ t r ex y own verdict close o' o hmap hm hopen hown hend hclose =>
    subst ho
    obtain ⟨hcl, hsound, -⟩ := close_stages hclock hclose
    have hrs := openings_attempt m verdict (marks_prepare hown) hcl
    rw [hend.openings] at hrs
    obtain rfl := hsound (Or.inr ⟨v, rfl⟩)
    obtain rfl : es' = es := Option.some.inj (hmap.symm.trans hn.2.mapping)
    have hr := leave_pieces (hu r (by rw [hrs]; exact List.mem_singleton_self r) ex [])
    cases hend with
    | @accepted w _ e passed j _ hj hsame hv =>
      obtain ⟨hmade, hkept, -, ha⟩ := hopen.made hown hr.1
        ((leave_pieces hlimits).1.and (leave_pieces (hheeds x List.mem_cons_self es')).1) hn
      obtain ⟨hlast, i, hi, hyields, hstore⟩ := hv.yields (m := m) (x := x) hj hsame hkept.1 ha
      refine ⟨_, [], i, .last hmade hlast hyields, hm, ?_, hrs, fun u xs hleave hs => ?_⟩
      · exact hi.trans (hclose.ending_ge rfl)
      · rw [← hstore] at hs
        exact (hclose.keeps (Outlined.close_keeps σ.desk (spared_shows u xs) (Set.notMem_empty r) g _)
          hs (leave_pieces hleave).2.2).2 _ _ rfl
  | @again x w y es' _ _ n m _ j i t₃ t r ex e own inner close o' o hmap hm hopen hown hj hsame hretry
      hcall hinner hclose ih =>
    subst ho
    obtain ⟨hcl, hsound, -⟩ := close_stages hclock hclose
    have hrs := fun mid => openings_attempt m mid (marks_prepare hown) hcl
    obtain rfl := hsound (Or.inr ⟨v, rfl⟩)
    obtain rfl : es' = es := Option.some.inj (hmap.symm.trans hn.2.mapping)
    have hr := leave_pieces (hu r (by rw [hrs]; exact List.mem_cons_self) ex [])
    obtain ⟨hmade, hkept, hid, ha⟩ := hopen.made hown hr.1
      ((leave_pieces hlimits).1.and (leave_pieces (hheeds x List.mem_cons_self es')).1) hn
    obtain ⟨hfailed, hleft, q, hq, hy⟩ := hretry.feedback (m := m) hj hsame hkept ha
    obtain ⟨τ', ts, i', hrounds, hi', hit, hopenings, hkeeps⟩ := ih rfl
      (fun s hs e es => leave_inner (leave_pieces (hu s (by
        rw [hrs, openings_inner]
        exact List.mem_cons_of_mem r hs) e es)).2.1)
      (heeds_inner hheeds) (leave_inner (leave_pieces hlimits).2.1)
      (fun u => by rw [Entries.insert_insert, hI])
      (by rw [hcall]; exact ⟨(hretry.spares.trans (.refl _ _)).limits (by rw [hsame]; exact hkept.1), hy⟩)
    rw [hsame, ha, hid, hI] at hrounds
    refine ⟨_, τ' :: ts, i', .again hmade hfailed hleft hq ((Nat.le_succ i).trans hi') hrounds, hm,
      hit.trans (hclose.ending_ge rfl), ?_, fun u xs hleave hs => ?_⟩
    · rw [hrs, openings_inner, hopenings]
      rfl
    · exact (hclose.keeps (Outlined.close_keeps σ.desk (spared_shows u xs) (Set.notMem_empty r) g _)
        (hkeeps u xs (leave_inner (leave_pieces hleave).2.1) hs) (leave_pieces hleave).2.2).2 _ _ rfl

/-! ## What rounds are -/

namespace Rounds

variable {i : Nat}

theorem length_le (h : Rounds σ R N b g M I a p es ts v i) : (ts.length : Int) ≤ max 1 (M - a + 1) := by
  induction h with
  | last => simp
  | again _ _ hleft _ _ _ ih =>
    simp only [List.length_cons] at ih ⊢
    push_cast at ih ⊢
    omega

theorem length_pos (h : Rounds σ R N b g M I a p es ts v i) : 0 < ts.length := by
  cases h <;> simp

/-- The last attempt is the first one that is good enough or uses up the budget. -/
theorem last_iff (h : Rounds σ R N b g M I a p es ts v i) {k : Nat} (hτ : ts[k]? = some τ) :
    τ.passed R = true ∨ M ≤ a + k ↔ k + 1 = ts.length := by
  induction h generalizing k with
  | last _ hend =>
    cases k with
    | zero =>
      cases hτ
      simpa using hend
    | succ k => cases hτ
  | again _ hfailed hleft _ _ h ih =>
    cases k with
    | zero =>
      cases hτ
      have hpos := h.length_pos
      rw [hfailed, List.length_cons, Nat.cast_zero, Int.add_zero]
      refine ⟨fun hM => ?_, fun hl => ?_⟩
      · exact absurd hleft (Int.not_lt.2 (hM.resolve_left Bool.false_ne_true))
      · omega
    | succ k =>
      have hrest := ih hτ
      simp only [List.length_cons, Nat.add_right_cancel_iff] at hrest ⊢
      rw [← hrest, Nat.cast_succ, Int.add_assoc, Int.add_comm (k : Int)]

theorem first (h : Rounds σ R N b g M I a p es ts v i) (hτ : ts[0]? = some τ) :
    τ.Made σ R N b g a p es := by
  cases h with
  | last hmade | again hmade =>
    cases hτ
    exact hmade

/-- Every further attempt has the next number, names the one before it, and has feedback on that one
in its input. -/
theorem further (h : Rounds σ R N b g M I a p es ts v i) {k : Nat} {τ' : Try} (hτ : ts[k]? = some τ)
    (hτ' : ts[k + 1]? = some τ') : ∃ q, (∃ j ≤ τ'.opened, τ.Feedback R q j) ∧
      τ'.Made σ R N b g (a + (k + 1)) (some (τ.id R)) (Entries.insert I "_previousAttempt" (.dict q)) := by
  induction h generalizing k with
  | last => cases hτ'
  | @again a _ _ _ _ _ _ _ _ _ _ _ _ hq hj h ih =>
    cases k with
    | zero =>
      cases hτ
      cases hτ'
      exact ⟨_, ⟨_, hj, hq⟩, by simpa using h.first rfl⟩
    | succ k =>
      obtain ⟨q, hq, hmade⟩ := ih hτ hτ'
      refine ⟨q, hq, ?_⟩
      rw [Nat.cast_succ, Int.add_comm _ 1, ← Int.add_assoc]
      exact hmade

theorem yields (h : Rounds σ R N b g M I a p es ts v i) (hτ : ts.getLast? = some τ) :
    τ.Yields R v i := by
  induction h with
  | last _ _ hv =>
    cases hτ
    exact hv
  | again _ _ _ _ _ _ ih => exact ih hτ

end Rounds

/-- **The attempts of a call that returns.** Let a call pursue a goal that may be attempted `M` times,
with the entries `I` as its input, with user code that writes into no execution of the call and no
input of an attempt and does not change how often the goal may be attempted, and let it return `v`.
Then there are attempts in a row, as many as executions are made, such that

* the last attempt is the first one whose result is good enough or that uses up the budget;
* the first attempt has the number, the predecessor and the input of the call;
* every further attempt has the next number, names the execution of the attempt before it, and has the
  input `I` in which feedback on the attempt before stands under one key;
* `v` is the result of the last attempt if that is good enough, else a copy of it with remarks, and
  then the result itself is left as it was. No later write of the call changes one or the other.
-/
theorem rounds (hclock : ∀ i, ∃ moment, (R.store i).now = .ok moment)
    (h : σ.Does R N b n (σ.plan (.pursue g x a p)) ds (some (t, .ok v))) (hc : Deed.Calm ds)
    (hI : (R.store n).Shows (inputOf (R.store n) g x) I) (hg : g.index < (R.store n).goals.size)
    (hM : σ.desk.budget ((R.store n).get g) = M) (hu : Deed.Untouched R ds)
    (hheeds : Deed.Heeds R (inputOf (R.store n) g x) ds)
    (hlimits : Deed.Leave R (fun s => s.Limits g ((R.store n).get g).maxAttempts) (Deed.line ds)) :
    ∃ ts : List Try, Deed.openings ds = ts.map Try.execution ∧
      0 < ts.length ∧ (ts.length : Int) ≤ max 1 (M - a + 1) ∧
      (∀ (k : Nat) (τ : Try), ts[k]? = some τ →
        (τ.passed R = true ∨ M ≤ a + k ↔ k + 1 = ts.length)) ∧
      (∀ τ : Try, ts[0]? = some τ → τ.Made σ R N b g a p I) ∧
      (∀ (k : Nat) (τ τ' : Try), ts[k]? = some τ → ts[k + 1]? = some τ' →
        ∃ q, (∃ j ≤ τ'.opened, τ.Feedback R q j) ∧ τ'.Made σ R N b g (a + (k + 1)) (some (τ.id R))
          (Entries.insert I "_previousAttempt" (.dict q))) ∧
      ∃ i ≤ t, (∀ τ : Try, ts.getLast? = some τ → τ.Yields R v i) ∧
        ∀ u xs, Deed.Leave R (fun s => s.Shows u xs) (Deed.line ds) → (R.store i).Shows u xs →
          (R.store t).Shows u xs := by
  subst hM
  have hall := attempts hclock h hc (by rw [hI.mapping]; exact nofun)
  obtain ⟨τ, ts, i, hrounds, -, hit, hopenings, hkeeps⟩ :=
    hall.gone_through hclock rfl hu hheeds hlimits (fun _ => rfl) ⟨⟨hg, rfl⟩, hI⟩
  exact ⟨τ :: ts, hopenings, hrounds.length_pos, hrounds.length_le, fun _ _ => hrounds.last_iff,
    fun _ => hrounds.first, fun _ _ _ => hrounds.further, i, hit, fun _ => hrounds.yields, hkeeps⟩

theorem rounds_reply : ∃ ds v, replySetup.Does replyRun 189 0 1
      (replySetup.plan (.pursue ⟨0⟩ .null 1 none)) ds (some (188, .ok v)) ∧ Deed.Calm ds ∧
    (replyRun.store 1).Shows (inputOf (replyRun.store 1) ⟨0⟩ .null) [] ∧
    (0 : Nat) < (replyRun.store 1).goals.size ∧
    replySetup.desk.budget ((replyRun.store 1).get (⟨0⟩ : Ref .goal)) = 2 ∧ Deed.Untouched replyRun ds ∧
    Deed.Heeds replyRun (inputOf (replyRun.store 1) ⟨0⟩ .null) ds ∧
    Deed.Leave replyRun (fun s => s.Limits ⟨0⟩ ((replyRun.store 1).get (⟨0⟩ : Ref .goal)).maxAttempts)
      (Deed.line ds) ∧
    ∃ ts : List Try, Deed.openings ds = ts.map Try.execution ∧ ts.length ≤ 2 ∧
      ∀ (k : Nat) (τ : Try), ts[k]? = some τ →
        (τ.passed replyRun = true ∨ (2 : Int) ≤ 1 + k ↔ k + 1 = ts.length) := by
  obtain ⟨ds, v, h, hc⟩ := replyRun_account
  have hI : (replyRun.store 1).Shows (inputOf (replyRun.store 1) ⟨0⟩ .null) [] :=
    ⟨by decide +kernel, rfl⟩
  have hg : (0 : Nat) < (replyRun.store 1).goals.size := by decide +kernel
  have hM : replySetup.desk.budget ((replyRun.store 1).get (⟨0⟩ : Ref .goal)) = 2 := rfl
  have hu : Deed.Untouched replyRun ds := fun r _ e es => h.leave (replySetup_keeps
    fun _ _ _ hs => ⟨hs.there, hs.stem, hs.logs, hs.entries⟩)
  have hheeds : Deed.Heeds replyRun (inputOf (replyRun.store 1) ⟨0⟩ .null) ds := fun y _ es =>
    h.leave (replySetup_keeps fun s _ _ hs => by cases y <;> exact hs)
  have hlimits := h.leave (replySetup_keeps (P := fun s =>
    s.Limits ⟨0⟩ ((replyRun.store 1).get (⟨0⟩ : Ref .goal)).maxAttempts) fun _ _ _ hs => hs)
  obtain ⟨ts, hopen, -, hlength, hlast, -⟩ := rounds replyRun_clock h hc hI hg hM hu hheeds hlimits
  exact ⟨ds, v, h, hc, hI, hg, hM, hu, hheeds, hlimits, ts, hopen, by omega, hlast⟩

end Pursuit

end Conductor
