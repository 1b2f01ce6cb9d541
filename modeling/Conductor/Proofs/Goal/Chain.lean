import Conductor.Proofs.Account.Launched
import Conductor.Proofs.Goal.Stages

/-!
# How chains of attempts end

The attempts of a chain are called inside of one another, so all of them are open when the last one is
settled, and they are closed from the last to the first. What is said of them as a whole
(`Deed.marks`) shows that: first they take turns (`Turns`), then they close (`Deed.closings`).

User code may do what it likes with everything but the executions of the chain (`Deed.Untouched`).
That these stay closed is carried by `Attempts.keeps`: a chain leaves alone whatever is spared, hence
the execution of the attempt that has called it.

Main result: `status_chain`, which says in which state every execution is when the call is over, and
what the hooks have been told.
-/

namespace Conductor

open Outline (plain emit)

/-- Whether user code is called as a hook at the end of an attempt. -/
def Use.AtEnd (u : Use) : Prop := u = .hook .goalEnd ∨ u = .hook .goalError

/-! ## What a chain tells -/

/-- What is said about an attempt as a whole: that it begins, how its result was judged, and that it
is over. -/
def Remark.OfAttempt : Remark → Bool
  | .opens _ | .judges .. => true
  | .emits name _ => name ∈ [.goalEnd, .goalError]
  | .records .. | .notes .. | .reports _ => false

/-- Whether something is said when an attempt is over. -/
def Remark.Closes : Remark → Bool
  | .emits name _ => name ∈ [.goalEnd, .goalError]
  | _ => false

/-- The execution that is said to have been made. -/
def Remark.opened? : Remark → Option (Ref .execution)
  | .opens r => some r
  | _ => none

namespace Deed

/-- What is said about attempts in a line. -/
def marks (ds : List Deed) : List Remark := (said (line ds)).filter Remark.OfAttempt

/-- The executions of the attempts in a line, in the order in which they are made. -/
def openings (ds : List Deed) : List (Ref .execution) := (marks ds).filterMap Remark.opened?

/-- What is said at the ends of the attempts in a line, in order. -/
def closings (ds : List Deed) : List Remark := (marks ds).filter Remark.Closes

variable {n b : Nat} {l : Remark} {ds ds' : List Deed}

theorem marks_remark (h : l.OfAttempt = true) : marks (.remark n l :: ds) = l :: marks ds := by
  rw [marks, line_remark, said_remark, List.filter_cons_of_pos h]
  rfl

theorem marks_append : marks (ds ++ ds') = marks ds ++ marks ds' := by
  simp only [marks, line_append, said_append, List.filter_append]

theorem marks_part (p : Procedure) (inner : List Deed) (e : Ending Value) :
    marks (.part n b p inner e :: ds) = marks inner ++ marks ds := by
  rw [marks, line_part, said_part, said_append, List.filter_append]
  rfl

theorem openings_append : openings (ds ++ ds') = openings ds ++ openings ds' := by
  simp only [openings, marks_append, List.filterMap_append]

/-- The work on an attempt tells nothing of the attempt as a whole. -/
theorem marks_of_work (h : Bare ds) (hs : ∀ l ∈ said ds, l.OfWork = true) : marks ds = [] := by
  rw [marks, h.line]
  refine List.filter_eq_nil_iff.2 fun l hl => ?_
  have hw := hs l hl
  cases l with
  | emits name args =>
    simp only [Remark.OfWork, decide_eq_true_eq] at hw
    simp only [Remark.OfAttempt, decide_eq_true_eq]
    intro ha
    simp only [List.mem_cons, List.not_mem_nil, or_false] at hw ha
    rcases ha with rfl | rfl <;> simp at hw
  | reports f => simp [Remark.OfAttempt]
  | _ => cases hw

/-- User code that is called in a line leaves the executions as they are that are made in it. -/
def Untouched {body : Procedure → Routine Value} (R : Run body) (ds : List Deed) : Prop :=
  ∀ r ∈ openings ds, ∀ e es, Leave R (fun s => s.Holds r e es) (line ds)

end Deed

namespace Pursuit

variable {σ : Setup} {R : Run σ.body} {N b n t : Nat} {g : Ref .goal} {x : Value} {a : Int}
  {p : Option String} {ds : List Deed} {o : Except Failure Value} {r : Ref .execution}
  {X : Set (Ref .execution)} {D : Set (Ref .dict)} {P : Store → Prop}

/-! ## The end of an attempt -/

/-- The state that an outcome leaves an execution in. -/
def statusOf : Except Failure Value → Status
  | .ok _ => .completed
  | .error _ => .failed

/-- What is said at the end of an attempt. -/
def closing (g : Ref .goal) (o : Except Failure Value) (r : Ref .execution) : Remark :=
  match o with
  | .ok v => .emits .goalEnd [.goal g, .execution r, v]
  | .error f => .emits .goalError [.goal g, .execution r, .failure f]

/-- An entry at the level of errors tells of a failure. -/
def Reports (y : LogEntry) (f : Failure) : Prop :=
  y.level = "error" ∧ y.message = s!"Task failed: {f.message}"

/-- An execution is over with an outcome: its state says which kind of outcome it is, it has an end,
and if it has failed its log tells why. -/
def Closed (s : Store) (r : Ref .execution) (o : Except Failure Value) : Prop :=
  ∃ e es, s.Holds r e es ∧ e.status = statusOf o ∧ e.endTime.isSome = true ∧
    ∀ f, o = .error f → ∃ y ∈ es, Reports y f

/-- An emission with nothing to tell behind it. -/
theorem emission_rest {name : HookName} {args : List Value} {rest : Outline Value}
    {o' : Except Failure Value} (h : σ.Does R N b n (emit name args >>= fun _ => rest) ds (some (t, o')))
    (hrest : ∀ {m ds}, σ.Does R N b m rest ds (some (t, o')) → ds = [] ∧ o' = o) :
    Deed.Bare ds ∧ Deed.said ds = [.emits name args] ∧
      (Deed.Sound (· = .hook name) ds ∨ (∃ v, o' = .ok v) → o' = o) := by
  have hsaid : ∀ {asks : List Deed} {cs : List (Ref .callable)},
      Deed.Calls (.hook name) args cs asks → Deed.Bare (.remark n (.emits name args) :: asks) ∧
        Deed.said (.remark n (.emits name args) :: asks) = [.emits name args] := fun hc =>
    ⟨hc.bare.cons_remark, by rw [Deed.said_remark, hc.said]⟩
  rcases h.bind with ⟨ds₁, m, _, ds₂, h₁, h₂, rfl⟩ | ⟨m, f, h₁, he⟩ | ⟨-, he⟩
  · obtain ⟨rfl, rfl⟩ := hrest h₂
    obtain ⟨asks, rfl, hr⟩ := h₁.emission
    rw [List.append_nil]
    cases hr with
    | complete _ hc => exact ⟨(hsaid hc).1, (hsaid hc).2, fun _ => rfl⟩
  · cases he
    obtain ⟨asks, rfl, hr⟩ := h₁.emission
    cases hr with
    | failed _ _ hc hf =>
      refine ⟨(hsaid hc).1, (hsaid hc).2, fun hs => ?_⟩
      rcases hs with hs | ⟨v, hv⟩
      · exact absurd (.here (List.mem_cons_of_mem _ hf)) (hs.asked rfl)
      · cases hv
  · cases he

theorem marks_closing (hb : Deed.Bare ds) (hs : Deed.said ds = [closing g o r]) :
    Deed.marks ds = [closing g o r] := by
  rw [Deed.marks, hb.line, hs]
  cases o <;> rfl

/-- An execution that fails notes why. -/
theorem fail_gives {s : Store} {moment : Int} (hnow : s.now = .ok moment) (r : Ref .execution)
    (f : Failure) : Routine.Gives (fun _ t => ∃ last y, Reports y f ∧ ∀ e es, s.Holds r e es →
      t.Holds r { e with status := .failed, endTime := some last } (y :: es)) (do
        let data ← .modifyGet fun s => s.newDict [("error", .text f.shown)]
        let reason := f.message
        let _ ← Execution.log r "error" s!"Task failed: {reason}" (.dict data)
        Execution.finish r .failed) s := by
  refine Routine.Gives.bind (gives_spares (Q := fun _ _ => True) (c := .modifyGet fun s =>
    s.newDict [("error", .text f.shown)]) trivial fun hP =>
      Routine.keeps_modifyGet fun s => hP.dict s _) ?_
  rintro data u ⟨-, hu⟩
  have hnow' : u.now = .ok moment := hu.now.trans hnow
  refine Routine.Gives.bind (log_gives hnow' (l := .error) (by decide) _ _) ?_
  rintro _ v ⟨⟨-, y, hl, hm, hy⟩, hv⟩
  refine (finish_gives (hv.now.trans hnow') .failed).mono ?_
  rintro _ t ⟨⟨last, hfin⟩, -⟩
  exact ⟨last, y, ⟨hl, hm⟩, fun e es h => hfin e _ (hy e es (hu.holds (Set.notMem_empty r) h))⟩

/-- **An attempt closes** by finishing its execution, whereupon it tells how it has ended. Its outcome is
still the same then, unless what it tells that to fails. -/
theorem close_stages (hclock : ∀ i, ∃ moment, (R.store i).now = .ok moment)
    {o' : Except Failure Value}
    (h : σ.Does R N b n (Outlined.close σ.desk r g o) ds (some (t, o'))) :
    Deed.marks ds = [closing g o r] ∧ (Deed.Sound Use.AtEnd ds ∨ (∃ v, o' = .ok v) → o' = o) ∧
      ∀ e, (R.store n).Holds r e [] → (∀ e es, Deed.Leave R (fun s => s.Holds r e es) ds) →
        Closed (R.store t) r o := by
  obtain ⟨moment, hnow⟩ := hclock n
  cases o with
  | ok v =>
    obtain ⟨m, _, -, ⟨⟨last, hfin⟩, -⟩, h⟩ := h.gives_bind (finish_gives hnow .completed)
    obtain ⟨hb, hs, ho⟩ := emission_rest (o := .ok v) h fun hp => by
      obtain ⟨rfl, hend⟩ := hp.gives (P := fun a _ => a = v) rfl
      obtain ⟨-, a, ha, rfl⟩ := hend _ _ rfl
      exact ⟨rfl, ha⟩
    refine ⟨marks_closing hb hs, fun hsound => ho (hsound.imp_left fun hs => hs.mono fun u hu => Or.inl hu),
      fun e hr hleave => ?_⟩
    have hspared := spared_holds r { e with status := .completed, endTime := some last } []
    have hkeeps := h.keeps (Outline.Keeps.bind (emit_keeps hspared _ _) fun _ =>
      Outline.keeps_plain (Routine.Keeps.bind (Routine.keeps_read _) fun _ =>
        Routine.Keeps.bind (progress_keeps hspared σ.desk _ _) fun _ => show True from trivial))
      (hfin e [] hr) (hleave _ _)
    exact ⟨_, [], hkeeps.2 t o' rfl, rfl, rfl, nofun⟩
  | error f =>
    obtain ⟨m, _, -, ⟨last, y, hy, hfin⟩, h⟩ := h.gives_bind (fail_gives hnow r f)
    obtain ⟨hb, hs, ho⟩ := emission_rest (o := .error f) h fun hp => by
      obtain ⟨rfl, he⟩ := hp.fail_iff
      cases he
      exact ⟨rfl, rfl⟩
    refine ⟨marks_closing hb hs, fun hsound => ho (hsound.imp_left fun hs => hs.mono fun u hu => Or.inr hu),
      fun e hr hleave => ?_⟩
    have hspared := spared_holds r { e with status := .failed, endTime := some last } [y]
    have hkeeps := h.keeps (Outline.Keeps.bind (emit_keeps hspared _ _) fun _ => show True from trivial)
      (hfin e [] hr) (hleave _ _)
    refine ⟨_, [y], hkeeps.2 t o' rfl, rfl, rfl, fun f' hf => ?_⟩
    cases hf
    exact ⟨y, List.mem_singleton_self y, hy⟩

theorem marks_prepare {m : Nat} {own : List Deed} {e : Ending (Value × Ref .evaluation)}
    (hown : σ.Does R N b m (Outlined.prepare σ.desk r g x) own e) : Deed.marks own = [] := by
  have hbare := (hown.keeps (Outlined.prepare_keeps σ.desk spared_true (fun _ _ => by simp) g x)
    trivial ⟨fun _ => id⟩).1
  exact Deed.marks_of_work hbare (hown.said_all (Outlined.says_prepare (fun _ h => h) σ.desk r g x))

theorem marks_attempt (m : Nat) (mid : List Deed) {own close : List Deed} {l : Remark}
    (hown : Deed.marks own = []) (hclose : Deed.marks close = [l]) :
    Deed.marks (.remark m (.opens r) :: (own ++ (mid ++ close))) =
      .opens r :: (Deed.marks mid ++ [l]) := by
  rw [Deed.marks_remark rfl, Deed.marks_append, Deed.marks_append, hown, hclose]
  rfl

/-- How attempts are said to take turns: a further attempt begins when the result of the attempt
before it has been judged insufficient, and on no other occasion. -/
inductive Turns : List (Ref .execution) → List Remark → Prop where
  | failed (r : Ref .execution) : Turns [r] [.opens r]
  | judged (r : Ref .execution) (w : Value) (e : Ref .evaluation) (passed : Bool) :
    Turns [r] [.opens r, .judges w e passed]
  | again (r : Ref .execution) (w : Value) (e : Ref .evaluation) {rs : List (Ref .execution)}
    {ls : List Remark} (h : Turns rs ls) : Turns (r :: rs) (.opens r :: .judges w e false :: ls)

theorem Turns.opened {rs : List (Ref .execution)} {ls : List Remark} (h : Turns rs ls) :
    ls.filterMap Remark.opened? = rs ∧ ls.filter Remark.Closes = [] := by
  induction h with
  | failed r => exact ⟨rfl, rfl⟩
  | judged r w e passed => exact ⟨rfl, rfl⟩
  | again r w e _ ih => exact ⟨congrArg (r :: ·) ih.1, ih.2⟩

theorem closing_closed {ls : List Remark} (h : ∀ l ∈ ls, ∃ o r, l = closing g o r) :
    ls.filterMap Remark.opened? = [] ∧ ls.filter Remark.Closes = ls := by
  refine ⟨List.filterMap_eq_nil_iff.2 fun l hl => ?_, List.filter_eq_self.2 fun l hl => ?_⟩
  · obtain ⟨o, r, rfl⟩ := h l hl
    cases o <;> rfl
  · obtain ⟨o, r, rfl⟩ := h l hl
    cases o <;> rfl

/-- **What a chain of attempts tells**: first the attempts take turns, and then they close, the last one
first. -/
theorem Attempts.told (hclock : ∀ i, ∃ moment, (R.store i).now = .ok moment)
    (h : Attempts σ R N b g x a p n ds t o) : ∃ rs turns closes, Deed.marks ds = turns ++ closes ∧
      Turns rs turns ∧ (∀ l ∈ closes, ∃ o r, l = closing g o r) ∧
        (Deed.Sound Use.AtEnd ds → closes = rs.reverse.map (closing g o)) := by
  induction h with
  | @last _ _ _ _ _ m _ _ _ r _ _ own verdict close o' o _ _ _ hown hend hclose =>
    obtain ⟨hcl, hsound, -⟩ := close_stages hclock hclose
    have hends : Deed.Sound Use.AtEnd (.remark m (.opens r) :: (own ++ (verdict ++ close))) →
        [closing g o' r] = [r].reverse.map (closing g o) := fun hs => by
      rw [hsound (Or.inl hs.tail.append.2.append.2)]
      rfl
    have hmarks := marks_attempt (r := r) m verdict (marks_prepare hown) hcl
    cases hend with
    | failed f =>
      exact ⟨[r], [.opens r], [closing g (.error f) r], hmarks, .failed r,
        List.forall_mem_singleton.2 ⟨_, _, rfl⟩, hends⟩
    | @accepted w v e passed j =>
      exact ⟨[r], [.opens r, .judges w e passed], [closing g (.ok v) r], hmarks,
        .judged r w e passed, List.forall_mem_singleton.2 ⟨_, _, rfl⟩, hends⟩
  | @again _ w y _ _ _ _ m _ j i t₃ _ r _ e own inner close o' o _ _ _ hown _ _ _ _ _ hclose ih =>
    obtain ⟨hcl, hsound, -⟩ := close_stages hclock hclose
    obtain ⟨rs, turns, closes, hmarks, hturns, hall, hends⟩ := ih
    refine ⟨r :: rs, .opens r :: .judges w e false :: turns, closes ++ [closing g o' r], ?_,
      .again r w e hturns, ?_, fun hs => ?_⟩
    · rw [marks_attempt _ _ (marks_prepare hown) hcl, Deed.marks_remark rfl, Deed.marks_part, hmarks]
      simp [Deed.marks]
    · exact List.forall_mem_append.2 ⟨hall, List.forall_mem_singleton.2 ⟨_, _, rfl⟩⟩
    · have hrest := hs.tail.append.2.append
      have hin := hrest.1.inside (.here (List.mem_cons_of_mem _ List.mem_cons_self))
      rw [hends hin, hsound (Or.inl hrest.2), List.reverse_cons, List.map_append]
      rfl

theorem Attempts.openings (hclock : ∀ i, ∃ moment, (R.store i).now = .ok moment)
    (h : Attempts σ R N b g x a p n ds t o) :
    ∃ turns, Turns (Deed.openings ds) turns ∧ Deed.marks ds = turns ++ Deed.closings ds ∧
      (Deed.Sound Use.AtEnd ds → Deed.closings ds = (Deed.openings ds).reverse.map (closing g o)) := by
  obtain ⟨rs, turns, closes, hmarks, hturns, hall, hends⟩ := h.told hclock
  have hopen : Deed.openings ds = rs := by
    rw [Deed.openings, hmarks, List.filterMap_append, hturns.opened.1, (closing_closed hall).1,
      List.append_nil]
  have hclose : Deed.closings ds = closes := by
    rw [Deed.closings, hmarks, List.filter_append, hturns.opened.2, (closing_closed hall).2,
      List.nil_append]
  rw [hopen, hclose]
  exact ⟨turns, hturns, hmarks, hends⟩

/-! ## What a chain leaves as it is -/

/-- The work on an attempt is done by calling user code, and leaves its execution alone. -/
theorem Opened.prepared {m t₁ : Nat} {es : Entries Value} {ex : Execution} {own : List Deed}
    {y : Except Failure (Value × Ref .evaluation)} (hopen : Opened (R.store n) es a p r ex (R.store m))
    (hown : σ.Does R N b m (Outlined.prepare σ.desk r g x) own (some (t₁, y)))
    (hr : Deed.Leave R (fun s => s.Holds r ex []) own) (hP : Spared X D P)
    (hX : ∀ s, P s → ∀ q ∈ X, q.index < s.executions.size)
    (hD : ∀ s, P s → ∀ d ∈ D, d.index < s.dicts.size) (hleave : Deed.Leave R P own)
    (hn : P (R.store n)) : r ∉ X ∧ P (R.store t₁) ∧ (R.store t₁).Holds r ex [] := by
  have hfresh : r ∉ X := fun hr => Nat.not_lt.2 hopen.fresh (hX _ hn r hr)
  have hdicts : ∀ s, P s ∧ s.Holds r ex [] → (s.get r).agents ∉ D ∪ ∅ ∧ (s.get r).results ∉ D ∪ ∅ := by
    rintro s ⟨-, hs⟩
    have hagents : (s.get r).agents = ex.agents := by rw [← hs.stem]; rfl
    have hresults : (s.get r).results = ex.results := by rw [← hs.stem]; rfl
    rw [hagents, hresults, Set.union_empty]
    exact ⟨fun hd => Nat.not_lt.2 hopen.agents (hD _ hn _ hd),
      fun hd => Nat.not_lt.2 hopen.results (hD _ hn _ hd)⟩
  have hm : P (R.store m) := hopen.spares hP (Set.disjoint_singleton_left.2 hfresh) hn
  obtain ⟨-, hkept⟩ := hown.keeps
    (Outlined.prepare_keeps σ.desk (hP.and (spared_holds r ex [])) hdicts g x) ⟨hm, hopen.holds⟩
    ⟨fun hd hs => ⟨hleave.asked hd hs.1, hr.asked hd hs.2⟩⟩
  exact ⟨hfresh, hkept _ _ rfl⟩

/-- What user code leaves true in a line it leaves true in the pieces of the line. -/
theorem leave_pieces {m : Nat} {l : Remark} {own mid close : List Deed}
    (h : Deed.Leave R P (Deed.line (.remark m l :: (own ++ (mid ++ close))))) :
    Deed.Leave R P own ∧ Deed.Leave R P (Deed.line mid) ∧ Deed.Leave R P close := by
  simp only [Deed.line_remark, Deed.line_append] at h
  refine ⟨h.mono fun d hd => ?_, h.mono fun d hd => ?_, h.mono fun d hd => ?_⟩
  · exact List.mem_cons_of_mem _ (List.mem_append_left _ (Deed.mem_line hd))
  · exact List.mem_cons_of_mem _ (List.mem_append_right _ (List.mem_append_left _ hd))
  · exact List.mem_cons_of_mem _ (List.mem_append_right _ (List.mem_append_right _ (Deed.mem_line hd)))

theorem leave_inner {j i : Nat} {l : Remark} {q : Procedure} {inner : List Deed} {e : Ending Value}
    (h : Deed.Leave R P (Deed.line [.remark j l, .part i b q inner e])) :
    Deed.Leave R P (Deed.line inner) := by
  simp only [Deed.line_remark, Deed.line_part, Deed.line_nil, List.append_nil] at h
  exact h.mono fun d hd => List.mem_cons_of_mem _ (List.mem_cons_of_mem _ hd)

theorem openings_attempt (m : Nat) (mid : List Deed) {own close : List Deed} (hown : Deed.marks own = [])
    (hclose : Deed.marks close = [closing g o r]) :
    Deed.openings (.remark m (.opens r) :: (own ++ (mid ++ close))) = r :: Deed.openings mid := by
  have hmid : (Deed.marks mid ++ [closing g o r]).filterMap Remark.opened? = Deed.openings mid := by
    rw [List.filterMap_append]
    cases o <;> exact List.append_nil _
  rw [Deed.openings, marks_attempt _ _ hown hclose, ← hmid]
  rfl

theorem Settles.openings {y : Except Failure (Value × Ref .evaluation)} {verdict : List Deed}
    (h : Settles σ R g r n y verdict o t) : Deed.openings verdict = [] := by
  cases h <;> rfl

theorem openings_inner {j i : Nat} {w : Value} {e : Ref .evaluation} {q : Procedure}
    {inner : List Deed} {e' : Ending Value} :
    Deed.openings [.remark j (.judges w e false), .part i b q inner e'] = Deed.openings inner := by
  rw [Deed.openings, Deed.marks_remark rfl, Deed.marks_part]
  have hnil : Deed.marks [] = [] := by rw [Deed.marks, Deed.line_nil]; rfl
  rw [hnil, List.append_nil]
  rfl

/-- **Chains of attempts leave alone** what is spared and user code leaves true; in particular the
executions that were there before. -/
theorem Attempts.keeps (hclock : ∀ i, ∃ moment, (R.store i).now = .ok moment)
    (h : Attempts σ R N b g x a p n ds t o) (hu : Deed.Untouched R ds) (hP : Spared X D P)
    (hX : ∀ s, P s → ∀ q ∈ X, q.index < s.executions.size)
    (hD : ∀ s, P s → ∀ d ∈ D, d.index < s.dicts.size) (hleave : Deed.Leave R P (Deed.line ds))
    (hn : P (R.store n)) : P (R.store t) ∧ ∀ r ∈ Deed.openings ds, r ∉ X := by
  induction h with
  | @last _ _ _ _ _ m _ _ _ r ex _ own verdict close o' o _ _ hopen hown hend hclose =>
    obtain ⟨hcl, -⟩ := close_stages hclock hclose
    have hrs := openings_attempt m verdict (marks_prepare hown) hcl
    rw [hend.openings] at hrs
    obtain ⟨howns, -, hcloses⟩ := leave_pieces hleave
    have hr := hu r (by rw [hrs]; exact List.mem_singleton_self r) ex []
    obtain ⟨hfresh, hp, -⟩ := hopen.prepared hown (leave_pieces hr).1 hP hX hD howns hn
    have hset := hend.spares hP (Set.empty_disjoint X) hp
    exact ⟨(hclose.keeps (Outlined.close_keeps σ.desk hP hfresh g o') hset hcloses).2 _ _ rfl, by
      rw [hrs]
      exact List.forall_mem_singleton.2 hfresh⟩
  | @again _ w y _ _ _ _ m _ j i t₃ _ r ex e own inner close o' o _ _ hopen hown _ hsame hretry hcall
      hinner hclose ih =>
    obtain ⟨hcl, -⟩ := close_stages hclock hclose
    have hrs := fun mid => openings_attempt m mid (marks_prepare hown) hcl
    obtain ⟨howns, hmid, hcloses⟩ := leave_pieces hleave
    have hr := hu r (by rw [hrs]; exact List.mem_cons_self) ex []
    obtain ⟨hfresh, hp, -⟩ := hopen.prepared hown (leave_pieces hr).1 hP hX hD howns hn
    have hcalled : P (R.store (i + 1)) := by
      rw [hcall]
      exact hretry.spares hP (Set.empty_disjoint X) (by rw [hsame]; exact hp)
    obtain ⟨hset, hrest⟩ := ih (fun q hq e es => leave_inner (leave_pieces (hu q (by
      rw [hrs, openings_inner]
      exact List.mem_cons_of_mem r hq) e es)).2.1) (leave_inner hmid) hcalled
    refine ⟨(hclose.keeps (Outlined.close_keeps σ.desk hP hfresh g o') hset hcloses).2 _ _ rfl, ?_⟩
    rw [hrs, openings_inner]
    exact List.forall_mem_cons.2 ⟨hfresh, hrest⟩

/-- **Every execution of a chain is closed** when the chain is over; with the outcome of the chain, if
the hooks at the ends of attempts do not fail. -/
theorem Attempts.closed (hclock : ∀ i, ∃ moment, (R.store i).now = .ok moment)
    (h : Attempts σ R N b g x a p n ds t o) (hu : Deed.Untouched R ds) :
    ∀ r ∈ Deed.openings ds, ∃ y, Closed (R.store t) r y ∧ (Deed.Sound Use.AtEnd ds → y = o) := by
  induction h with
  | @last _ _ _ _ _ m _ _ _ r ex _ own verdict close o' o _ _ hopen hown hend hclose =>
    obtain ⟨hcl, hsound, hclosed⟩ := close_stages hclock hclose
    have hrs := openings_attempt m verdict (marks_prepare hown) hcl
    rw [hend.openings] at hrs
    have hr := fun e es => leave_pieces (hu r (by rw [hrs]; exact List.mem_singleton_self r) e es)
    obtain ⟨-, -, hh⟩ := hopen.prepared hown (hr ex []).1 spared_true (fun _ _ => by simp)
      (fun _ _ => by simp) ⟨fun _ => id⟩ trivial
    rw [hrs]
    refine List.forall_mem_singleton.2 ⟨o', hclosed ex ?_ fun e es => (hr e es).2.2, fun hs => ?_⟩
    · exact hend.spares.holds (Set.notMem_empty r) hh
    · exact (hsound (Or.inl hs.tail.append.2.append.2)).symm
  | @again _ w y _ _ _ _ m _ j i t₃ _ r ex e own inner close o' o _ _ hopen hown _ hsame hretry hcall
      hinner hclose ih =>
    obtain ⟨hcl, hsound, hclosed⟩ := close_stages hclock hclose
    have hrs := fun mid => openings_attempt m mid (marks_prepare hown) hcl
    have hr := fun e es => leave_pieces (hu r (by rw [hrs]; exact List.mem_cons_self) e es)
    have huin : Deed.Untouched R inner := fun q hq e es => leave_inner (leave_pieces (hu q (by
      rw [hrs, openings_inner]
      exact List.mem_cons_of_mem r hq) e es)).2.1
    obtain ⟨-, -, hh⟩ := hopen.prepared hown (hr ex []).1 spared_true (fun _ _ => by simp)
      (fun _ _ => by simp) ⟨fun _ => id⟩ trivial
    have hcalled : (R.store (i + 1)).Holds r ex [] := by
      rw [hcall]
      exact hretry.spares.holds (Set.notMem_empty r) (by rw [hsame]; exact hh)
    -- The further attempts have executions of their own.
    obtain ⟨hset, hother⟩ := hinner.keeps hclock huin (spared_holds r ex [])
      (fun s hs q hq => by cases hq; exact hs.there) (fun _ _ => by simp) (leave_inner (hr ex []).2.1)
      hcalled
    have hsounds : Deed.Sound Use.AtEnd (.remark m (.opens r) :: (own ++ ([.remark j (.judges w e false),
        .part i b (.pursue g y (((R.store j).get r).attempt + 1) (some ((R.store j).get r).id))
          inner (some (t₃, o'))] ++ close))) → Deed.Sound Use.AtEnd inner ∧ o = o' := fun hs =>
      ⟨hs.tail.append.2.append.1.inside (.here (List.mem_cons_of_mem _ List.mem_cons_self)),
        hsound (Or.inl hs.tail.append.2.append.2)⟩
    rw [hrs, openings_inner]
    refine List.forall_mem_cons.2 ⟨⟨o', hclosed ex hset fun e es => (hr e es).2.2,
      fun hs => (hsounds hs).2.symm⟩, fun q hq => ?_⟩
    obtain ⟨z, ⟨eq, es, hq', hstatus, hend, hlog⟩, hz⟩ := ih huin q hq
    have hne : r ∉ ({q} : Set (Ref .execution)) := fun heq => hother q hq heq.symm
    have hkept := (hclose.keeps (Outlined.close_keeps σ.desk (spared_holds q eq es) hne g o') hq'
      (leave_pieces (hu q (by rw [hrs, openings_inner]; exact List.mem_cons_of_mem r hq) eq es)).2.2).2
      _ _ rfl
    exact ⟨z, ⟨eq, es, hkept, hstatus, hend, hlog⟩, fun hs =>
      (hz (hsounds hs).1).trans (hsounds hs).2.symm⟩

/-- **The end of a chain of attempts.** When a call is over that pursues a goal with a mapping as its
input, with user code that writes into none of its executions and fails with nothing but failures
that can be handled, then every execution that was made in it is completed or failed, and has an end.
A further attempt was only begun when a result had been judged insufficient.

If the hooks that tell of the end of attempts do not fail either, all these executions are completed
if the call returns, and failed if it fails. The hooks are then told the end of every attempt, from
the last to the first, each time with the value that is returned or with the failure that comes out
of the call; and that failure is in the log of every execution. -/
theorem status_chain (hclock : ∀ i, ∃ moment, (R.store i).now = .ok moment)
    (h : σ.Does R N b n (σ.plan (.pursue g x a p)) ds (some (t, o))) (hc : Deed.Calm ds)
    (hmap : (R.store n).mapping? (inputOf (R.store n) g x) ≠ none) (hu : Deed.Untouched R ds) :
    (∀ r ∈ Deed.openings ds, ((R.store t).get r).status ∈ [.completed, .failed] ∧
      ((R.store t).get r).endTime.isSome = true) ∧
    (∃ turns, Turns (Deed.openings ds) turns ∧ Deed.marks ds = turns ++ Deed.closings ds) ∧
    (Deed.Sound Use.AtEnd ds →
      (∀ r ∈ Deed.openings ds, ((R.store t).get r).status = statusOf o ∧
        ∀ f, o = .error f → ∃ y ∈ (R.store t).logged ((R.store t).get r).logs, Reports y f) ∧
      Deed.closings ds = (Deed.openings ds).reverse.map (closing g o)) := by
  have hall := attempts hclock h hc hmap
  obtain ⟨turns, hturns, hmarks, hends⟩ := hall.openings hclock
  have hclosed : ∀ r ∈ Deed.openings ds, ∃ y, Closed (R.store t) r y ∧
      (Deed.Sound Use.AtEnd ds → y = o) := hall.closed hclock hu
  have hread : ∀ {r e es}, (R.store t).Holds r e es → ((R.store t).get r).status = e.status ∧
      ((R.store t).get r).endTime = e.endTime ∧ ((R.store t).get r).logs = e.logs := fun hh => by
    rw [← hh.stem]
    exact ⟨rfl, rfl, rfl⟩
  refine ⟨fun r hr => ?_, ⟨turns, hturns, hmarks⟩, fun hs => ⟨fun r hr => ?_, hends hs⟩⟩
  · obtain ⟨y, ⟨e, es, hh, hstatus, hend, -⟩, -⟩ := hclosed r hr
    rw [(hread hh).1, (hread hh).2.1, hstatus]
    exact ⟨by cases y <;> simp [statusOf], hend⟩
  · obtain ⟨y, ⟨e, es, hh, hstatus, -, hlog⟩, hy⟩ := hclosed r hr
    obtain rfl := hy hs
    rw [(hread hh).1, (hread hh).2.2, hstatus]
    refine ⟨rfl, fun f hf => ?_⟩
    obtain ⟨entry, hentry, hrep⟩ := hlog f hf
    exact ⟨entry, hh.entries entry hentry, hrep⟩

/-! ## A chain of two attempts -/

/-- User code of an agent that answers with nothing. -/
def replySetup : Setup :=
  ⟨default, ⟨fun _ args => (Routine.alter fun s =>
    match args with
    | [_, _, _, .reply r] => s.update r fun x => x.answered false .null
    | _ => s).bind fun _ => .done .null, default, none, [], [], none⟩⟩

/-- A goal with one criterion, and an agent for it. -/
def replyStore : Store :=
  { Store.empty with
    dicts := #[[], [("quality", .null)]]
    agents := #[⟨"writer", ⟨0⟩, [], .null⟩]
    agentRegistry := [("writer", ⟨0⟩)]
    goals := #[⟨"report", "", "", ⟨0⟩, none, none, ⟨1⟩, none⟩] }

def replyRun : Run replySetup.body :=
  .launched _ replyStore (replySetup.body (.pursue ⟨0⟩ .null 1 none))

theorem replyRun_clock : ∀ n, ∃ moment, (replyRun.store n).now = .ok moment := by
  refine Run.launched_store replySetup.body replyStore _ (k := 189)
    (P := fun s => ∃ moment, s.now = .ok moment) ?_ fun n hn => ?_
  · exact Option.isNone_iff_eq_none.1 (by decide +kernel)
  · have h : ((List.range 191).all fun n => (replyRun.store n).now.toOption.isSome) = true := by
      decide +kernel
    have hn := List.all_eq_true.1 h n (List.mem_range.2 (Nat.lt_succ_of_le hn))
    cases hnow : (replyRun.store n).now with
    | ok moment => exact ⟨moment, hnow⟩
    | error c =>
      rw [hnow] at hn
      cases hn

/-- The agent writes into its reply only. -/
theorem replySetup_keeps {P : Store → Prop}
    (hP : ∀ s (r : Ref .reply) f, P s → P (s.update r f)) (c : Ref .callable) (args : List Value) :
    (replySetup.desk.call c args).Keeps P := by
  refine Routine.Keeps.bind (Routine.keeps_alter fun s hs => ?_) fun _ => show True from trivial
  split
  · exact hP s _ _ hs
  · exact hs

theorem replyRun_account : ∃ ds v, replySetup.Does replyRun 189 0 1
    (replySetup.plan (.pursue ⟨0⟩ .null 1 none)) ds (some (188, .ok v)) ∧ Deed.Calm ds := by
  obtain ⟨ds, t, o, h⟩ := Run.launched_account replySetup.desk.call (Setup.erase_plan replySetup)
    (x := replySetup.plan (.pursue ⟨0⟩ .null 1 none)) (Setup.erase_plan replySetup _) (N := 189)
    (s := replyStore) (by decide) (by decide +kernel)
  have hlead : (((replySetup.plan (.pursue ⟨0⟩ .null 1 none)).leads replySetup.desk.call
      replySetup.plan 4 1 (replyRun.store 1)).map fun y => (y.1, y.2.1.toBool)) = some (188, true) := by
    decide +kernel
  obtain ⟨y, hy, hend⟩ := Option.map_eq_some_iff.1 hlead
  obtain ⟨t', o', u⟩ := y
  obtain ⟨hc, rfl, rfl, -⟩ := Account.leads h hy
  cases o with
  | ok v =>
    cases hend
    exact ⟨ds, v, h, hc⟩
  | error f => cases hend

theorem status_chain_reply : ∃ ds o, replySetup.Does replyRun 189 0 1
      (replySetup.plan (.pursue ⟨0⟩ .null 1 none)) ds (some (188, o)) ∧ Deed.Calm ds ∧
    (replyRun.store 1).mapping? (inputOf (replyRun.store 1) ⟨0⟩ .null) ≠ none ∧
    Deed.Untouched replyRun ds ∧
    ∀ r ∈ Deed.openings ds, ((replyRun.store 188).get r).status ∈ [.completed, .failed] ∧
      ((replyRun.store 188).get r).endTime.isSome = true := by
  obtain ⟨ds, v, h, hc⟩ := replyRun_account
  have hmap : (replyRun.store 1).mapping? (inputOf (replyRun.store 1) ⟨0⟩ .null) ≠ none := nofun
  have hu : Deed.Untouched replyRun ds := fun r _ e es => h.leave (replySetup_keeps
    fun _ _ _ hs => ⟨hs.there, hs.stem, hs.logs, hs.entries⟩)
  exact ⟨ds, _, h, hc, hmap, hu, (status_chain replyRun_clock h hc hmap hu).1⟩

end Pursuit

end Conductor
