import Conductor.Proofs.Account.Asking
import Conductor.Proofs.Account.Existence
import Conductor.Proofs.Account.Obeying
import Conductor.Proofs.Account.Time

/-!
# Runs of one routine

The run in which one routine is launched in a store and then everything goes on until nothing is
left to do. If its branch has ended at some moment, there is an account of the routine up to that
moment, and the account has ended (`Run.launched_account`).

User code that returns at once neither fails nor takes time (`Account.prompt`).
-/

namespace Conductor

namespace Schedule

variable (body : Procedure → Routine Value)

/-- Where a step leads. A schedule in which nothing is left to do stays as it is. -/
def next (m : Schedule) : Schedule := (m.step body).getD m

/-- The schedule after a number of steps. -/
def after (m : Schedule) : Nat → Schedule
  | 0 => m
  | n + 1 => (after m n).next body

theorem moves_next (m : Schedule) : m.Moves body (m.next body) := by
  unfold next
  cases h : m.step body with
  | some m' => exact .step h
  | none => exact .rest h

variable {body}

theorem after_add (m : Schedule) (i : Nat) :
    ∀ k, m.after body (i + k) = (m.after body i).after body k
  | 0 => rfl
  | k + 1 => congrArg (next body) (after_add m i k)

/-- When nothing is left to do, nothing happens any more. -/
theorem after_of_step_eq_none {m : Schedule} {k n : Nat} (h : (m.after body k).step body = none)
    (hn : k ≤ n) : m.after body n = m.after body k := by
  induction n, hn using Nat.le_induction with
  | base => rfl
  | succ _ _ ih => rw [after, ih, next, h, Option.getD_none]

end Schedule

namespace Run

variable {body : Procedure → Routine Value} {s : Store} {r : Routine Value}

/-- A routine is launched, and then everything goes on by itself. -/
def launched (body : Procedure → Routine Value) (s : Store) (r : Routine Value) : Run body where
  moment
    | 0 => .ofStore s
    | n + 1 => ((Schedule.ofStore s).launch r).2.after body n
  begins := ⟨s, rfl⟩
  moves
    | 0 => .launch rfl r
    | _ + 1 => Schedule.moves_next body _

theorem minds_launched_in {C : Conduct} (hr : r.Obeys C s) : (launched body s r).Minds C
  | 0 => Or.inr (Or.inr ⟨r, rfl, rfl, hr⟩)
  | n + 1 => by
    cases h : ((launched body s r).moment (n + 1)).step body with
    | some m => exact Or.inl (congrArg some (by
        show m = (((launched body s r).moment (n + 1)).step body).getD _
        rw [h]
        rfl))
    | none => exact Or.inr (Or.inl (by
        show (((launched body s r).moment (n + 1)).step body).getD _ = _
        rw [h]
        rfl))

theorem minds_launched {C : Conduct} (hr : ∀ t, r.Obeys C t) : (launched body s r).Minds C :=
  minds_launched_in (hr s)

/-- Whatever holds of the store up to a moment behind which nothing is left to do, holds always. -/
theorem launched_store (body : Procedure → Routine Value) (s : Store) (r : Routine Value) {k : Nat}
    {P : Store → Prop}
    (h : ((launched body s r).moment (k + 1)).step body = none)
    (hP : ∀ n ≤ k + 1, P ((launched body s r).store n)) (n : Nat) :
    P ((launched body s r).store n) := by
  rcases Nat.le_total n (k + 1) with hn | hn
  · exact hP n hn
  · obtain ⟨n, rfl⟩ : ∃ i, n = i + 1 := ⟨n - 1, by omega⟩
    have heq : (launched body s r).moment (n + 1) = (launched body s r).moment (k + 1) :=
      Schedule.after_of_step_eq_none h (Nat.le_of_succ_le_succ hn)
    rw [Run.store, heq]
    exact hP (k + 1) le_rfl

/-- No branch sets the clock, if none does until nothing is left to do. -/
theorem keepsTime_launched (body : Procedure → Routine Value) (s : Store) (r : Routine Value) {k : Nat}
    (h : ((launched body s r).moment (k + 1)).step body = none)
    (hk : ∀ n ≤ k, ((launched body s r).moment n).active ≠ none →
      ((launched body s r).store (n + 1)).clock = ((launched body s r).store n).clock) :
    (launched body s r).KeepsTime := by
  intro n ha
  by_cases hn : n ≤ k
  · exact hk n hn ha
  · obtain ⟨n, rfl⟩ : ∃ i, n = i + 1 := ⟨n - 1, by omega⟩
    have heq : ∀ i, k ≤ i → (launched body s r).moment (i + 1) = (launched body s r).moment (k + 1) :=
      fun i hi => Schedule.after_of_step_eq_none h hi
    rw [Run.store, Run.store, heq n (by omega), heq (n + 1) (by omega)]

/-- **A routine whose branch has ended has an account that has ended.** -/
theorem launched_account (run : Handlers) {plan : Procedure → Outline Value} {N : Nat}
    (hplan : ∀ p, (plan p).erase run = body p) {x : Outline Value} (hx : x.erase run = r)
    (hN : 1 ≤ N) (hend : ((launched body s r).moment N).isOpen 0 = false) :
    ∃ ds t o, Account (launched body s r) run plan N 0 1 (.now x) ds (some (t, o)) := by
  have ha : ((launched body s r).moment 1).active =
      some (0, (x.erase run).thenOn Routine.ofOutcome) := by
    rw [Routine.thenOn_ofOutcome, hx]
    rfl
  obtain ⟨ds, e, h, he⟩ := (launched body s r).exists_account hplan hN x Routine.ofOutcome 0 ha
  cases e with
  | some y => exact ⟨ds, y.1, y.2, h⟩
  | none => exact absurd (show _ = true from he) (by rw [hend]; exact nofun)

end Run

/-- User code that returns at once. -/
def Handlers.Prompt (run : Handlers) : Prop := ∀ c args, ∃ v, run c args = .done v

namespace Account

variable {body : Procedure → Routine Value} {R : Run body} {run : Handlers}
  {plan : Procedure → Outline Value} {N : Nat} {α : Type} {b n : Nat} {ds : List Deed}
  {s : Stretch α} {e : Ending α}

theorem prompt (hrun : run.Prompt) (h : Account R run plan N b n s ds e) {m : Nat} {u : Use}
    {c : Ref .callable} {args : List Value} {inner : List Deed} {e' : Ending Value}
    (hd : Occurs (.ask m u c args inner e') ds) : inner = [] ∧ ∃ v, e' = some (m, .ok v) := by
  obtain ⟨v, hv⟩ := hrun c args
  cases (h.occurs hd).2 with
  | ask u h =>
    rw [hv] at h
    obtain ⟨rfl, rfl⟩ := h.done_iff
    exact ⟨rfl, v, rfl⟩

theorem prompt_sound (hrun : run.Prompt) (h : Account R run plan N b n s ds e)
    (P : Use → Prop) : Deed.Sound P ds :=
  ⟨fun _ hd => by
    obtain ⟨-, v, hv⟩ := h.prompt hrun hd
    cases hv⟩

/-- User code from which no abort comes fails with nothing else, if all that is said is mild. -/
theorem calm (hrun : run.Tame) (hplan : ∀ p, (plan p).Tame) (h : Account R run plan N b n s ds e)
    (hs : s.Tame) (hsaid : ∀ {m l}, Occurs (.remark m l) ds → l.Mild) : Deed.Calm ds := by
  -- With the deeds, the ending is tame as well.
  suffices hall : Deed.Calm ds ∧ ∀ t o, e = some (t, o) → Tame o from hall.1
  have hcall : ∀ c args, (Stretch.now (.plain (run c args))).Tame := fun c args =>
    Outline.tame_plain (hrun c args)
  induction h with
  | done a => exact ⟨Deed.calm_nil, fun t o he => by cases he; exact tame_ok a⟩
  | fail f => exact ⟨Deed.calm_nil, fun t o he => by cases he; exact (tame_error f).2 hs⟩
  | stop | rest => exact ⟨Deed.calm_nil, fun t o he => by cases he⟩
  | remark l h ih =>
    have hl : l.Mild := hsaid (.here List.mem_cons_self)
    obtain ⟨hc, ho⟩ := ih (hs hl) fun hd => hsaid (hd.mono fun _ => List.mem_cons_of_mem _)
    exact ⟨Deed.Calm.cons (fun m l' heq => by cases heq; exact hl) (by simp) Deed.calm_nil hc, ho⟩
  | get hn ht hst h ih => exact ih (hs _) hsaid
  | put hn ht hst h ih => exact ih hs hsaid
  | @ask _ b n t u c args o k _ _ _ h hk ih ihk =>
    obtain ⟨hc, ho⟩ := ih (hcall c args) fun hd => hsaid (.inside List.mem_cons_self hd)
    have htame := ho _ _ rfl
    obtain ⟨hc', ho'⟩ := ihk (hs _ htame) fun hd => hsaid (hd.mono fun _ => List.mem_cons_of_mem _)
    refine ⟨Deed.Calm.cons (by simp) (fun m u' c' args' inner t' f heq => ?_) hc hc', ho'⟩
    cases heq
    exact (tame_error f).1 htame
  | @asking _ b n u c args k _ h ih =>
    obtain ⟨hc, -⟩ := ih (hcall c args) fun hd => hsaid (.inside List.mem_cons_self hd)
    exact ⟨Deed.Calm.cons (by simp) (by simp) hc Deed.calm_nil, fun t o he => by cases he⟩
  | call hn ht hst h hk ih ihk =>
    obtain ⟨hc, ho⟩ := ih (hplan _) fun hd => hsaid (.inside List.mem_cons_self hd)
    obtain ⟨hc', ho'⟩ := ihk (hs _ (tame_only (ho _ _ rfl))) fun hd =>
      hsaid (hd.mono fun _ => List.mem_cons_of_mem _)
    exact ⟨Deed.Calm.cons (by simp) (by simp) hc hc', ho'⟩
  | calling hn ht hst h ih =>
    obtain ⟨hc, -⟩ := ih (hplan _) fun hd => hsaid (.inside List.mem_cons_self hd)
    exact ⟨Deed.Calm.cons (by simp) (by simp) hc Deed.calm_nil, fun t o he => by cases he⟩
  | sleep hn ht h ih => exact ih (hs _ (tame_ok _)) hsaid
  | resume hn hN hi ht h ih => exact ih hs hsaid
  | skip hw hn ht hst h ih => exact ih (hs _ (tame_ok _)) hsaid
  | drain hn ht hd h ih => exact ih hs hsaid
  | drained hn ht hd hst h ih => exact ih (hs _ (tame_ok _)) hsaid
  | @fork _ b n t w kind ps k o _ _ dss es hw hps hn hN ht hi ht' h hv hl hd hk ih ihk =>
    have hparts := fun i => ih i (hplan _) fun hd =>
      hsaid (.inside List.mem_cons_self (.inside (Deed.mem_parts.2 ⟨i, rfl⟩) hd))
    have htame : Tame o := by
      rintro f rfl
      obtain ⟨i, s, -, he⟩ := hl.error
      exact (tame_error f).1 ((hparts i).2 _ _ he)
    obtain ⟨hc', ho'⟩ := ihk (hs _ htame) fun hd => hsaid (hd.mono fun _ => List.mem_cons_of_mem _)
    exact ⟨Deed.Calm.cons (by simp) (by simp) (Deed.calm_parts fun i => (hparts i).1) hc', ho'⟩
  | @forking _ b n w kind ps k dss es hw hps hn ht hi h ih =>
    have hparts := fun i => ih i (hplan _) fun hd =>
      hsaid (.inside List.mem_cons_self (.inside (Deed.mem_parts.2 ⟨i, rfl⟩) hd))
    exact ⟨Deed.Calm.cons (by simp) (by simp) (Deed.calm_parts fun i => (hparts i).1) Deed.calm_nil,
      fun t o he => by cases he⟩

end Account

/-! ## Outlines that are followed to their ends -/

/-- Whether an outcome is no abort. -/
def isTame {α : Type} : Except Failure α → Bool
  | .ok _ => true
  | .error f => f.isCatchable

/-- Whether something that is said is about no abort. -/
def Remark.isMild : Remark → Bool
  | .reports f => f.isCatchable
  | _ => true

theorem Remark.mild_of_isMild {l : Remark} (h : l.isMild = true) : l.Mild := by
  cases l with
  | reports f => exact h
  | _ => trivial

namespace Outline

variable (run : Handlers) (plan : Procedure → Outline Value)

/-- Where an outline leads from a moment on, in a given store, if it waits for nothing but the parts
that it calls and nothing is about an abort; given where the parts and user code lead. -/
def leadsBy {α : Type}
    (lead : Outline Value → Nat → Store → Option (Nat × Except Failure Value × Store)) :
    Outline α → Nat → Store → Option (Nat × Except Failure α × Store)
  | .done a, n, s => some (n, .ok a, s)
  | .fail f, n, s => some (n, .error f, s)
  | .get k, n, s => leadsBy lead (k s) (n + 1) s
  | .put t x, n, _ => leadsBy lead x (n + 1) t
  | .remark l x, n, s => if l.isMild then leadsBy lead x n s else none
  | .ask _ c args k, n, s =>
    match lead (plain (run c args)) n s with
    | some (t, o, u) => if isTame o then leadsBy lead (k o) t u else none
    | none => none
  | .await (.call p) k, n, s =>
    match lead (plan p) (n + 1) s with
    | some (t, o, u) => leadsBy lead (k (Routine.only o)) t u
    | none => none
  | .await .., _, _ => none

/-- Where an outline leads; the fuel bounds how deep the calls nest. -/
def leads : Nat → Outline Value → Nat → Store → Option (Nat × Except Failure Value × Store)
  | 0 => fun _ _ _ => none
  | fuel + 1 => leadsBy run plan (leads fuel)

end Outline

namespace Account

variable {body : Procedure → Routine Value} {R : Run body} {run : Handlers}
  {plan : Procedure → Outline Value} {N : Nat} {α : Type} {b n t : Nat} {ds : List Deed}

theorem leadsBy
    {lead : Outline Value → Nat → Store → Option (Nat × Except Failure Value × Store)}
    (hlead : ∀ {x : Outline Value} {n t ds o t' o' u}, Account R run plan N b n (.now x) ds (some (t, o)) →
      lead x n (R.store n) = some (t', o', u) → Deed.Calm ds ∧ t = t' ∧ o = o' ∧ R.store t = u)
    {x : Outline α} {o o' : Except Failure α} {t' : Nat} {u : Store}
    (h : Account R run plan N b n (.now x) ds (some (t, o)))
    (hx : x.leadsBy run plan lead n (R.store n) = some (t', o', u)) :
    Deed.Calm ds ∧ t = t' ∧ o = o' ∧ R.store t = u := by
  induction x generalizing n ds with
  | done a =>
    obtain ⟨rfl, he⟩ := h.done_iff
    cases he
    cases hx
    exact ⟨Deed.calm_nil, rfl, rfl, rfl⟩
  | fail f =>
    obtain ⟨rfl, he⟩ := h.fail_iff
    cases he
    cases hx
    exact ⟨Deed.calm_nil, rfl, rfl, rfl⟩
  | get k ih =>
    cases h with
    | get _ _ hs h => exact ih _ h (by rw [hs]; exact hx)
  | put s x ih =>
    cases h with
    | put _ _ hs h => exact ih h (by rw [hs]; exact hx)
  | remark l x ih =>
    cases h with
    | remark _ h =>
      rw [Outline.leadsBy] at hx
      split at hx
      · next hl =>
        obtain ⟨hc, hrest⟩ := ih h hx
        exact ⟨Deed.Calm.cons (fun m l' heq => by cases heq; exact Remark.mild_of_isMild hl) (by simp)
          Deed.calm_nil hc, hrest⟩
      · cases hx
  | ask u' c args k ih =>
    cases h with
    | @ask _ _ _ i _ _ _ y _ inner _ _ h hk =>
      rw [Outline.leadsBy] at hx
      cases hcall : lead (.plain (run c args)) n (R.store n) with
      | none =>
        rw [hcall] at hx
        cases hx
      | some z =>
        obtain ⟨i', y', s'⟩ := z
        obtain ⟨hin, rfl, rfl, hs⟩ := hlead h hcall
        rw [hcall] at hx
        dsimp only at hx
        split at hx
        · next htame =>
          obtain ⟨hc, hrest⟩ := ih _ hk (by rw [hs]; exact hx)
          refine ⟨Deed.Calm.cons (by simp) (fun m v c' args' inner' t' f heq => ?_) hin hc, hrest⟩
          cases heq
          exact htame
        · cases hx
  | await w k ih =>
    cases w with
    | call p =>
      cases h with
      | @call _ _ _ i _ _ y inner _ _ _ _ hs h hk =>
        rw [Outline.leadsBy] at hx
        cases hcall : lead (plan p) (n + 1) (R.store n) with
        | none =>
          rw [hcall] at hx
          cases hx
        | some z =>
          obtain ⟨i', y', s'⟩ := z
          obtain ⟨hin, rfl, rfl, hs'⟩ := hlead h (by rw [hs]; exact hcall)
          rw [hcall] at hx
          obtain ⟨hc, hrest⟩ := ih _ hk (by rw [hs']; exact hx)
          exact ⟨Deed.Calm.cons (by simp) (by simp) hin hc, hrest⟩
      | skip hw | fork hw => cases hw
    | _ => cases hx

/-- **An outline that can be followed goes where it leads**, and everything in it is calm. -/
theorem leads {fuel : Nat} {x : Outline Value} {o o' : Except Failure Value} {t' : Nat} {u : Store}
    (h : Account R run plan N b n (.now x) ds (some (t, o)))
    (hx : x.leads run plan fuel n (R.store n) = some (t', o', u)) :
    Deed.Calm ds ∧ t = t' ∧ o = o' ∧ R.store t = u := by
  induction fuel generalizing x n ds t o t' o' u with
  | zero => cases hx
  | succ fuel ih => exact h.leadsBy (fun h hx => ih h hx) hx

end Account

end Conductor
