import Conductor.Proofs.Account.Reading

/-!
# What occurs in an account

Every deed of an account, to any depth, begins no earlier than the account, and what goes on inside
of it has an account of its own (`Account.occurs`). If an account ends, the deeds in it have ended
before, provided that no branch was left behind (`Account.before`).

No abort comes out of an account if none comes out of the user code that is called
(`Account.tame`). And the end of an account does not depend on the horizon: up to a later one the
same things have happened (`Account.unique`).
-/

namespace Conductor

variable {body : Procedure → Routine Value} {R : Run body} {run : Handlers}
  {plan : Procedure → Outline Value} {N : Nat} {α : Type} {b n t : Nat} {ds : List Deed}

theorem Deed.mem_parts {first : Nat} {ps : List Procedure} {dss : Fin ps.length → List Deed}
    {es : Fin ps.length → Ending Value} {d : Deed} :
    d ∈ Deed.parts n first ps dss es ↔
      ∃ i : Fin ps.length, d = .part n (first + i) (ps.get i) (dss i) (es i) := by
  rw [Deed.parts, List.mem_ofFn]
  exact exists_congr fun i => eq_comm

theorem Deed.parts_inj {first : Nat} {ps ps' : List Procedure} {dss : Fin ps.length → List Deed}
    {es : Fin ps.length → Ending Value} {dss' : Fin ps'.length → List Deed}
    {es' : Fin ps'.length → Ending Value}
    (h : Deed.parts n first ps dss es = Deed.parts n first ps' dss' es') :
    ps = ps' ∧ HEq dss dss' ∧ HEq es es' := by
  have hlen : ps.length = ps'.length := by simpa [Deed.parts] using congrArg List.length h
  obtain rfl : ps = ps' := by
    refine List.ext_getElem hlen fun i h₁ h₂ => ?_
    have hi := congrArg (·[i]?) h
    simp only [Deed.parts, List.getElem?_ofFn, h₁, h₂, dif_pos, Option.some.injEq,
      Deed.part.injEq] at hi
    exact hi.2.2.1
  have hall := List.ofFn_injective h
  refine ⟨rfl, heq_of_eq (funext fun i => ?_), heq_of_eq (funext fun i => ?_)⟩
  · have hi := congrFun hall i
    injection hi
  · have hi := congrFun hall i
    injection hi

/-- What holds of some deeds, and with a deed of what goes on inside of it, holds to any depth. -/
theorem Occurs.all {P : Deed → Prop} {d : Deed} (hd : Occurs d ds) (h : ∀ x ∈ ds, P x)
    (hin : ∀ x, P x → ∀ y ∈ x.inner, P y) : P d := by
  induction hd with
  | here hd => exact h _ hd
  | inside hd' _ ih => exact ih fun y hy => hin _ (h _ hd') y hy

/-! ## Deeds and their insides -/

/-- What goes on inside of a deed has an account. -/
inductive Deed.Accounted (R : Run body) (run : Handlers) (plan : Procedure → Outline Value)
    (N : Nat) : Deed → Prop where
  | remark (n : Nat) (l : Remark) : Accounted R run plan N (.remark n l)
  | ask {b n : Nat} (u : Use) {c : Ref .callable} {args : List Value} {ds : List Deed}
    {e : Ending Value} (h : Account R run plan N b n (.now (.plain (run c args))) ds e) :
    Accounted R run plan N (.ask n u c args ds e)
  | part {b n : Nat} {p : Procedure} {ds : List Deed} {e : Ending Value} {s : Stretch Value}
    (hs : s = .now (plan p) ∨ s = .later (plan p)) (h : Account R run plan N b (n + 1) s ds e) :
    Accounted R run plan N (.part n b p ds e)
  | fork {n first : Nat} (kind : JoinKind) {ps : List Procedure}
    {dss : Fin ps.length → List Deed} {es : Fin ps.length → Ending Value} {e : Ending (List Value)}
    (h : ∀ i : Fin ps.length,
      Account R run plan N (first + i) (n + 1) (.later (plan (ps.get i))) (dss i) (es i))
    (he : ∀ t o, e = some (t, o) → n < t ∧ t ≤ N ∧ kind.Left es t o ∧
      ∀ i : Fin ps.length, (∃ s < t, ∃ x, es i = some (s, x)) ∨
        first + i ∈ (R.moment t).detached ∨ ∃ f, o = .error f ∧ f.isCatchable = false) :
    Accounted R run plan N (.fork n kind (Deed.parts n first ps dss es) e)

/-- When a deed ends, if it does; a remark takes no time. -/
def Deed.end? : Deed → Option Nat
  | .remark n _ => some n
  | .ask _ _ _ _ _ e | .part _ _ _ _ e => e.map Prod.fst
  | .fork _ _ _ e => e.map Prod.fst

namespace Account

theorem ending_ge {s : Stretch α} {e : Ending α} (h : Account R run plan N b n s ds e) :
    ∀ {t : Nat} {o : Except Failure α}, e = some (t, o) → n ≤ t := by
  intro t o he
  induction h generalizing t with
  | done | fail => cases he; exact le_rfl
  | stop | rest | asking | calling | forking => cases he
  | remark _ _ ih => exact ih he
  | get _ _ _ _ ih | put _ _ _ _ ih | skip _ _ _ _ _ ih | drained _ _ _ _ _ ih
  | sleep _ _ _ ih | drain _ _ _ _ ih => exact Nat.le_of_succ_le (ih he)
  | resume hn _ _ _ _ ih => exact hn.trans (ih he)
  | ask _ _ _ _ _ ih ihk => exact (ih rfl).trans (ihk he)
  | call _ _ _ _ _ ih ihk => exact (Nat.le_of_succ_le (ih rfl)).trans (ihk he)
  | fork _ _ hn _ _ _ _ _ _ _ _ _ _ ihk => exact hn.le.trans (ihk he)

theorem ending_le {s : Stretch α} {e : Ending α} (h : Account R run plan N b n s ds e)
    (hN : n ≤ N) : ∀ {t : Nat} {o : Except Failure α}, e = some (t, o) → t ≤ N := by
  intro t o he
  induction h generalizing t with
  | done | fail => cases he; exact hN
  | stop | rest | asking | calling | forking => cases he
  | remark _ _ ih => exact ih hN he
  | get hn _ _ _ ih | put hn _ _ _ ih | skip _ hn _ _ _ ih | drained hn _ _ _ _ ih
  | sleep hn _ _ ih | drain hn _ _ _ ih => exact ih hn he
  | resume _ hN' _ _ _ ih => exact ih hN' he
  | ask _ _ _ _ _ ih ihk => exact ihk (ih hN rfl) he
  | call hn _ _ _ _ ih ihk => exact ihk (ih hn rfl) he
  | fork _ _ _ hN' _ _ _ _ _ _ _ _ _ ihk => exact ihk hN' he

/-- The deeds of an account begin after its beginning, have accounts inside, and have ended before
its end. -/
theorem mem {s : Stretch α} {e : Ending α} (h : Account R run plan N b n s ds e) :
    ∀ d ∈ ds, n ≤ d.moment ∧ d.Accounted R run plan N ∧
      ∀ t o, e = some (t, o) → ∃ i, d.end? = some i ∧ i ≤ t := by
  -- What is true of an account that begins later is true.
  have hlater : ∀ {β : Type} {n n' : Nat} {ds : List Deed} {e : Ending β}, n ≤ n' →
      (∀ d ∈ ds, n' ≤ d.moment ∧ d.Accounted R run plan N ∧
        ∀ t o, e = some (t, o) → ∃ i, d.end? = some i ∧ i ≤ t) →
      ∀ d ∈ ds, n ≤ d.moment ∧ d.Accounted R run plan N ∧
        ∀ t o, e = some (t, o) → ∃ i, d.end? = some i ∧ i ≤ t :=
    fun hn h d hd => ⟨hn.trans (h d hd).1, (h d hd).2⟩
  induction h with
  | done | fail | stop | rest => exact fun d hd => nomatch hd
  | remark l h ih =>
    refine List.forall_mem_cons.2 ⟨⟨le_rfl, .remark _ l, fun t o he => ⟨_, rfl, ?_⟩⟩, ih⟩
    exact h.ending_ge he
  | get _ _ _ _ ih | put _ _ _ _ ih | skip _ _ _ _ _ ih | drained _ _ _ _ _ ih
  | sleep _ _ _ ih | drain _ _ _ _ ih => exact hlater (Nat.le_succ _) ih
  | resume hn _ _ _ _ ih => exact hlater hn ih
  | ask u c args h hk ih ihk =>
    refine List.forall_mem_cons.2 ⟨⟨le_rfl, .ask u h, fun t o he => ⟨_, rfl, ?_⟩⟩,
      hlater (h.ending_ge rfl) ihk⟩
    exact hk.ending_ge he
  | asking u c args h ih =>
    exact List.forall_mem_singleton.2 ⟨le_rfl, .ask u h, fun t o he => nomatch he⟩
  | call hn ht hs h hk ih ihk =>
    refine List.forall_mem_cons.2 ⟨⟨le_rfl, .part (Or.inl rfl) h, fun t o he => ⟨_, rfl, ?_⟩⟩,
      hlater (Nat.le_of_succ_le (h.ending_ge rfl)) ihk⟩
    exact hk.ending_ge he
  | calling hn ht hs h ih =>
    exact List.forall_mem_singleton.2 ⟨le_rfl, .part (Or.inl rfl) h, fun t o he => nomatch he⟩
  | fork hw hps hn hN ht hi ht' h hv ho hd hk ih ihk =>
    refine List.forall_mem_cons.2 ⟨⟨le_rfl, .fork _ h fun t o he => ?_, fun t o he => ⟨_, rfl, ?_⟩⟩,
      hlater hn.le ihk⟩
    · cases he
      exact ⟨hn, hN, ho, hd⟩
    · exact hk.ending_ge he
  | forking hw hps hn ht hi h ih =>
    exact List.forall_mem_singleton.2 ⟨le_rfl, .fork _ h fun t o he => (nomatch he),
      fun t o he => nomatch he⟩

/-- Where the inside of a deed is told. -/
theorem inside {d d' : Deed} (h : d.Accounted R run plan N) (hd : d' ∈ d.inner) :
    d.moment ≤ d'.moment ∧ d'.Accounted R run plan N := by
  cases h with
  | remark => cases hd
  | ask u h => exact ⟨(h.mem d' hd).1, (h.mem d' hd).2.1⟩
  | part hs h => exact ⟨Nat.le_of_succ_le (h.mem d' hd).1, (h.mem d' hd).2.1⟩
  | fork kind h he =>
    obtain ⟨i, rfl⟩ := Deed.mem_parts.1 hd
    exact ⟨le_rfl, .part (Or.inr rfl) (h i)⟩

/-- **Every deed that occurs in an account** begins no earlier, and has an account inside. -/
theorem occurs {s : Stretch α} {e : Ending α} (h : Account R run plan N b n s ds e) {d : Deed}
    (hd : Occurs d ds) : n ≤ d.moment ∧ d.Accounted R run plan N := by
  refine hd.all (P := fun d => n ≤ d.moment ∧ d.Accounted R run plan N)
    (fun d hd => ⟨(h.mem d hd).1, (h.mem d hd).2.1⟩) fun x hx y hy => ?_
  exact ⟨hx.1.trans (inside hx.2 hy).1, (inside hx.2 hy).2⟩

end Account

/-- A part with an account has one from the moment at which it begins, or it has not begun yet. -/
theorem Deed.Accounted.part_cases {m b' : Nat} {p : Procedure} {inner : List Deed}
    {e' : Ending Value} (h : (Deed.part m b' p inner e').Accounted R run plan N) :
    (∃ t, m < t ∧ Account R run plan N b' t (.now (plan p)) inner e') ∨ inner = [] ∧ e' = none := by
  cases h with
  | part hs h =>
    rcases hs with rfl | rfl
    · exact Or.inl ⟨m + 1, Nat.lt_succ_self m, h⟩
    · cases h with
      | resume hn _ _ _ h => exact Or.inl ⟨_, hn, h⟩
      | rest => exact Or.inr ⟨rfl, rfl⟩

/-- A part that occurs in an account has one of its own, from the moment at which it begins, or it
has not begun yet. -/
theorem Account.part {s : Stretch α} {e : Ending α} (h : Account R run plan N b n s ds e)
    {m b' : Nat} {p : Procedure} {inner : List Deed} {e' : Ending Value}
    (hd : Occurs (.part m b' p inner e') ds) :
    (∃ t, m < t ∧ Account R run plan N b' t (.now (plan p)) inner e') ∨ inner = [] ∧ e' = none :=
  (h.occurs hd).2.part_cases

/-! ## No aborts -/

/-- Nothing that an outline says is about an abort. -/
def Remark.Mild : Remark → Prop
  | .reports f => f.isCatchable = true
  | .emits .. | .records .. | .notes .. | .opens _ | .judges .. => True

/-- No abort comes out of an outline unless one comes out of what it waits for or of user code. -/
def Outline.Tame : Outline α → Prop
  | .done _ => True
  | .fail f => f.isCatchable = true
  | .get k => ∀ s, (k s).Tame
  | .put _ x => x.Tame
  | .await _ k => ∀ o, Conductor.Tame o → (k o).Tame
  | .remark l x => l.Mild → x.Tame
  | .ask _ _ _ k => ∀ o, Conductor.Tame o → (k o).Tame

namespace Outline

variable {β : Type}

theorem Tame.thenOn {x : Outline α} {g : Except Failure α → Outline β} (hx : x.Tame)
    (hg : ∀ o, Conductor.Tame o → (g o).Tame) : (x.thenOn g).Tame := by
  induction x with
  | done a => exact hg _ (tame_ok a)
  | fail f => exact hg _ ((tame_error f).2 hx)
  | get k ih => exact fun s => ih s (hx s)
  | put s x ih => exact ih hx
  | await w k ih => exact fun o ho => ih o (hx o ho)
  | remark l x ih => exact fun hl => ih (hx hl)
  | ask u c args k ih => exact fun o ho => ih o (hx o ho)

theorem Tame.bind {x : Outline α} {g : α → Outline β} (hx : x.Tame) (hg : ∀ a, (g a).Tame) :
    (x >>= g).Tame := by
  refine hx.thenOn fun o ho => ?_
  cases o with
  | ok a => exact hg a
  | error f => exact (tame_error f).1 ho

/-- Behind a handler the failure is known to be none of the aborts. -/
theorem Tame.attempt_bind {x : Outline α} {g : Except Failure α → Outline β} (hx : x.Tame)
    (hg : ∀ o, Conductor.Tame o → (g o).Tame) : (x.attempt >>= g).Tame := by
  rw [bind_eq, attempt, thenOn_thenOn]
  refine hx.thenOn fun o ho => ?_
  cases o with
  | ok a => exact hg _ (tame_ok a)
  | error f =>
    have hf := (tame_error f).1 ho
    simp only [caught, if_pos hf]
    exact hg _ ho

theorem tame_plain {r : Routine α} (h : r.Tame) : (plain r).Tame := by
  induction r with
  | done a => trivial
  | fail f => exact h
  | get k ih => exact fun s => ih s (h s)
  | put s r ih => exact ih h
  | await w k ih => exact fun o ho => ih o (h.2 o ho)

/-- Calling another part, whichever it is. -/
theorem tame_part (p : Procedure) : (plain (.call p)).Tame := by
  intro o ho
  cases o with
  | ok vs => trivial
  | error f => exact (tame_error f).1 ho

@[simp] theorem tame_pure (a : α) : (pure a : Outline α).Tame := trivial

theorem tame_ofOutcome {o : Except Failure α} (h : Conductor.Tame o) : (ofOutcome o).Tame := by
  cases o with
  | ok a => trivial
  | error f => exact (tame_error f).1 h

@[simp] theorem tame_call (u : Use) (c : Ref .callable) (args : List Value) :
    (call u c args).Tame := fun _ => tame_ofOutcome

@[simp] theorem tame_say (l : Remark) : (say l).Tame := fun _ => trivial

theorem tame_each {f : α → Outline Unit} (h : ∀ a, (f a).Tame) :
    ∀ xs : List α, (each f xs).Tame
  | [] => trivial
  | x :: xs => Tame.bind (h x) fun _ => tame_each h xs

end Outline

/-- User code that is called fails only with failures that can be handled, and reports no others. -/
structure Deed.Calm (ds : List Deed) : Prop where
  asked : ∀ {n u c args inner t f}, Occurs (.ask n u c args inner (some (t, .error f))) ds →
    f.isCatchable = true
  said : ∀ {n l}, Occurs (.remark n l) ds → l.Mild

theorem Deed.Calm.of_occurs {ds' : List Deed} (h : Deed.Calm ds)
    (hs : ∀ {d}, Occurs d ds' → Occurs d ds) : Deed.Calm ds' :=
  ⟨fun hd => h.asked (hs hd), fun hd => h.said (hs hd)⟩

theorem Deed.Calm.tail {d : Deed} (h : Deed.Calm (d :: ds)) : Deed.Calm ds :=
  h.of_occurs fun hd => Occurs.cons.2 (Or.inr (Or.inr hd))

theorem Deed.Calm.inner {d : Deed} (h : Deed.Calm ds) (hd : d ∈ ds) : Deed.Calm d.inner :=
  h.of_occurs (.inside hd)

theorem Deed.calm_nil : Deed.Calm [] :=
  ⟨fun hd => absurd hd Occurs.not_nil, fun hd => absurd hd Occurs.not_nil⟩

theorem Deed.Calm.cons {d : Deed} (hr : ∀ m l, d = .remark m l → l.Mild)
    (ha : ∀ m u c args inner t f, d = .ask m u c args inner (some (t, .error f)) →
      f.isCatchable = true) (hi : Deed.Calm d.inner) (ht : Deed.Calm ds) : Deed.Calm (d :: ds) := by
  refine ⟨fun hd => ?_, fun hd => ?_⟩
  · rcases Occurs.cons.1 hd with rfl | hd | hd
    · exact ha _ _ _ _ _ _ _ rfl
    · exact hi.asked hd
    · exact ht.asked hd
  · rcases Occurs.cons.1 hd with rfl | hd | hd
    · exact hr _ _ rfl
    · exact hi.said hd
    · exact ht.said hd

theorem Deed.calm_parts {first : Nat} {ps : List Procedure} {dss : Fin ps.length → List Deed}
    {es : Fin ps.length → Ending Value} (h : ∀ i, Deed.Calm (dss i)) :
    Deed.Calm (Deed.parts n first ps dss es) := by
  refine ⟨fun hd => ?_, fun hd => ?_⟩
  · cases hd with
    | here hd =>
      obtain ⟨i, heq⟩ := Deed.mem_parts.1 hd
      cases heq
    | inside hd hx =>
      obtain ⟨i, rfl⟩ := Deed.mem_parts.1 hd
      exact (h i).asked hx
  · cases hd with
    | here hd =>
      obtain ⟨i, heq⟩ := Deed.mem_parts.1 hd
      cases heq
    | inside hd hx =>
      obtain ⟨i, rfl⟩ := Deed.mem_parts.1 hd
      exact (h i).said hx

theorem Deed.Calm.append {ds' : List Deed} (h : Deed.Calm (ds ++ ds')) :
    Deed.Calm ds ∧ Deed.Calm ds' :=
  ⟨h.of_occurs fun hd => Occurs.append.2 (Or.inl hd),
    h.of_occurs fun hd => Occurs.append.2 (Or.inr hd)⟩

/-- A stretch from which no abort comes. -/
def Stretch.Tame : Stretch α → Prop
  | .now x | .later x => x.Tame

theorem JoinKind.Left.error {kind : JoinKind} {k : Nat} {es : Fin k → Ending Value} {f : Failure}
    (h : kind.Left es n (.error f)) : ∃ i, ∃ t < n, es i = some (t, .error f) := by
  cases kind with
  | all =>
    rcases h with ⟨vs, h, -⟩ | ⟨g, h, i, t, ht, hi⟩
    · cases h
    · cases h
      exact ⟨i, t, ht, hi⟩
  | first =>
    obtain ⟨i, t, ht, x, hi, h⟩ := h
    cases x with
    | ok v => cases h
    | error g =>
      cases h
      exact ⟨i, t, ht, hi⟩
  | ended => exact h.elim

theorem tame_only {x : Except Failure Value} (h : Tame x) : Tame (Routine.only x) := by
  cases x with
  | ok v => exact tame_ok _
  | error f => exact (tame_error f).2 ((tame_error f).1 h)

namespace Account

/-- **No abort comes out of an account** if none comes out of user code. -/
theorem tame (hplan : ∀ p, (plan p).Tame) {s : Stretch α} {e : Ending α}
    (h : Account R run plan N b n s ds e) (hs : s.Tame) (hds : Deed.Calm ds)
    {o : Except Failure α} (he : e = some (t, o)) : Conductor.Tame o := by
  induction h generalizing t with
  | done => cases he; exact tame_ok _
  | fail => cases he; exact (tame_error _).2 hs
  | stop | rest | asking | calling | forking => cases he
  | remark _ _ ih => exact ih (hs (hds.said (.here List.mem_cons_self))) hds.tail he
  | get _ _ _ _ ih => exact ih (hs _) hds he
  | put _ _ _ _ ih => exact ih hs hds he
  | sleep _ _ _ ih => exact ih (hs _ (tame_ok _)) hds he
  | resume _ _ _ _ _ ih => exact ih hs hds he
  | skip _ _ _ _ _ ih => exact ih (hs _ (tame_ok _)) hds he
  | drain _ _ _ _ ih => exact ih hs hds he
  | drained _ _ _ _ _ ih => exact ih (hs _ (tame_ok _)) hds he
  | @ask _ _ _ i u c args x _ inner _ _ _ _ _ ihk =>
    refine ihk (hs _ ?_) hds.tail he
    cases x with
    | ok v => exact tame_ok v
    | error f => exact (tame_error f).2 (hds.asked (.here List.mem_cons_self))
  | call _ _ _ _ _ ih ihk =>
    exact ihk (hs _ (tame_only (ih (hplan _) (hds.inner List.mem_cons_self) rfl))) hds.tail he
  | fork _ _ _ _ _ _ _ _ _ ho _ _ ih ihk =>
    refine ihk (hs _ fun f hf => ?_) hds.tail he
    subst hf
    obtain ⟨i, t, -, hi⟩ := ho.error
    exact (tame_error f).1 (ih i (hplan _)
      ((hds.inner List.mem_cons_self).inner (Deed.mem_parts.2 ⟨i, rfl⟩)) hi)

end Account

/-! ## What has ended -/

namespace Deed

/-- A deed has started parts side by side and has left one of them behind when it was over. -/
def Leaves (R : Run body) (d x : Deed) : Prop :=
  ∃ m kind inner t o m' b' p ds' e, d = .fork m kind inner (some (t, o)) ∧ x ∈ inner ∧
    x = .part m' b' p ds' e ∧ b' ∈ (R.moment t).detached

/-- A deed was left behind by one that occurs among others. -/
def Behind (R : Run body) (ds : List Deed) (x : Deed) : Prop := ∃ d, Occurs d ds ∧ Leaves R d x

end Deed

namespace Account

/-- What a fork gives is no abort if no abort comes out of user code in it. -/
theorem fork_tame (hplan : ∀ p, (plan p).Tame) {m : Nat} {kind : JoinKind} {inner : List Deed}
    {o : Outcome} (h : (Deed.fork m kind inner (some (t, o))).Accounted R run plan N)
    (hc : Deed.Calm inner) : Conductor.Tame o := by
  cases h with
  | fork _ h he =>
    rintro f rfl
    obtain ⟨i, s, -, hi⟩ := (he t _ rfl).2.2.1.error
    exact (tame_error f).1
      ((h i).tame hplan (hplan _) (hc.inner (Deed.mem_parts.2 ⟨i, rfl⟩)) hi)

/-- What goes on inside of a deed that has ended has ended before, or was left behind by a fork. -/
theorem inside_ended (hplan : ∀ p, (plan p).Tame) {d d' : Deed} (h : d.Accounted R run plan N)
    (hc : Deed.Calm d.inner) (hd : d' ∈ d.inner) {i : Nat} (hi : d.end? = some i) :
    (∃ j, d'.end? = some j ∧ j ≤ i) ∨ Deed.Leaves R d d' := by
  cases h with
  | remark => cases hd
  | ask u h =>
    obtain ⟨y, rfl, rfl⟩ := Option.map_eq_some_iff.1 hi
    exact Or.inl ((h.mem d' hd).2.2 _ _ rfl)
  | part hs h =>
    obtain ⟨y, rfl, rfl⟩ := Option.map_eq_some_iff.1 hi
    exact Or.inl ((h.mem d' hd).2.2 _ _ rfl)
  | fork kind h he =>
    obtain ⟨⟨t, o⟩, rfl, rfl⟩ := Option.map_eq_some_iff.1 hi
    have htame := fork_tame hplan (.fork kind h he) hc
    obtain ⟨-, -, -, hall⟩ := he t o rfl
    obtain ⟨k, rfl⟩ := Deed.mem_parts.1 hd
    rcases hall k with ⟨s, hs, x, hx⟩ | hdet | ⟨f, rfl, hf⟩
    · exact Or.inl ⟨s, by rw [Deed.end?, hx]; rfl, hs.le⟩
    · exact Or.inr ⟨_, _, _, t, o, _, _, _, _, _, rfl, hd, rfl, hdet⟩
    · rw [(tame_error f).1 htame] at hf
      cases hf

/-- A deed begins before it ends. -/
theorem moment_le_end {d : Deed} (h : d.Accounted R run plan N) {i : Nat}
    (hi : d.end? = some i) : d.moment ≤ i := by
  cases h with
  | remark => cases hi; exact le_rfl
  | ask u h =>
    obtain ⟨y, rfl, rfl⟩ := Option.map_eq_some_iff.1 hi
    exact h.ending_ge rfl
  | part hs h =>
    obtain ⟨y, rfl, rfl⟩ := Option.map_eq_some_iff.1 hi
    exact Nat.le_of_succ_le (h.ending_ge rfl)
  | fork kind h he =>
    obtain ⟨⟨t, o⟩, rfl, rfl⟩ := Option.map_eq_some_iff.1 hi
    exact (he t o rfl).1.le

/-- **What goes on of something that is over** goes on in parts that it has left behind. -/
theorem ended_or_behind (hplan : ∀ p, (plan p).Tame) {s : Stretch α} {o : Except Failure α}
    (h : Account R run plan N b n s ds (some (t, o))) (hc : Deed.Calm ds) {d : Deed}
    (hd : Occurs d ds) : (∃ i, d.end? = some i ∧ i ≤ t) ∨
      ∃ x, Deed.Behind R ds x ∧ (d = x ∨ Occurs d x.inner) := by
  refine (hd.all (P := fun y => Occurs y ds ∧ ((∃ i, y.end? = some i ∧ i ≤ t) ∨
    ∃ x, Deed.Behind R ds x ∧ (y = x ∨ Occurs y x.inner))) (fun x hx => ?_) ?_).2
  · exact ⟨.here hx, Or.inl ((h.mem x hx).2.2 t o rfl)⟩
  · rintro y ⟨hy, ⟨i, hi, hit⟩ | ⟨x, hx, hyx⟩⟩ z hz
    · refine ⟨.trans (.here hz) hy, ?_⟩
      rcases inside_ended hplan (h.occurs hy).2 (hc.of_occurs fun hw => .trans hw hy) hz hi with
        ⟨j, hj, hji⟩ | hleft
      · exact Or.inl ⟨j, hj, hji.trans hit⟩
      · exact Or.inr ⟨z, ⟨y, hy, hleft⟩, Or.inl rfl⟩
    · refine ⟨.trans (.here hz) hy, Or.inr ⟨x, hx, Or.inr ?_⟩⟩
      rcases hyx with rfl | hyx
      · exact .here hz
      · exact .trans (.here hz) hyx

/-- A fork in an account leaves nobody behind if nobody is ever left behind. -/
theorem not_behind (hleft : ∀ t ≤ N, (R.moment t).detached = []) {s : Stretch α} {e : Ending α}
    (h : Account R run plan N b n s ds e) (x : Deed) : ¬Deed.Behind R ds x := by
  rintro ⟨d, hd, m, kind, inner, t, o, m', b', p, ds', e', rfl, -, -, hdet⟩
  have htN : t ≤ N := by
    cases (h.occurs hd).2 with
    | fork _ _ he => exact (he t o rfl).2.1
  rw [hleft t htN] at hdet
  cases hdet

/-- **Deeds end before the account ends**, to any depth, if no branch is left behind. -/
theorem ended (hplan : ∀ p, (plan p).Tame) (hleft : ∀ t ≤ N, (R.moment t).detached = [])
    {s : Stretch α} {o : Except Failure α} (h : Account R run plan N b n s ds (some (t, o)))
    (hds : Deed.Calm ds) {d : Deed} (hd : Occurs d ds) : ∃ i, d.end? = some i ∧ i ≤ t := by
  rcases h.ended_or_behind hplan hds hd with hend | ⟨x, hx, -⟩
  · exact hend
  · exact absurd hx (h.not_behind hleft x)

/-- Deeds begin before the account ends, to any depth, if no branch is left behind. -/
theorem before (hplan : ∀ p, (plan p).Tame) (hleft : ∀ t ≤ N, (R.moment t).detached = [])
    {s : Stretch α} {o : Except Failure α} (h : Account R run plan N b n s ds (some (t, o)))
    (hds : Deed.Calm ds) {d : Deed} (hd : Occurs d ds) : d.moment ≤ t := by
  obtain ⟨i, hi, hit⟩ := h.ended hplan hleft hds hd
  exact (moment_le_end (h.occurs hd).2 hi).trans hit

/-! ## One run, one end -/

/-- The first moment at which a branch has the turn. -/
theorem turn_eq {t' : Nat} (hi : R.Idle b n t) (hn : n ≤ t) (ht : R.HasTurn b t)
    (hi' : R.Idle b n t') (hn' : n ≤ t') (ht' : R.HasTurn b t') : t = t' := by
  rcases Nat.lt_trichotomy t t' with hlt | heq | hlt
  · exact absurd ht (hi' t hn hlt)
  · exact heq
  · exact absurd ht' (hi t' hn' hlt)

/-- **The end of an account does not depend on the horizon.** -/
theorem unique {N' : Nat} {s : Stretch α} {e : Ending α} (h : Account R run plan N b n s ds e) :
    ∀ {t : Nat} {o : Except Failure α}, e = some (t, o) → ∀ {ds' : List Deed} {e' : Ending α},
      Account R run plan N' b n s ds' e' → e' = some (t, o) ∨ e' = none ∧ N' < t := by
  intro t o he ds' e' h'
  induction h generalizing t ds' with
  | done | fail =>
    cases he
    cases h' with
    | stop _ hx => exact hx.elim
    | _ => exact Or.inl rfl
  | stop | rest | asking | calling | forking => cases he
  | remark l h ih =>
    cases h' with
    | stop _ hx => exact hx.elim
    | remark _ h' => exact ih he h'
  | get hn ht hs h ih =>
    cases h' with
    | stop => exact Or.inr ⟨rfl, h.ending_ge he⟩
    | get _ _ _ h' => exact ih he h'
  | put hn ht hs h ih =>
    cases h' with
    | stop => exact Or.inr ⟨rfl, h.ending_ge he⟩
    | put _ _ _ h' => exact ih he h'
  | ask u c args h hk ih ihk =>
    cases h' with
    | stop _ hx => exact hx.elim
    | ask _ _ _ h' hk' =>
      rcases ih rfl h' with heq | ⟨heq, -⟩
      · cases heq
        exact ihk he hk'
      · cases heq
    | asking _ _ _ h' =>
      rcases ih rfl h' with heq | ⟨-, hlt⟩
      · cases heq
      · exact Or.inr ⟨rfl, hlt.trans_le (hk.ending_ge he)⟩
  | call hn ht hs h hk ih ihk =>
    cases h' with
    | stop => exact Or.inr ⟨rfl, Nat.lt_of_lt_of_le (h.ending_ge rfl) (hk.ending_ge he)⟩
    | call _ _ _ h' hk' =>
      rcases ih rfl h' with heq | ⟨heq, -⟩
      · cases heq
        exact ihk he hk'
      · cases heq
    | calling _ _ _ h' =>
      rcases ih rfl h' with heq | ⟨-, hlt⟩
      · cases heq
      · exact Or.inr ⟨rfl, hlt.trans_le (hk.ending_ge he)⟩
    | skip hw | fork hw | forking hw => cases hw
  | sleep hn ht h ih =>
    cases h' with
    | stop => exact Or.inr ⟨rfl, h.ending_ge he⟩
    | sleep _ _ h' => exact ih he h'
    | skip hw | fork hw | forking hw => cases hw
  | resume hn hN hi ht h ih =>
    cases h' with
    | resume hn' _ hi' ht' h' =>
      cases turn_eq hi hn ht hi' hn' ht'
      exact ih he h'
    | rest _ _ hi' =>
      refine Or.inr ⟨rfl, Nat.lt_of_lt_of_le ?_ (h.ending_ge he)⟩
      by_contra hlt
      exact hi' _ hn (by omega) ht
  | skip hw hn ht hs h ih =>
    cases h' with
    | stop => exact Or.inr ⟨rfl, h.ending_ge he⟩
    | call | sleep | calling | drain | drained => cases hw
    | skip _ _ _ _ h' => exact ih he h'
    | fork hw' hps | forking hw' hps =>
      rw [hw] at hw'
      cases hw'
      exact absurd rfl hps
  | fork hw hps hn hN ht hi ht' h hv ho hd hk ih ihk =>
    cases h' with
    | stop => exact Or.inr ⟨rfl, Nat.lt_of_lt_of_le hn (hk.ending_ge he)⟩
    | call | sleep | calling | drain | drained => cases hw
    | skip hw' =>
      rw [hw] at hw'
      cases hw'
      exact absurd rfl hps
    | fork _ _ hn' _ _ hi' ht'' _ hv' _ _ hk' =>
      cases turn_eq hi hn ht' hi' hn' ht''
      cases hv.eq hv'
      exact ihk he hk'
    | forking _ _ _ _ hi' =>
      refine Or.inr ⟨rfl, Nat.lt_of_lt_of_le ?_ (hk.ending_ge he)⟩
      by_contra hlt
      exact hi' _ hn (by omega) ht'
  | drain hn ht hd h ih =>
    cases h' with
    | stop => exact Or.inr ⟨rfl, h.ending_ge he⟩
    | drain _ _ _ h' => exact ih he h'
    | drained _ _ hd' => exact absurd hd' hd
    | skip hw | fork hw | forking hw => cases hw
  | drained hn ht hd hs h ih =>
    cases h' with
    | stop => exact Or.inr ⟨rfl, h.ending_ge he⟩
    | drained _ _ _ _ h' => exact ih he h'
    | drain _ _ hd' => exact absurd hd hd'
    | skip hw | fork hw | forking hw => cases hw

end Account

end Conductor
