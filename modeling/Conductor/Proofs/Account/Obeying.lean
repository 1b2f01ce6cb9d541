import Conductor.Proofs.Account.Inside
import Conductor.Proofs.Schedule.Course

/-!
# What branches start

The account of a routine that obeys a conduct starts the parts that the conduct allows, whatever
user code does meanwhile (`Account.obeys`). If all parts that are allowed, and user code, obey the
conduct as well, nothing else occurs in the account to any depth (`Account.occurring`).

If every routine that begins in a run obeys a conduct, then the store only changes as the conduct
permits (`Run.guaranteed`).
-/

namespace Conductor

variable {body : Procedure → Routine Value} {R : Run body} {run : Handlers}
  {plan : Procedure → Outline Value} {N : Nat} {α β : Type} {b n t : Nat} {ds ds' : List Deed}

/-- A part is called or started at a moment in a list of deeds, not inside of them. -/
def Deed.Starts (ds : List Deed) (p : Procedure) (m : Nat) : Prop :=
  ∃ b inner e, .part m b p inner e ∈ ds ∨
    ∃ kind parts e', .fork m kind parts e' ∈ ds ∧ .part m b p inner e ∈ parts

theorem Deed.starts_append {p : Procedure} {m : Nat} (h : Deed.Starts (ds ++ ds') p m) :
    Deed.Starts ds p m ∨ Deed.Starts ds' p m := by
  obtain ⟨b, inner, e, h | ⟨kind, parts, e', h, hp⟩⟩ := h
  · exact (List.mem_append.1 h).imp (fun h => ⟨b, inner, e, Or.inl h⟩)
      fun h => ⟨b, inner, e, Or.inl h⟩
  · exact (List.mem_append.1 h).imp (fun h => ⟨b, inner, e, Or.inr ⟨kind, parts, e', h, hp⟩⟩)
      fun h => ⟨b, inner, e, Or.inr ⟨kind, parts, e', h, hp⟩⟩

theorem Deed.starts_cons {d : Deed} {p : Procedure} {m : Nat} (h : Deed.Starts (d :: ds) p m) :
    Deed.Starts [d] p m ∨ Deed.Starts ds p m :=
  Deed.starts_append h

theorem Deed.not_starts_nil {p : Procedure} {m : Nat} : ¬Deed.Starts [] p m := by
  rintro ⟨b, inner, e, h | ⟨kind, parts, e', h, -⟩⟩ <;> cases h

theorem Deed.starts_remark {l : Remark} {p : Procedure} {m : Nat} :
    ¬Deed.Starts [.remark n l] p m := by
  rintro ⟨b, inner, e, h | ⟨kind, parts, e', h, -⟩⟩ <;> cases List.mem_singleton.1 h

theorem Deed.starts_ask {u : Use} {c : Ref .callable} {args : List Value} {inner : List Deed}
    {e : Ending Value} {p : Procedure} {m : Nat} : ¬Deed.Starts [.ask n u c args inner e] p m := by
  rintro ⟨b, inner, e, h | ⟨kind, parts, e', h, -⟩⟩ <;> cases List.mem_singleton.1 h

theorem Deed.starts_part {q : Procedure} {inner : List Deed} {e : Ending Value} {p : Procedure}
    {m : Nat} (h : Deed.Starts [.part n b q inner e] p m) : m = n ∧ p = q := by
  obtain ⟨b, inner, e, h | ⟨kind, parts, e', h, -⟩⟩ := h
  · cases List.mem_singleton.1 h
    exact ⟨rfl, rfl⟩
  · cases List.mem_singleton.1 h

theorem Deed.starts_fork {first : Nat} {kind : JoinKind} {ps : List Procedure}
    {dss : Fin ps.length → List Deed} {es : Fin ps.length → Ending Value}
    {e : Ending (List Value)} {p : Procedure} {m : Nat}
    (h : Deed.Starts [.fork n kind (Deed.parts n first ps dss es) e] p m) : m = n ∧ p ∈ ps := by
  obtain ⟨b, inner, e, h | ⟨kind, parts, e', h, hp⟩⟩ := h
  · cases List.mem_singleton.1 h
  · cases List.mem_singleton.1 h
    obtain ⟨i, hi⟩ := Deed.mem_parts.1 hp
    injection hi with _ _ hp
    exact ⟨rfl, hp ▸ List.getElem_mem i.2⟩

/-- User code of which nothing is known: it comes back at some time, with anything. -/
def Handlers.unknown : Handlers := fun _ _ => .await (.sleep .zero) Routine.single

theorem Handlers.obey_unknown (C : Conduct) : unknown.Obey C := fun _ _ _ =>
  ⟨by simp [Wait.procedures], fun o _ _ => Routine.obeys_single o⟩

/-- What a stretch does when it gets the turn at a moment, and then goes on with something, obeys a
conduct, whatever the user code in it does. -/
def Stretch.Obeys (R : Run body) (C : Conduct) (s : Stretch α) (n : Nat)
    (g : Except Failure α → Routine β) : Prop :=
  match s with
  | .now x => ((x.erase .unknown).thenOn g).Obeys C (R.store n)
  | .later x => ∀ i, n ≤ i → ((x.erase .unknown).thenOn g).Obeys C (R.store i)

/-- Behind a stretch nothing has to follow. -/
theorem Stretch.obeys_of {C : Conduct} {x : Outline α} (h : (x.erase .unknown).Obeys C (R.store n)) :
    Stretch.Obeys R C (.now x) n Routine.ofOutcome := by
  rw [Stretch.Obeys, Routine.thenOn_ofOutcome]
  exact h

namespace Account

variable {C : Conduct}

/-- **The account of a routine that obeys a conduct** starts what the conduct allows, and leaves to
what comes behind it a store in which that obeys the conduct. -/
theorem obeys (hrely : ∀ i j, i ≤ j → C.rely (R.store i) (R.store j)) {s : Stretch α}
    {e : Ending α} (h : Account R run plan N b n s ds e) {g : Except Failure α → Routine β}
    (hs : s.Obeys R C n g) : (∀ p m, Deed.Starts ds p m → C.calls p (R.store m)) ∧
      ∀ t o, e = some (t, o) → (g o).Obeys C (R.store t) := by
  have hnil : ∀ p m, Deed.Starts [] p m → C.calls p (R.store m) := fun _ _ h =>
    absurd h Deed.not_starts_nil
  induction h with
  | done a | fail f =>
    refine ⟨hnil, fun t o he => ?_⟩
    cases he
    exact hs
  | stop | rest => exact ⟨hnil, nofun⟩
  | remark l h ih =>
    refine ⟨fun p m hp => ?_, (ih hs).2⟩
    exact (Deed.starts_cons hp).elim (fun h => absurd h Deed.starts_remark) ((ih hs).1 p m)
  | get hn ht hst h ih => exact ih (by rw [Stretch.Obeys, hst]; exact hs)
  | put hn ht hst h ih => exact ih (by rw [Stretch.Obeys, hst]; exact hs.2)
  | @ask _ _ n t u c args o k _ _ _ h hk ih ihk =>
    have hs' := hs.2 (Routine.only o) _ (hrely n t (h.ending_ge rfl))
    have hrest := ihk (g := g) (by cases o <;> exact hs')
    refine ⟨fun p m hp => ?_, hrest.2⟩
    exact (Deed.starts_cons hp).elim (fun h => absurd h Deed.starts_ask) (hrest.1 p m)
  | asking u c args h ih =>
    exact ⟨fun p m hp => absurd hp Deed.starts_ask, nofun⟩
  | call hn ht hst h hk ih ihk =>
    have hrest := ihk (hs.2 _ _ (hrely _ _ (Nat.le_of_succ_le (h.ending_ge rfl))))
    refine ⟨fun p m hp => ?_, hrest.2⟩
    rcases Deed.starts_cons hp with hp | hp
    · obtain ⟨rfl, rfl⟩ := Deed.starts_part hp
      exact hs.1 _ (by simp [Wait.procedures])
    · exact hrest.1 p m hp
  | calling hn ht hst h ih =>
    refine ⟨fun p m hp => ?_, nofun⟩
    obtain ⟨rfl, rfl⟩ := Deed.starts_part hp
    exact hs.1 _ (by simp [Wait.procedures])
  | sleep hn ht h ih => exact ih fun i hi => hs.2 _ _ (hrely _ _ (Nat.le_of_succ_le hi))
  | resume hn hN hi ht h ih => exact ih (hs _ hn)
  | skip hw hn ht hst h ih => exact ih (hs.2 _ _ (hrely _ _ (Nat.le_succ _)))
  | fork hw hps hn hN ht hi ht' h hv ho hd hk ih ihk =>
    have hrest := ihk (hs.2 _ _ (hrely _ _ hn.le))
    refine ⟨fun p m hp => ?_, hrest.2⟩
    rcases Deed.starts_cons hp with hp | hp
    · obtain ⟨rfl, hmem⟩ := Deed.starts_fork hp
      exact hs.1 _ (by rw [Schedule.sides_procedures hw]; exact hmem)
    · exact hrest.1 p m hp
  | forking hw hps hn ht hi h ih =>
    refine ⟨fun p m hp => ?_, nofun⟩
    obtain ⟨rfl, hmem⟩ := Deed.starts_fork hp
    exact hs.1 _ (by rw [Schedule.sides_procedures hw]; exact hmem)
  | drain hn ht hd h ih =>
    exact ih fun i hi => ⟨by simp [Wait.procedures], fun o u hu => hs.2 o u
      (C.trans (hrely _ _ (Nat.le_of_succ_le hi)) hu)⟩
  | drained hn ht hd hst h ih => exact ih (hs.2 _ _ (hrely _ _ (Nat.le_succ _)))

/-- **Only parts that are allowed occur** in the account of what obeys a conduct, if these parts and
user code obey it as well. -/
theorem occurring (hrely : ∀ i j, i ≤ j → C.rely (R.store i) (R.store j)) (hrun : run.Obey C)
    (hplan : ∀ p i j, C.calls p (R.store i) → i ≤ j →
      ((plan p).erase .unknown).Obeys C (R.store j))
    {x : Outline α} {e : Ending α} (h : Account R run plan N b n (.now x) ds e)
    (hx : (x.erase .unknown).Obeys C (R.store n)) {m b' : Nat} {p : Procedure} {inner : List Deed}
    {e' : Ending Value} (hd : Occurs (.part m b' p inner e') ds) : C.calls p (R.store m) := by
  have hdeep : ∀ {d : Deed} {ds : List Deed}, Occurs d ds → ∀ {m b' p inner e'},
      d = .part m b' p inner e' → (∀ x ∈ ds, x.Accounted R run plan N) →
      (∀ p m, Deed.Starts ds p m → C.calls p (R.store m)) → C.calls p (R.store m) := by
    intro d ds hd
    induction hd with
    | here hd =>
      rintro m b' p inner e' rfl _ hstarts
      exact hstarts p m ⟨b', inner, e', Or.inl hd⟩
    | @inside ds d' hd' _ ih =>
      intro m b' p inner e' heq hacc hstarts
      refine ih heq (fun x hx => (inside (hacc _ hd') hx).2) fun q i hq => ?_
      cases hacc _ hd' with
      | remark => exact absurd hq Deed.not_starts_nil
      | ask u h =>
        refine (h.obeys hrely (Stretch.obeys_of ?_)).1 q i hq
        rw [Outline.erase_plain]
        exact hrun _ _ _
      | @part b'' n' r _ _ s hs h =>
        have hr := hstarts r n' ⟨_, _, _, Or.inl hd'⟩
        rcases hs with rfl | rfl
        · exact (h.obeys hrely (Stretch.obeys_of (hplan r n' _ hr (Nat.le_succ _)))).1 q i hq
        · refine (h.obeys hrely (g := Routine.ofOutcome) fun j hj => ?_).1 q i hq
          rw [Routine.thenOn_ofOutcome]
          exact hplan r n' j hr (Nat.le_of_succ_le hj)
      | fork kind h he =>
        obtain ⟨b₁, inner₁, e₁, hq | ⟨_, _, _, hq, -⟩⟩ := hq
        · have hi := hq
          obtain ⟨k, hk⟩ := Deed.mem_parts.1 hi
          injection hk with hk
          subst hk
          exact hstarts q _ ⟨b₁, inner₁, e₁, Or.inr ⟨_, _, _, hd', hq⟩⟩
        · obtain ⟨k, hk⟩ := Deed.mem_parts.1 hq
          cases hk
  exact hdeep hd rfl (fun d hd => (h.mem d hd).2.1) (h.obeys hrely (Stretch.obeys_of hx)).1

end Account

/-! ## Runs under a conduct -/

namespace Run

variable {C : Conduct}

/-- Every routine that begins in the run obeys a conduct. -/
def Minds (R : Run body) (C : Conduct) : Prop :=
  ∀ n, (R.moment n).step body = some (R.moment (n + 1)) ∨ R.moment (n + 1) = R.moment n ∨
    ∃ r, (R.moment n).active = none ∧ R.moment (n + 1) = ((R.moment n).launch r).2 ∧
      r.Obeys C (R.store n)

theorem disciplined (hC : (C.discipline body).Lawful) (hsame : ∀ s, C.writes s s)
    (hR : R.Minds C) (n : Nat) : (C.discipline body).Disciplined (R.moment n) := by
  induction n with
  | zero =>
    obtain ⟨s, hs⟩ := R.begins
    rw [hs]
    exact Schedule.Discipline.disciplined_ofStore _ s
  | succ n ih =>
    rcases hR n with h | h | ⟨r, ha, h, hr⟩
    · exact ih.step hC h
    · rw [h]
      exact ih
    · rw [h]
      exact ih.begin hC ha (hsame _) (g := ()) hr

/-- **The store only changes as the conduct permits.** -/
theorem guaranteed (hC : (C.discipline body).Lawful) (hsame : ∀ s, C.writes s s)
    (hR : R.Minds C) (n : Nat) : R.store (n + 1) = R.store n ∨ C.writes (R.store n) (R.store (n + 1)) := by
  rcases hR n with h | h | ⟨r, -, h, -⟩
  · obtain ⟨hB, γ, st, hc⟩ := disciplined hC hsame hR n
    obtain ⟨-, -, -, -, hs, -⟩ := hc.step hC hB h
    exact hs
  · exact Or.inl (congrArg Schedule.store h)
  · exact Or.inl ((congrArg Schedule.store h).trans rfl)

theorem relies (hC : (C.discipline body).Lawful) (hsame : ∀ s, C.writes s s) (hR : R.Minds C)
    {i j : Nat} (hij : i ≤ j) : C.rely (R.store i) (R.store j) := by
  induction j, hij using Nat.le_induction with
  | base => exact C.refl _
  | succ j _ ih =>
    rcases guaranteed hC hsame hR j with h | h
    · rw [h]
      exact ih
    · exact C.trans ih (C.relied h)

end Run

end Conductor
