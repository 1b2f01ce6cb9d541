import Conductor.Proofs.Account.Goals

/-!
# What is said and who is asked

What an account says by itself, apart from what goes on inside of its deeds (`Deed.said`), and the
calls of user code that it makes in a row. An emission says that the hooks at a point are about to
run and then calls those that are registered there, in order, until one of them fails
(`Account.emission`).

A routine without anything to say says nothing and calls no user code by itself
(`Account.silent`).
-/

namespace Conductor

variable {body : Procedure → Routine Value} {R : Run body} {run : Handlers}
  {plan : Procedure → Outline Value} {N : Nat} {α β : Type} {b n t : Nat} {ds ds' : List Deed}

/-- Whether user code is called as a hook. -/
def Use.IsHook (u : Use) : Prop := ∃ name, u = .hook name

namespace Deed

/-! ## Sayings -/

/-- What is said in a list of deeds, not counting what is said inside of them. -/
def said (ds : List Deed) : List Remark :=
  ds.filterMap fun d => match d with | .remark _ l => some l | _ => none

@[simp] theorem said_nil : said [] = [] := rfl

@[simp] theorem said_remark (n : Nat) (l : Remark) (ds : List Deed) :
    said (.remark n l :: ds) = l :: said ds := rfl

@[simp] theorem said_ask (n : Nat) (u : Use) (c : Ref .callable) (args : List Value)
    (inner : List Deed) (e : Ending Value) (ds : List Deed) :
    said (.ask n u c args inner e :: ds) = said ds := rfl

@[simp] theorem said_part (n b : Nat) (p : Procedure) (inner : List Deed) (e : Ending Value)
    (ds : List Deed) : said (.part n b p inner e :: ds) = said ds := rfl

@[simp] theorem said_fork (n : Nat) (kind : JoinKind) (inner : List Deed)
    (e : Ending (List Value)) (ds : List Deed) : said (.fork n kind inner e :: ds) = said ds := rfl

@[simp] theorem said_append : said (ds ++ ds') = said ds ++ said ds' := List.filterMap_append

/-- Nothing is said in a list of deeds, and no user code is called, except inside of parts. -/
def Silent (ds : List Deed) : Prop :=
  ∀ d ∈ ds, (∃ n b p inner e, d = .part n b p inner e) ∨ ∃ n kind inner e, d = .fork n kind inner e

theorem Silent.append (h : Silent ds) (h' : Silent ds') : Silent (ds ++ ds') :=
  fun d hd => (List.mem_append.1 hd).elim (h d) (h' d)

theorem Silent.said (h : Silent ds) : said ds = [] := by
  induction ds with
  | nil => rfl
  | cons d ds ih =>
    have hd := ih fun x hx => h x (List.mem_cons_of_mem _ hx)
    obtain ⟨n, b, p, inner, e, rfl⟩ | ⟨n, kind, inner, e, rfl⟩ := h d List.mem_cons_self
    · exact hd
    · exact hd

/-! ## Calls of user code -/

/-- User code that is called for certain uses does not fail. -/
structure Sound (P : Use → Prop) (ds : List Deed) : Prop where
  asked : ∀ {n u c args inner t f}, P u → ¬Occurs (.ask n u c args inner (some (t, .error f))) ds

section Sound

variable {P : Use → Prop}

theorem Sound.of_occurs (h : Sound P ds) (hs : ∀ {d}, Occurs d ds' → Occurs d ds) : Sound P ds' :=
  ⟨fun hu hd => h.asked hu (hs hd)⟩

theorem Sound.mono {Q : Use → Prop} (h : Sound P ds) (hQ : ∀ u, Q u → P u) : Sound Q ds :=
  ⟨fun hu => h.asked (hQ _ hu)⟩

theorem Sound.append (h : Sound P (ds ++ ds')) : Sound P ds ∧ Sound P ds' :=
  ⟨h.of_occurs fun hd => Occurs.append.2 (Or.inl hd),
    h.of_occurs fun hd => Occurs.append.2 (Or.inr hd)⟩

theorem Sound.tail {d : Deed} (h : Sound P (d :: ds)) : Sound P ds :=
  h.of_occurs fun hd => Occurs.cons.2 (Or.inr (Or.inr hd))

theorem Sound.inside {d : Deed} (h : Sound P ds) (hd : Occurs d ds) : Sound P d.inner :=
  h.of_occurs fun hx => hx.trans hd

theorem Sound.hook {name : HookName} (h : Sound Use.IsHook ds) : Sound (· = .hook name) ds :=
  h.mono fun _ hu => ⟨name, hu⟩

end Sound

theorem Calm.inside {d : Deed} (h : Calm ds) (hd : Occurs d ds) : Calm d.inner :=
  h.of_occurs fun hx => hx.trans hd

/-- User code is called in a row, every time for the same use and with the same arguments. -/
def Calls (u : Use) (args : List Value) (cs : List (Ref .callable)) (ds : List Deed) : Prop :=
  List.Forall₂ (fun c d => ∃ n inner e, d = .ask n u c args inner e) cs ds

theorem Calls.said {u : Use} {args : List Value} {cs : List (Ref .callable)}
    (h : Calls u args cs ds) : said ds = [] := by
  induction h with
  | nil => rfl
  | cons hd _ ih =>
    obtain ⟨n, inner, e, rfl⟩ := hd
    exact ih

/-- Calls in a row are calls of user code, and all for one use. -/
theorem Calls.mem {u : Use} {args : List Value} {cs : List (Ref .callable)} {d : Deed}
    (h : Calls u args cs ds) (hd : d ∈ ds) : ∃ n c inner e, d = .ask n u c args inner e := by
  induction h with
  | nil => cases hd
  | cons hx _ ih =>
    rcases List.mem_cons.1 hd with rfl | hd
    · obtain ⟨n, inner, e, rfl⟩ := hx
      exact ⟨n, _, inner, e, rfl⟩
    · exact ih hd

/-- Nothing is called or started in a list of deeds except user code. -/
def Bare (ds : List Deed) : Prop :=
  ∀ d ∈ ds, (∃ n l, d = .remark n l) ∨ ∃ n u c args inner e, d = .ask n u c args inner e

theorem Bare.append (h : Bare ds) (h' : Bare ds') : Bare (ds ++ ds') :=
  fun d hd => (List.mem_append.1 hd).elim (h d) (h' d)

theorem Bare.cons_remark {l : Remark} (h : Bare ds) : Bare (.remark n l :: ds) :=
  List.forall_mem_cons.2 ⟨Or.inl ⟨n, l, rfl⟩, h⟩

theorem bare_nil : Bare [] := fun _ hd => absurd hd List.not_mem_nil

theorem Calls.bare {u : Use} {args : List Value} {cs : List (Ref .callable)}
    (h : Calls u args cs ds) : Bare ds := by
  intro d hd
  obtain ⟨n, c, inner, e, rfl⟩ := h.mem hd
  exact Or.inr ⟨n, u, c, args, inner, e, rfl⟩

end Deed

/-! ## Emissions -/

/-- How calls of user code in a row go: all are made, or the last that was made has failed or has
not come back. -/
inductive Rings (u : Use) (args : List Value) (cs : List (Ref .callable)) (n : Nat) :
    List Deed → Ending Unit → Prop where
  | complete {ds : List Deed} {t : Nat} (ht : n ≤ t) (h : Deed.Calls u args cs ds) :
    Rings u args cs n ds (some (t, .ok ()))
  | failed {ds : List Deed} {cs' : List (Ref .callable)} {m t : Nat} {c : Ref .callable}
    {inner : List Deed} {f : Failure} (ht : n ≤ t) (hc : cs' <+: cs) (h : Deed.Calls u args cs' ds)
    (hf : .ask m u c args inner (some (t, .error f)) ∈ ds) :
    Rings u args cs n ds (some (t, .error f))
  | going {ds : List Deed} {cs' : List (Ref .callable)} (hc : cs' <+: cs)
    (h : Deed.Calls u args cs' ds) : Rings u args cs n ds none

theorem Rings.cons {u : Use} {args : List Value} {cs : List (Ref .callable)} {c : Ref .callable}
    {m : Nat} {inner : List Deed} {e' : Ending Value} {e : Ending Unit}
    (h : Rings u args cs t ds e) (hn : n ≤ t) :
    Rings u args (c :: cs) n (.ask m u c args inner e' :: ds) e := by
  have hd : ∃ i ds e, (.ask m u c args inner e' : Deed) = .ask i u c args ds e :=
    ⟨m, inner, e', rfl⟩
  cases h with
  | complete ht h => exact .complete (hn.trans ht) (.cons hd h)
  | failed ht hc h hf =>
    exact .failed (hn.trans ht) (List.prefix_cons_inj c |>.2 hc) (.cons hd h)
      (List.mem_cons_of_mem _ hf)
  | going hc h => exact .going (List.prefix_cons_inj c |>.2 hc) (.cons hd h)

theorem Rings.mono {u : Use} {args : List Value} {cs : List (Ref .callable)} {e : Ending Unit}
    (h : Rings u args cs t ds e) (hn : n ≤ t) : Rings u args cs n ds e := by
  cases h with
  | complete ht h => exact .complete (hn.trans ht) h
  | failed ht hc h hf => exact .failed (hn.trans ht) hc h hf
  | going hc h => exact .going hc h

namespace Account

/-- Calls of user code in a row. -/
theorem rings {u : Use} {args : List Value} : ∀ {cs : List (Ref .callable)} {n : Nat}
    {ds : List Deed} {e : Ending Unit},
    Account R run plan N b n
      (.now (Outline.each (fun c => Outline.call u c args >>= fun _ => pure ()) cs)) ds e →
    Rings u args cs n ds e
  | [], n, ds, e, h => by
    obtain ⟨rfl, rfl⟩ := h.done_iff
    exact .complete le_rfl .nil
  | c :: cs, n, ds, e, h => by
    have h : Account R run plan N b n (.now (Outline.call u c args >>= fun _ =>
        Outline.each (fun c => Outline.call u c args >>= fun _ => pure ()) cs)) ds e := by
      have heq : Outline.each (fun c => Outline.call u c args >>= fun _ => pure ()) (c :: cs) =
          (Outline.call u c args >>= fun _ => (pure () : Outline Unit)) >>= fun _ =>
            Outline.each (fun c => Outline.call u c args >>= fun _ => pure ()) cs := rfl
      rw [heq] at h
      simpa only [bind_assoc, pure_bind] using h
    rcases h.bind with ⟨ds₁, t, v, ds₂, h₁, h₂, rfl⟩ | ⟨t, f, h₁, rfl⟩ | ⟨h₁, rfl⟩
    · obtain ⟨inner, rfl, -⟩ := h₁.called
      exact (rings h₂).cons (h₁.ending_ge rfl)
    · obtain ⟨inner, rfl, -⟩ := h₁.called
      exact .failed (h₁.ending_ge rfl) (List.prefix_append [c] cs) (.cons ⟨n, inner, _, rfl⟩ .nil)
        List.mem_cons_self
    · obtain ⟨inner, rfl, -⟩ := h₁.called
      exact .going (List.prefix_append [c] cs) (.cons ⟨n, inner, _, rfl⟩ .nil)

/-! ## Straight code before something else -/

/-- Behind straight code the rest goes on in the store that it has made. -/
theorem straight_bind {r : Routine α} {g : α → Outline β} {e : Ending β}
    (h : Account R run plan N b n (.now (.plain r >>= g)) ds e) {i : Nat} {a : α} {s : Store}
    (hr : r.eval (R.store n) = some (i, .ok a, s)) :
    (ds = [] ∧ e = none) ∨
      R.store (n + i) = s ∧ Account R run plan N b (n + i) (.now (g a)) ds e := by
  rcases h.bind with ⟨ds₁, t, a', ds₂, h₁, h₂, rfl⟩ | ⟨t, f, h₁, rfl⟩ | ⟨h₁, rfl⟩
  · obtain ⟨rfl, he | ⟨he, hs⟩⟩ := h₁.straight hr
    · cases he
    · cases he
      exact Or.inr ⟨hs, h₂⟩
  · obtain ⟨-, he | ⟨he, -⟩⟩ := h₁.straight hr
    · cases he
    · cases he
  · exact Or.inl ⟨(h₁.straight hr).1, rfl⟩

/-- Straight code that fails leaves nothing of the rest. -/
theorem straight_bind_error {r : Routine α} {g : α → Outline β} {e : Ending β}
    (h : Account R run plan N b n (.now (.plain r >>= g)) ds e) {i : Nat} {f : Failure} {s : Store}
    (hr : r.eval (R.store n) = some (i, .error f, s)) :
    ds = [] ∧ (e = none ∨ e = some (n + i, .error f) ∧ R.store (n + i) = s) := by
  rcases h.bind with ⟨ds₁, t, a, ds₂, h₁, -, rfl⟩ | ⟨t, f', h₁, rfl⟩ | ⟨h₁, rfl⟩
  · obtain ⟨-, he | ⟨he, -⟩⟩ := h₁.straight hr
    · cases he
    · cases he
  · obtain ⟨rfl, he | ⟨he, hs⟩⟩ := h₁.straight hr
    · cases he
    · cases he
      exact ⟨rfl, Or.inr ⟨rfl, hs⟩⟩
  · exact ⟨(h₁.straight hr).1, Or.inl rfl⟩

/-! ## Emissions -/

/-- **An emission** says what is emitted, and calls the hooks that are registered, in order. -/
theorem emission {name : HookName} {args : List Value} {e : Ending Unit}
    (h : Account R run plan N b n (.now (.emit name args)) ds e) :
    ∃ asks, ds = .remark n (.emits name args) :: asks ∧
      Rings (.hook name) args ((R.store n).hooks.under name) (n + 1) asks e := by
  obtain ⟨asks, h', rfl⟩ := Account.said h
  refine ⟨asks, rfl, ?_⟩
  rcases h'.straight_bind (Routine.eval_read _ _) with ⟨rfl, rfl⟩ | ⟨hs, h'⟩
  · exact .going (List.nil_prefix) .nil
  · cases hhooks : (R.store n).hooks.under name with
    | nil =>
      rw [hhooks] at h'
      obtain ⟨rfl, rfl⟩ := h'.done_iff
      exact .complete le_rfl .nil
    | cons c cs =>
      rw [hhooks] at h'
      rcases h'.straight_bind (Routine.eval_alter _ _) with ⟨rfl, rfl⟩ | ⟨-, h'⟩
      · exact .going List.nil_prefix .nil
      · exact h'.rings.mono (by omega)

theorem emission_bare {name : HookName} {args : List Value} {e : Ending Unit}
    (h : Account R run plan N b n (.now (.emit name args)) ds e) : Deed.Bare ds := by
  obtain ⟨asks, rfl, hr⟩ := h.emission
  cases hr with
  | complete _ hc | failed _ _ hc _ | going _ hc => exact hc.bare.cons_remark

/-- The only user code in an emission are its hooks. -/
theorem emission_asks {name : HookName} {args : List Value} {e : Ending Unit}
    (h : Account R run plan N b n (.now (.emit name args)) ds e) {m : Nat} {u : Use}
    {c : Ref .callable} {as : List Value} {inner : List Deed} {e' : Ending Value}
    (hd : .ask m u c as inner e' ∈ ds) : u = .hook name ∧ as = args := by
  obtain ⟨asks, rfl, hr⟩ := h.emission
  have hmem : .ask m u c as inner e' ∈ asks := (List.mem_cons.1 hd).resolve_left nofun
  obtain ⟨cs, hcalls⟩ : ∃ cs, Deed.Calls (.hook name) args cs asks := by
    cases hr with
    | complete _ hc | failed _ _ hc _ | going _ hc => exact ⟨_, hc⟩
  obtain ⟨_, _, _, _, heq⟩ := hcalls.mem hmem
  cases heq
  exact ⟨rfl, rfl⟩

/-- An emission whose hooks do not fail. -/
theorem emission_sound {name : HookName} {args : List Value} {e : Ending Unit}
    (h : Account R run plan N b n (.now (.emit name args)) ds e)
    (hs : Deed.Sound (· = .hook name) ds) :
    ∃ asks, ds = .remark n (.emits name args) :: asks ∧ Deed.said asks = [] ∧
      (e = none ∨ ∃ t, n < t ∧ e = some (t, .ok ()) ∧
        Deed.Calls (.hook name) args ((R.store n).hooks.under name) asks) := by
  obtain ⟨asks, rfl, hr⟩ := h.emission
  refine ⟨asks, rfl, ?_⟩
  cases hr with
  | complete ht hc => exact ⟨hc.said, Or.inr ⟨_, ht, rfl, hc⟩⟩
  | failed _ _ _ hf => exact absurd (.here (List.mem_cons_of_mem _ hf)) (hs.asked rfl)
  | going _ hc => exact ⟨hc.said, Or.inl rfl⟩

end Account

/-! ## What may be said -/

/-- Everything that an outline says by itself has a property. -/
def Outline.Says (P : Remark → Prop) : Outline α → Prop
  | .done _ | .fail _ => True
  | .get k => ∀ s, (k s).Says P
  | .put _ x => x.Says P
  | .await _ k => ∀ o, (k o).Says P
  | .remark l x => P l ∧ x.Says P
  | .ask _ _ _ k => ∀ o, (k o).Says P

namespace Outline

variable {P Q : Remark → Prop}

theorem Says.mono {x : Outline α} (h : x.Says P) (hPQ : ∀ l, P l → Q l) : x.Says Q := by
  induction x with
  | done | fail => trivial
  | get k ih => exact fun s => ih s (h s)
  | put s x ih => exact ih h
  | await w k ih => exact fun o => ih o (h o)
  | remark l x ih => exact ⟨hPQ l h.1, ih h.2⟩
  | ask u c args k ih => exact fun o => ih o (h o)

theorem Says.thenOn {x : Outline α} {g : Except Failure α → Outline β} (hx : x.Says P)
    (hg : ∀ o, (g o).Says P) : (x.thenOn g).Says P := by
  induction x with
  | done a => exact hg _
  | fail f => exact hg _
  | get k ih => exact fun s => ih s (hx s)
  | put s x ih => exact ih hx
  | await w k ih => exact fun o => ih o (hx o)
  | remark l x ih => exact ⟨hx.1, ih hx.2⟩
  | ask u c args k ih => exact fun o => ih o (hx o)

theorem Says.bind {x : Outline α} {g : α → Outline β} (hx : x.Says P) (hg : ∀ a, (g a).Says P) :
    (x >>= g).Says P := by
  refine hx.thenOn fun o => ?_
  cases o with
  | ok a => exact hg a
  | error f => trivial

theorem Says.attempt {x : Outline α} (hx : x.Says P) : x.attempt.Says P := by
  refine hx.thenOn fun o => ?_
  cases o with
  | ok a => trivial
  | error f =>
    rw [caught]
    split <;> trivial

theorem says_plain (r : Routine α) : (plain r).Says P := by
  induction r with
  | done | fail => trivial
  | get k ih => exact ih
  | put s r ih => exact ih
  | await w k ih => exact ih

theorem says_pure (a : α) : (pure a : Outline α).Says P := trivial

theorem says_ofOutcome (o : Except Failure α) : (ofOutcome o).Says P := by cases o <;> trivial

theorem says_call (u : Use) (c : Ref .callable) (args : List Value) : (call u c args).Says P :=
  says_ofOutcome

theorem says_say {l : Remark} (h : P l) : (say l).Says P := ⟨h, trivial⟩

theorem says_each {f : α → Outline Unit} (h : ∀ a, (f a).Says P) :
    ∀ xs : List α, (each f xs).Says P
  | [] => trivial
  | x :: xs => Says.bind (h x) fun _ => says_each h xs

theorem says_emit {name : HookName} {args : List Value} (h : P (.emits name args)) :
    (emit name args).Says P := by
  refine Says.bind (says_say h) fun _ => Says.bind (says_plain _) fun hooks => ?_
  split
  · trivial
  · exact Says.bind (says_plain _) fun _ =>
      says_each (fun _ => Says.bind (says_call _ _ _) fun _ => says_pure ()) hooks

end Outline

/-- Everything that a stretch says by itself has a property. -/
def Stretch.Says (P : Remark → Prop) : Stretch α → Prop
  | .now x | .later x => x.Says P

namespace Account

variable {P : Remark → Prop}

/-- What an account says by itself has a property that everything has that the outline says. -/
theorem said_all {s : Stretch α} {e : Ending α} (h : Account R run plan N b n s ds e)
    (hs : s.Says P) : ∀ l ∈ Deed.said ds, P l := by
  induction h with
  | done | fail | stop | rest | asking | calling | forking => exact nofun
  | remark l _ ih => exact List.forall_mem_cons.2 ⟨hs.1, ih hs.2⟩
  | get _ _ _ _ ih => exact ih (hs _)
  | put _ _ _ _ ih => exact ih hs
  | ask _ _ _ _ _ _ ih => exact ih (hs _)
  | call _ _ _ _ _ _ ih => exact ih (hs _)
  | sleep _ _ _ ih => exact ih (hs _)
  | resume _ _ _ _ _ ih => exact ih hs
  | skip _ _ _ _ _ ih => exact ih (hs _)
  | fork _ _ _ _ _ _ _ _ _ _ _ _ _ ih => exact ih (hs _)
  | drain _ _ _ _ ih => exact ih hs
  | drained _ _ _ _ _ ih => exact ih (hs _)

/-- What is said in an account, to any depth, has a property that everything has that the outline
and the parts in the account say. -/
theorem said_deep {s : Stretch α} {e : Ending α} (h : Account R run plan N b n s ds e)
    (hs : ∀ l ∈ Deed.said ds, P l)
    (hplan : ∀ {m b p inner e}, Occurs (.part m b p inner e) ds → (plan p).Says P) {m : Nat}
    {l : Remark} (hl : Occurs (.remark m l) ds) : P l := by
  -- The inside of a deed is told by an account of a part or of a routine with nothing to say.
  have hin : ∀ {d : Deed}, Occurs d ds → ∀ l ∈ Deed.said d.inner, P l := by
    intro d hd
    cases (h.occurs hd).2 with
    | remark => exact nofun
    | ask u h => exact h.said_all (P := P) (Outline.says_plain _)
    | part hst h =>
      rcases hst with rfl | rfl
      · exact h.said_all (P := P) (hplan hd)
      · exact h.said_all (P := P) (hplan hd)
    | fork kind h he =>
      intro l hl
      obtain ⟨x, hx, hxl⟩ := List.mem_filterMap.1 hl
      obtain ⟨i, rfl⟩ := Deed.mem_parts.1 hx
      cases hxl
  have hdeep : ∀ {ds' : List Deed}, Occurs (.remark m l) ds' → (∀ l ∈ Deed.said ds', P l) →
      (∀ d ∈ ds', Occurs d ds) → P l := by
    intro ds' hocc
    induction hocc with
    | here hd => exact fun hs _ => hs l (List.mem_filterMap.2 ⟨_, hd, rfl⟩)
    | inside hd' _ ih =>
      intro _ hocc
      exact ih (hin (hocc _ hd')) fun x hx => (Occurs.here hx).trans (hocc _ hd')
  exact hdeep hl hs fun d hd => .here hd

/-- What is said inside of an account has a property that everything has that the parts say. -/
theorem said_inside (hplan : ∀ p, (plan p).Says P) {s : Stretch α} {e : Ending α}
    (h : Account R run plan N b n s ds e) {d : Deed} (hd : d ∈ ds) {m : Nat} {l : Remark}
    (hl : Occurs (.remark m l) d.inner) : P l := by
  cases (h.mem d hd).2.1 with
  | remark => cases hl <;> contradiction
  | ask u h => exact h.said_deep (h.said_all (P := P) (Outline.says_plain _)) (fun _ => hplan _) hl
  | part hst h =>
    rcases hst with rfl | rfl
    · exact h.said_deep (h.said_all (P := P) (hplan _)) (fun _ => hplan _) hl
    · exact h.said_deep (h.said_all (P := P) (hplan _)) (fun _ => hplan _) hl
  | fork kind h he =>
    rcases hl with hl | ⟨hp, hl⟩
    · obtain ⟨i, hi⟩ := Deed.mem_parts.1 hl
      cases hi
    · obtain ⟨i, rfl⟩ := Deed.mem_parts.1 hp
      exact (h i).said_deep ((h i).said_all (P := P) (hplan _)) (fun _ => hplan _) hl

end Account

/-! ## Silence -/

/-- An outline that says nothing and calls no user code by itself. -/
def Outline.Mute : Outline α → Prop
  | .done _ | .fail _ => True
  | .get k => ∀ s, (k s).Mute
  | .put _ x => x.Mute
  | .await _ k => ∀ o, (k o).Mute
  | .remark .. | .ask .. => False

theorem Outline.mute_plain (r : Routine α) : (plain r).Mute := by
  induction r with
  | done | fail => trivial
  | get k ih => exact ih
  | put s r ih => exact ih
  | await w k ih => exact ih

/-- A stretch that says nothing and calls no user code by itself. -/
def Stretch.Mute : Stretch α → Prop
  | .now x | .later x => x.Mute

theorem Account.silent {s : Stretch α} {e : Ending α} (h : Account R run plan N b n s ds e)
    (hs : s.Mute) : Deed.Silent ds := by
  have hcons : ∀ {d : Deed} {ds : List Deed}, ((∃ n b p inner e, d = .part n b p inner e) ∨
      ∃ n kind inner e, d = .fork n kind inner e) → Deed.Silent ds → Deed.Silent (d :: ds) :=
    fun hd hds => List.forall_mem_cons.2 ⟨hd, hds⟩
  induction h with
  | done | fail | stop | rest => exact nofun
  | remark | ask | asking => exact hs.elim
  | get _ _ _ _ ih => exact ih (hs _)
  | put _ _ _ _ ih => exact ih hs
  | call _ _ _ _ _ _ ih => exact hcons (Or.inl ⟨_, _, _, _, _, rfl⟩) (ih (hs _))
  | calling => exact hcons (Or.inl ⟨_, _, _, _, _, rfl⟩) nofun
  | sleep _ _ _ ih => exact ih (hs _)
  | resume _ _ _ _ _ ih => exact ih hs
  | skip _ _ _ _ _ ih => exact ih (hs _)
  | fork _ _ _ _ _ _ _ _ _ _ _ _ _ ih => exact hcons (Or.inr ⟨_, _, _, _, rfl⟩) (ih (hs _))
  | forking => exact hcons (Or.inr ⟨_, _, _, _, rfl⟩) nofun
  | drain _ _ _ _ ih => exact ih hs
  | drained _ _ _ _ _ ih => exact ih (hs _)

/-- **A routine without anything to say** says nothing, and calls no user code by itself. -/
theorem Account.silent_plain {r : Routine α} {e : Ending α}
    (h : Account R run plan N b n (.now (.plain r)) ds e) : Deed.Silent ds :=
  h.silent (Outline.mute_plain r)

end Conductor
